import FractionAuction.AuctionProgram.Decoding
import FractionAuction.Library.Codec

/-!
# The interface of the vault program

The data of a vault account, and the instructions with which the auction program invokes the vault program.
-/

namespace FractionAuction.AuctionProgram

open Borsh

/-! ## Sizes -/

def maxSafetyDepositSize : ℕ := 1 + 32 + 32 + 32 + 1

def maxVaultSize : ℕ := 1 + 32 + 32 + 32 + 32 + 1 + 32 + 1 + 32 + 1 + 1 + 8

def maxExternalAccountSize : ℕ := 8 + 1 + 8 + 32 + 1

/-! ## Enumerations -/

def Key.codec : Codec Key := .variant variants (by decide) (fun k => by cases k <;> decide) (by decide)

def VaultState.variants : List VaultState := [inactive, active, combined, deactivated]

def VaultState.codec : Codec VaultState := .variant variants (by decide) (fun s => by cases s <;> decide) (by decide)

/-! ## Vault -/

/-- `Vault` with all its fields; an address is its bytes. -/
structure VaultData where
  key : Key
  tokenProgram : Bytes 32
  fractionMint : Bytes 32
  authority : Bytes 32
  fractionTreasury : Bytes 32
  redeemTreasury : Bytes 32
  allowFurtherShareCreation : Bool
  pricingLookupAddress : Bytes 32
  tokenTypeCount : UInt8
  state : VaultState
  lockedPricePerShare : UInt64
deriving DecidableEq

namespace VaultData

def codec : Codec VaultData :=
  (Key.codec.both <| (Codec.bytes 32).both <| (Codec.bytes 32).both <| (Codec.bytes 32).both <|
    (Codec.bytes 32).both <| (Codec.bytes 32).both <| Codec.flag.both <| (Codec.bytes 32).both <|
      Codec.byte.both <| VaultState.codec.both Codec.word).map {
    toFun := fun (key, program, mint, authority, treasury, redeem, allow, pricing, count, state, locked) =>
      ⟨key, program, mint, authority, treasury, redeem, allow, pricing, count, state, locked⟩
    invFun := fun d => (d.key, d.tokenProgram, d.fractionMint, d.authority, d.fractionTreasury, d.redeemTreasury,
      d.allowFurtherShareCreation, d.pricingLookupAddress, d.tokenTypeCount, d.state, d.lockedPricePerShare) }

theorem sized : codec.Sized 204 :=
  (Codec.sized_variant.both <| (Codec.sized_bytes 32).both <| (Codec.sized_bytes 32).both <|
    (Codec.sized_bytes 32).both <| (Codec.sized_bytes 32).both <| (Codec.sized_bytes 32).both <|
      Codec.sized_flag.both <| (Codec.sized_bytes 32).both <| Codec.sized_byte.both <|
        Codec.sized_variant.both Codec.sized_word).map _

def tryDeserializeUnchecked (buf : List UInt8) : Option VaultData := tryFromSliceUnchecked codec.read buf

/-- The key is not looked at. -/
def tryDeserialize (buf : List UInt8) : Option VaultData := tryDeserializeUnchecked buf

/-- What the auction program uses of it. -/
def vault (pubkey : Bytes 32 → Pubkey) (d : VaultData) : Vault :=
  ⟨pubkey d.fractionMint, pubkey d.authority, pubkey d.redeemTreasury, pubkey d.pricingLookupAddress, d.state⟩

/-- The bytes of the key, the flag and the state are in range, and no field is missing. -/
structure InRange (buf : List UInt8) : Prop where
  key : ∃ b, buf[0]? = some b ∧ b.toNat < 4
  allowed : ∃ b, buf[161]? = some b ∧ b.toNat < 2
  state : ∃ b, buf[195]? = some b ∧ b.toNat < 4
  room : 204 ≤ buf.length

theorem tryDeserialize_isSome_iff (buf : List UInt8) : (tryDeserialize buf).isSome ↔ InRange buf := by
  have htakes : Takes codec.read _ _ := Codec.takes_map
    (Codec.takes_both (takes_variant Key.variants) <| Codec.takes_both (takes_bytes 32) <|
      Codec.takes_both (takes_bytes 32) <| Codec.takes_both (takes_bytes 32) <| Codec.takes_both (takes_bytes 32) <|
        Codec.takes_both (takes_bytes 32) <| Codec.takes_both takes_flag <| Codec.takes_both (takes_bytes 32) <|
          Codec.takes_both Codec.takes_byte <| Codec.takes_both (takes_variant VaultState.variants)
            (Codec.takes_map (takes_bytes 8) words)) _
  refine (htakes.unchecked buf).trans ?_
  simp only [List.length_drop, List.getElem?_drop, List.drop_drop]
  constructor
  · rintro ⟨hkey, -, -, -, -, -, hallowed, -, -, hstate, hroom⟩
    exact ⟨hkey, hallowed, hstate, by omega⟩
  · rintro ⟨hkey, hallowed, hstate, hroom⟩
    exact ⟨hkey, by omega, by omega, by omega, by omega, by omega, hallowed, by omega, by omega, hstate, by omega⟩

/-- Which data are taken for a vault, and what is read of them. The key is not looked at, and other accounts of the
vault program are told apart by their sizes. -/
theorem taken_for_vault (buf : List UInt8) : ((tryDeserialize buf).isSome ↔ InRange buf) ∧
    (∀ d, tryDeserialize buf = some d ↔ ∃ rest, buf = codec.write d ++ rest) ∧
    (buf.length = maxSafetyDepositSize ∨ buf.length = maxExternalAccountSize → tryDeserialize buf = none) ∧
    ∀ d room, codec.write d ++ room = buf → (room.length = 1 ↔ buf.length = maxVaultSize) := by
  refine ⟨tryDeserialize_isSome_iff buf, fun d => codec.tryFromSliceUnchecked_iff, fun hsize => ?_, ?_⟩
  · cases hread : tryDeserialize buf with
    | none => rfl
    | some d =>
        have hroom := ((tryDeserialize_isSome_iff buf).mp (Option.isSome_of_eq_some hread)).room
        have hshort : buf.length < 204 := by
          rcases hsize with h | h
          · exact h ▸ by decide
          · exact h ▸ by decide
        omega
  · rintro d room rfl
    rw [List.length_append, sized d, maxVaultSize]
    omega

end VaultData

/-! ## Price -/

namespace PriceData

/-- What the auction program uses of it. -/
def price (pubkey : Bytes 32 → Pubkey) (d : PriceData) : Price :=
  ⟨d.pricePerShare, pubkey d.priceMint, d.allowedToCombine⟩

def codec : Codec PriceData :=
  (Codec.word.both <| Key.codec.both <| Codec.word.both <| (Codec.bytes 32).both Codec.flag).map {
    toFun := fun (discriminator, key, price, mint, allowed) => ⟨discriminator, key, price, mint, allowed⟩
    invFun := fun d => (d.discriminator, d.key, d.pricePerShare, d.priceMint, d.allowedToCombine) }

end PriceData

/-! ## Instructions of the vault program -/

structure InitVaultArgs where
  allowFurtherShareCreation : Bool
deriving DecidableEq

structure AmountArgs where
  amount : UInt64
deriving DecidableEq

structure NumberOfShareArgs where
  numberOfShares : UInt64
deriving DecidableEq

def InitVaultArgs.codec : Codec InitVaultArgs := Codec.flag.map ⟨mk, allowFurtherShareCreation, fun _ => rfl, fun _ => rfl⟩

def AmountArgs.codec : Codec AmountArgs := Codec.word.map ⟨mk, amount, fun _ => rfl, fun _ => rfl⟩

def NumberOfShareArgs.codec : Codec NumberOfShareArgs := Codec.word.map ⟨mk, numberOfShares, fun _ => rfl, fun _ => rfl⟩

inductive VaultInstruction where
  | initVault (args : InitVaultArgs)
  | addTokenToInactiveVault (args : AmountArgs)
  | activateVault (args : NumberOfShareArgs)
  | combineVault
  | redeemShares
  | withdrawTokenFromSafetyDepositBox (args : AmountArgs)
  | mintFractionalShares (args : NumberOfShareArgs)
  | withdrawSharesFromTreasury (args : NumberOfShareArgs)
  | addSharesToTreasury (args : NumberOfShareArgs)
  | updateExternalPriceAccount (price : PriceData)
  | setAuthority
deriving DecidableEq

namespace VaultInstruction

/-- The variants without their arguments. -/
inductive Tag where
  | initVault
  | addTokenToInactiveVault
  | activateVault
  | combineVault
  | redeemShares
  | withdrawTokenFromSafetyDepositBox
  | mintFractionalShares
  | withdrawSharesFromTreasury
  | addSharesToTreasury
  | updateExternalPriceAccount
  | setAuthority
deriving DecidableEq

namespace Tag

def variants : List Tag := [initVault, addTokenToInactiveVault, activateVault, combineVault, redeemShares,
  withdrawTokenFromSafetyDepositBox, mintFractionalShares, withdrawSharesFromTreasury, addSharesToTreasury,
  updateExternalPriceAccount, setAuthority]

def codec : Codec Tag := .variant variants (by decide) (fun t => by cases t <;> decide) (by decide)

def Args : Tag → Type
  | initVault => InitVaultArgs
  | addTokenToInactiveVault | withdrawTokenFromSafetyDepositBox => AmountArgs
  | activateVault | mintFractionalShares | withdrawSharesFromTreasury | addSharesToTreasury => NumberOfShareArgs
  | updateExternalPriceAccount => PriceData
  | combineVault | redeemShares | setAuthority => Unit

def argsCodec : (t : Tag) → Codec t.Args
  | initVault => InitVaultArgs.codec
  | addTokenToInactiveVault | withdrawTokenFromSafetyDepositBox => AmountArgs.codec
  | activateVault | mintFractionalShares | withdrawSharesFromTreasury | addSharesToTreasury => NumberOfShareArgs.codec
  | updateExternalPriceAccount => PriceData.codec
  | combineVault | redeemShares | setAuthority => Codec.unit

end Tag

def ofTag : (Σ t : Tag, t.Args) → VaultInstruction
  | ⟨.initVault, args⟩ => initVault args
  | ⟨.addTokenToInactiveVault, args⟩ => addTokenToInactiveVault args
  | ⟨.activateVault, args⟩ => activateVault args
  | ⟨.combineVault, _⟩ => combineVault
  | ⟨.redeemShares, _⟩ => redeemShares
  | ⟨.withdrawTokenFromSafetyDepositBox, args⟩ => withdrawTokenFromSafetyDepositBox args
  | ⟨.mintFractionalShares, args⟩ => mintFractionalShares args
  | ⟨.withdrawSharesFromTreasury, args⟩ => withdrawSharesFromTreasury args
  | ⟨.addSharesToTreasury, args⟩ => addSharesToTreasury args
  | ⟨.updateExternalPriceAccount, price⟩ => updateExternalPriceAccount price
  | ⟨.setAuthority, _⟩ => setAuthority

def toTag : VaultInstruction → Σ t : Tag, t.Args
  | initVault args => ⟨.initVault, args⟩
  | addTokenToInactiveVault args => ⟨.addTokenToInactiveVault, args⟩
  | activateVault args => ⟨.activateVault, args⟩
  | combineVault => ⟨.combineVault, ()⟩
  | redeemShares => ⟨.redeemShares, ()⟩
  | withdrawTokenFromSafetyDepositBox args => ⟨.withdrawTokenFromSafetyDepositBox, args⟩
  | mintFractionalShares args => ⟨.mintFractionalShares, args⟩
  | withdrawSharesFromTreasury args => ⟨.withdrawSharesFromTreasury, args⟩
  | addSharesToTreasury args => ⟨.addSharesToTreasury, args⟩
  | updateExternalPriceAccount price => ⟨.updateExternalPriceAccount, price⟩
  | setAuthority => ⟨.setAuthority, ()⟩

def tags : (Σ t : Tag, t.Args) ≃ VaultInstruction where
  toFun := ofTag
  invFun := toTag
  left_inv := by
    rintro ⟨t, args⟩
    cases t <;> rfl
  right_inv := by
    intro i
    cases i <;> rfl

def codec : Codec VaultInstruction := (Tag.codec.sigma Tag.argsCodec).map tags

def tryToVec (i : VaultInstruction) : List UInt8 := codec.write i

/-- The bytes of an instruction stand for it, and for no other. -/
theorem tryFromSlice_tryToVec (i j : VaultInstruction) : codec.tryFromSlice i.tryToVec = some j ↔ j = i := by
  rw [codec.tryFromSlice_iff]
  constructor
  · intro h
    exact (codec.write_injective h).symm
  · rintro rfl
    rfl

example : (withdrawTokenFromSafetyDepositBox ⟨513⟩).tryToVec = [5, 1, 2, 0, 0, 0, 0, 0, 0] := by decide

end VaultInstruction

/-! ## Invocations -/

structure AccountMeta where
  pubkey : Pubkey
  isSigner : Bool
  isWritable : Bool

def AccountMeta.new (pubkey : Pubkey) (isSigner : Bool) : AccountMeta := ⟨pubkey, isSigner, true⟩

def AccountMeta.newReadonly (pubkey : Pubkey) (isSigner : Bool) : AccountMeta := ⟨pubkey, isSigner, false⟩

structure Instruction where
  programId : Pubkey
  accounts : List AccountMeta
  data : List UInt8

/-- The addresses in whose name the instruction is signed. -/
def Instruction.signers (ix : Instruction) : List Pubkey := (ix.accounts.filter AccountMeta.isSigner).map AccountMeta.pubkey

/-- `Vault::owner()`, `anchor_spl::token::ID` and `sysvar::rent::id()` -/
structure Programs where
  vaultOwner : Pubkey
  token : Pubkey
  rent : Pubkey

namespace Programs

variable (ids : Programs)

def createCombineVaultInstruction (programId vault outstandingShareTokenAccount payingTokenAccount fractionMint
    fractionTreasury redeemTreasury newAuthority vaultAuthority payingTransferAuthority uncirculatedBurnAuthority
    externalPricingAccount : Pubkey) : Instruction where
  programId
  accounts := [
    .new vault false,
    .new outstandingShareTokenAccount false,
    .new payingTokenAccount false,
    .new fractionMint false,
    .new fractionTreasury false,
    .new redeemTreasury false,
    .new newAuthority false,
    .newReadonly vaultAuthority true,
    .newReadonly payingTransferAuthority true,
    .newReadonly uncirculatedBurnAuthority false,
    .newReadonly externalPricingAccount false,
    .newReadonly ids.token false]
  data := VaultInstruction.combineVault.tryToVec

def createWithdrawTokensInstruction (programId destination safetyDepositBox store vault fractionMint vaultAuthority
    transferAuthority : Pubkey) (amount : UInt64) : Instruction where
  programId
  accounts := [
    .new destination false,
    .new safetyDepositBox false,
    .new store false,
    .new vault false,
    .newReadonly fractionMint false,
    .newReadonly vaultAuthority true,
    .newReadonly transferAuthority false,
    .newReadonly ids.token false,
    .newReadonly ids.rent false]
  data := (VaultInstruction.withdrawTokenFromSafetyDepositBox ⟨amount⟩).tryToVec

def createRedeemSharesInstruction (programId outstandingSharesAccount proceedsAccount fractionMint redeemTreasury
    transferAuthority burnAuthority vault : Pubkey) : Instruction where
  programId
  accounts := [
    .new outstandingSharesAccount false,
    .new proceedsAccount false,
    .new fractionMint false,
    .new redeemTreasury false,
    .newReadonly transferAuthority false,
    .newReadonly burnAuthority true,
    .newReadonly vault false,
    .newReadonly ids.token false,
    .newReadonly ids.rent false]
  data := VaultInstruction.redeemShares.tryToVec

/-- The instruction that `combine_vault` invokes. The authority on the vault becomes the new one too. -/
def combineVault (ctx : Combine) : Instruction :=
  ids.createCombineVaultInstruction ids.vaultOwner ctx.vault ctx.outstandingShareTokenAccount ctx.payingTokenAccount
    ctx.fractionMint ctx.fractionTreasury ctx.redeemTreasury ctx.vaultAuthority ctx.vaultAuthority ctx.payer
    ctx.vaultPda ctx.externalPricingAccount

def withdrawLocked (ctx : Withdraw) (amount : UInt64) : Instruction :=
  ids.createWithdrawTokensInstruction ids.vaultOwner ctx.destinationTokenAccount ctx.safetyDepositBox
    ctx.lockedTokenAccount ctx.vault ctx.fractionMint ctx.vaultAuthority ctx.vaultPda amount

def redeemShares (ctx : RedeemShares) : Instruction :=
  ids.createRedeemSharesInstruction ids.vaultOwner ctx.srcAccount ctx.destAccount ctx.fractionMint ctx.redeemTreasury
    ctx.vaultPda ctx.redeemer ctx.vault

end Programs

/-! ## The vault program behind its interface -/

/-- A program that is run on instructions; `prices` are the price accounts that it can read. -/
structure VaultProcessor (T : TokenProgram Pubkey) where
  State : Type
  vault : State → Vault
  process : Instruction → (Pubkey → Option Price) → State → T.Ledger → Option (State × T.Ledger)

namespace VaultProcessor

variable {T : TokenProgram Pubkey} (P : VaultProcessor T)

/-- `invoke_signed`: all signatures of the instruction must have been given, by the transaction or by the seeds. -/
def invokeSigned (given : List Pubkey) (ix : Instruction) (prices : Pubkey → Option Price) (s : P.State)
    (L : T.Ledger) : Option (P.State × T.Ledger) :=
  if ∀ k ∈ ix.signers, k ∈ given then P.process ix prices s L else none

/-- The vault program as the auction program calls it. -/
def program (ids : Programs) : VaultProgram T where
  State := P.State
  vault := P.vault
  combine ctx price := P.invokeSigned [ctx.payer, .authority] (ids.combineVault ctx) fun k =>
    if k = ctx.externalPricingAccount then some price else none
  withdraw ctx amount := P.invokeSigned [.authority] (ids.withdrawLocked ctx amount) fun _ => none
  redeemShares ctx := P.invokeSigned [ctx.redeemer] (ids.redeemShares ctx) fun _ => none

/-- The rule of the runtime: what is kept in the name of a derived address moves only if the address signs. And the
vault program mints only when it is told to. -/
structure Restrained : Prop where
  holds {ix prices s s' L L' k m o} : P.process ix prices s L = some (s', L') → o.isDerived = true →
    o ∉ ix.signers → T.Holds L k m o → T.Holds L' k m o ∧ T.balance L k ≤ T.balance L' k
  mints {ix prices s s' L L' m} : P.process ix prices s L = some (s', L') →
    T.outstanding L m < T.outstanding L' m → ∃ args,
      VaultInstruction.codec.tryFromSlice ix.data = some (.activateVault args) ∨
        VaultInstruction.codec.tryFromSlice ix.data = some (.mintFractionalShares args)

variable {P} {ids : Programs}

variable {given : List Pubkey} {ix : Instruction} {prices : Pubkey → Option Price} {s : P.State} {L : T.Ledger}

theorem invokeSigned_eq_some {r : P.State × T.Ledger} : P.invokeSigned given ix prices s L = some r ↔
    (∀ k ∈ ix.signers, k ∈ given) ∧ P.process ix prices s L = some r := Option.ite_none_right_eq_some

theorem invokeSigned_of_given (h : ∀ k ∈ ix.signers, k ∈ given) :
    P.invokeSigned given ix prices s L = P.process ix prices s L := if_pos h

end VaultProcessor

end FractionAuction.AuctionProgram
