import FractionAuction.Address
import FractionAuction.Library.TokenProgram

/-!
# The vault program

Its code is not part of the repository. It is a parameter, with the three instructions that the auction
invokes; `Lawful` lists what the auction relies on.
-/

namespace FractionAuction.AuctionProgram

/-! ## Accounts -/

inductive VaultState where
  | inactive
  | active
  | combined
  | deactivated
deriving DecidableEq

structure Vault where
  fractionMint : Pubkey
  authority : Pubkey
  redeemTreasury : Pubkey
  pricingLookupAddress : Pubkey
  state : VaultState
deriving DecidableEq

/-- A price account, as the price tracker writes it. -/
structure Price where
  pricePerShare : UInt64
  priceMint : Pubkey
  allowedToCombine : Bool
deriving DecidableEq

/-! ## Invocations -/

structure Combine where
  vault : Pubkey
  vaultAuthority : Pubkey
  vaultPda : Pubkey
  externalPricingAccount : Pubkey
  outstandingShareTokenAccount : Pubkey
  payingTokenAccount : Pubkey
  fractionMint : Pubkey
  fractionTreasury : Pubkey
  redeemTreasury : Pubkey
  payer : Pubkey

structure Withdraw where
  vault : Pubkey
  vaultAuthority : Pubkey
  vaultPda : Pubkey
  destinationTokenAccount : Pubkey
  safetyDepositBox : Pubkey
  lockedTokenAccount : Pubkey
  fractionMint : Pubkey

structure RedeemShares where
  vault : Pubkey
  vaultPda : Pubkey
  srcAccount : Pubkey
  destAccount : Pubkey
  fractionMint : Pubkey
  redeemTreasury : Pubkey
  redeemer : Pubkey

/-! ## The program -/

/-- The vault's own accounts are a `State`, of which the auction reads the vault account. -/
structure VaultProgram (T : TokenProgram Pubkey) where
  State : Type
  vault : State → Vault
  combine : Combine → Price → State → T.Ledger → Option (State × T.Ledger)
  withdraw : Withdraw → UInt64 → State → T.Ledger → Option (State × T.Ledger)
  redeemShares : RedeemShares → State → T.Ledger → Option (State × T.Ledger)

namespace VaultProgram

variable {T : TokenProgram Pubkey}

/-- A call that pays into `destination` and nowhere else, and not from accounts in the auction's name. -/
structure PaysTo (L L' : T.Ledger) (destination : Pubkey) : Prop where
  nowhere_else {k} : k ≠ destination → T.balance L' k ≤ T.balance L k
  holds {k m o} : o.isEscrow → T.Holds L k m o → T.Holds L' k m o
  other {k m o} : o.isEscrow → T.Holds L k m o → k ≠ destination → T.account L' k = T.account L k
  gains {k m o} : o.isEscrow → T.Holds L k m o → T.balance L k ≤ T.balance L' k

/-- `combine` takes tokens only from the paying account. A withdrawal pays what the vault locks. A redemption
burns the whole balance of the source and pays from the redeem treasury. -/
structure Lawful (V : VaultProgram T) : Prop where
  combine_mints {ctx price s s' L L'} : V.combine ctx price s L = some (s', L') →
    (V.vault s').fractionMint = (V.vault s).fractionMint ∧
      (V.vault s').redeemTreasury = (V.vault s).redeemTreasury
  combine_payer {ctx price s s' L L' m o} : V.combine ctx price s L = some (s', L') →
    T.Holds L ctx.payingTokenAccount m o → T.Holds L' ctx.payingTokenAccount m o ∧
      T.balance L' ctx.payingTokenAccount ≤ T.balance L ctx.payingTokenAccount
  combine_escrow {ctx price s s' L L' k m o} : V.combine ctx price s L = some (s', L') →
    ctx.payer.isEscrow = false → o.isEscrow → T.Holds L k m o → T.account L' k = T.account L k
  withdraw_mints {ctx n s s' L L'} : V.withdraw ctx n s L = some (s', L') →
    (V.vault s').fractionMint = (V.vault s).fractionMint ∧
      (V.vault s').redeemTreasury = (V.vault s).redeemTreasury ∧ T.supply L' = T.supply L
  withdraw_pays {ctx n s s' L L'} : V.withdraw ctx n s L = some (s', L') →
    PaysTo L L' ctx.destinationTokenAccount
  redeem_mints {ctx s s' L L'} : V.redeemShares ctx s L = some (s', L') →
    (V.vault s').fractionMint = (V.vault s).fractionMint ∧
      (V.vault s').redeemTreasury = (V.vault s).redeemTreasury
  redeem_burns {ctx s s' L L' a n} : V.redeemShares ctx s L = some (s', L') →
    T.account L ctx.srcAccount = some a → T.supply L ctx.fractionMint = some n →
      a.amount ≤ n ∧ T.supply L' ctx.fractionMint = some (n - a.amount)
  redeem_holds {ctx s s' L L' k m o} : V.redeemShares ctx s L = some (s', L') →
    (T.Holds L' k m o ↔ T.Holds L k m o)
  redeem_pays {ctx s s' L L'} : V.redeemShares ctx s L = some (s', L') →
    ctx.redeemer.isEscrow = false → PaysTo L L' ctx.destAccount

end VaultProgram

end FractionAuction.AuctionProgram
