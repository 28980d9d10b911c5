import FractionAuction.AuctionProgram.SampleVault
import FractionAuction.Chain.Lemmas.Mandate
import FractionAuction.Chain.Lemmas.Restrained

/-!
# A small chain

The vault program of the sample market is modest. The fractions of the vault 2 are in the mint 1 and priced by the
account 3, those of the vault 102 are in the mint 101 and priced by the account 103.
-/

namespace FractionAuction

open TokenProgram

namespace AuctionProgram.SampleVault

theorem protects_of_burn {Q : Pubkey → Prop} {k o : Pubkey} {n : UInt64} {L L' : Ledger}
    (h : L.burn k o n = some L') (ho : ¬ Q o) : Protects (T := P) Q L L' := by
  have hsame {l m o' : Pubkey} (ho' : Q o') (hl : P.Holds L l m o') : P.account L' l = P.account L l := by
    obtain ⟨m', hm'⟩ := burn_owner h
    refine burn_other h (hl.ne hm' ?_)
    rintro rfl
    exact ho ho'
  refine ⟨fun ho' hl => (Holds.congr (hsame ho' hl)).mpr hl, fun ho' hl => (balance_congr (hsame ho' hl)).ge,
    fun m => ?_⟩
  obtain ⟨a, s, -, hs, -, -, hle, -, hmints⟩ := TokenLedger.burn_eq_some h
  by_cases hm : m = a.mint
  · subst hm
    have hs' : P.supply L' a.mint = some (s - n) := by
      change L'.mints.lookup a.mint = _
      rw [hmints, AList.lookup_insert]
    rw [outstanding_of_supply hs', outstanding_of_supply (T := P) hs,
      FixedPoint.toNat_sub_of_le (UInt64.le_iff_toNat_le.mp hle)]
    exact Nat.sub_le _ _
  · have hother : P.supply L' m = P.supply L m := by
      change L'.mints.lookup m = L.mints.lookup m
      rw [hmints, AList.lookup_insert_ne hm]
    exact le_of_eq (congrArg (fun x => (x.map UInt64.toNat).getD 0) hother)

section Calls

variable {Q : Pubkey → Prop} {s s' : Vault} {L L' : Ledger}

theorem protects_of_combine {ctx : Combine} {price : Price} (h : combine ctx price s L = some (s', L'))
    (ho : ¬ Q ctx.payer) : Protects (T := P) Q L L' := by
  obtain ⟨charge, _, _, _, htransfer, _⟩ := combine_eq_some h
  exact .transfer TokenLedger.program_lawful htransfer ho

theorem protects_of_withdraw {ctx : Withdraw} {n : UInt64} (h : withdraw ctx n s L = some (s', L'))
    (ho : ¬ Q pda) : Protects (T := P) Q L L' :=
  .transfer TokenLedger.program_lawful (withdraw_eq_some h).1 ho

theorem protects_of_redeemShares {ctx : RedeemShares} (h : redeemShares ctx s L = some (s', L'))
    (ho : ¬ Q ctx.redeemer) (hpda : ¬ Q pda) : Protects (T := P) Q L L' := by
  obtain ⟨_, _, _, _, _, hburn, htransfer, _⟩ := redeemShares_eq_some h
  exact (protects_of_burn hburn ho).trans (.transfer TokenLedger.program_lawful htransfer hpda)

end Calls

theorem modest : Chain.Modest sampleVault where
  combine h hpayer := protects_of_combine h (by simp [hpayer])
  withdraw h := protects_of_withdraw h (by simp [pda, Pubkey.isHolder, Pubkey.isEscrow])
  redeemShares h hredeemer := protects_of_redeemShares h (by simp [hredeemer])
    (by simp [pda, Pubkey.isHolder, Pubkey.isEscrow])

/-! ## The same program behind its interface -/

/-- The accounts are told apart by their positions. Authorities must have signed. -/
def process (ix : Instruction) (prices : Pubkey → Option Price) (s : Vault) (L : Ledger) : Option (Vault × Ledger) :=
  match VaultInstruction.codec.tryFromSlice ix.data, ix.accounts with
  | some .combineVault, [vault, outstanding, paying, mint, fractions, redeem, _, authority, payer, pda, price, _] =>
      if authority.isSigner ∧ payer.isSigner then
        (prices price.pubkey).bind fun value => combine
          ⟨vault.pubkey, authority.pubkey, pda.pubkey, price.pubkey, outstanding.pubkey, paying.pubkey, mint.pubkey,
            fractions.pubkey, redeem.pubkey, payer.pubkey⟩ value s L
      else none
  | some (.withdrawTokenFromSafetyDepositBox args),
      [destination, box, store, vault, mint, authority, pda, _, _] =>
      if authority.isSigner then
        withdraw ⟨vault.pubkey, authority.pubkey, pda.pubkey, destination.pubkey, box.pubkey, store.pubkey,
          mint.pubkey⟩ args.amount s L
      else none
  | some .redeemShares, [source, destination, mint, redeem, pda, redeemer, vault, _, _] =>
      if redeemer.isSigner then
        redeemShares ⟨vault.pubkey, pda.pubkey, source.pubkey, destination.pubkey, mint.pubkey, redeem.pubkey,
          redeemer.pubkey⟩ s L
      else none
  | _, _ => none

def processor : VaultProcessor P where
  State := Vault
  vault := id
  process := process

def ids : Programs := ⟨.key 200, .key 201, .key 202⟩

theorem mem_signers {ix : Instruction} {a : AccountMeta} (ha : a ∈ ix.accounts) (hs : a.isSigner = true) :
    a.pubkey ∈ ix.signers := List.mem_map.mpr ⟨a, List.mem_filter.mpr ⟨ha, hs⟩, rfl⟩

theorem protects_of_process {ix : Instruction} {prices : Pubkey → Option Price} {s s' : Vault} {L L' : Ledger}
    (h : process ix prices s L = some (s', L')) :
    Protects (T := P) (fun o => o.isDerived = true ∧ o ∉ ix.signers) L L' := by
  unfold process at h
  split at h
  · rename_i haccounts
    obtain ⟨⟨-, hpayer⟩, h⟩ := Option.ite_none_right_eq_some.mp h
    obtain ⟨value, -, h⟩ := Option.bind_eq_some_iff.mp h
    exact protects_of_combine h fun ho => ho.2 (mem_signers (by simp [haccounts]) hpayer)
  · exact protects_of_withdraw (Option.ite_none_right_eq_some.mp h).2 fun ho => by simp [pda, Pubkey.isDerived] at ho
  · rename_i haccounts
    obtain ⟨hredeemer, h⟩ := Option.ite_none_right_eq_some.mp h
    exact protects_of_redeemShares h (fun ho => ho.2 (mem_signers (by simp [haccounts]) hredeemer))
      fun ho => by simp [pda, Pubkey.isDerived] at ho
  · cases h

theorem restrained : processor.Restrained where
  holds h hderived hunsigned hk :=
    ⟨(protects_of_process h).holds ⟨hderived, hunsigned⟩ hk, (protects_of_process h).gains ⟨hderived, hunsigned⟩ hk⟩
  mints {_ _ _ _ _ _ m} h hmore := absurd hmore (Nat.not_lt.mpr ((protects_of_process h).supply m))

end AuctionProgram.SampleVault

namespace Chain

open Pubkey AuctionProgram

abbrev Concrete := State sampleVault

/-- No `TokenInfo` of this chain passes for a price account. -/
def neverMisread : PriceTracker.TokenInfo → Option Price := fun _ => none

def otherVault : Pubkey := key 102

/-- The tokens of both vaults. -/
def openingLedger : Option SampleVault.Ledger :=
  TokenLedger.ofEntries [(key 0, 1000000000000), (key 1, 100), (key 101, 10), (key 30, 2)]
    [(key 6, ⟨key 0, SampleVault.pda, 0⟩), (key 7, ⟨key 1, SampleVault.pda, 0⟩),
      (key 8, ⟨key 1, SampleVault.pda, 0⟩), (key 106, ⟨key 0, SampleVault.pda, 0⟩),
      (key 107, ⟨key 101, SampleVault.pda, 0⟩), (key 108, ⟨key 101, SampleVault.pda, 0⟩),
      (key 11, ⟨key 0, key 10, 100000000000⟩), (key 21, ⟨key 0, key 20, 100000000000⟩),
      (key 41, ⟨key 0, key 40, 100000000000⟩), (key 71, ⟨key 1, key 70, 60⟩), (key 81, ⟨key 1, key 80, 40⟩),
      (key 171, ⟨key 101, key 70, 10⟩)]

def sampleVaults (v : Pubkey) : Vault :=
  if v = otherVault then ⟨key 101, .authority, key 106, key 103, .active⟩ else ⟨key 1, .authority, key 6, key 3, .active⟩

section Replay

variable {V : VaultProgram SampleVault.P} (vaults : Pubkey → V.State)

/-- The state before anything happens. -/
def opening : Option (State V) := openingLedger.map fun ledger => {
  clock := openingTime
  authority := none
  settings := fun _ => none
  markets := fun _ => none
  vaults := vaults
  auctions := fun _ => none
  bids := fun _ _ => none
  ledger }

theorem opening_genesis : ∀ c ∈ opening vaults, Genesis c := by
  intro c h
  obtain ⟨L, -, rfl⟩ := Option.map_eq_some_iff.mp h
  exact ⟨rfl, fun _ => rfl, fun _ => rfl, fun _ => rfl, fun _ _ => rfl⟩

variable (misread : PriceTracker.TokenInfo → Option Price) (ok : State V → Event → Prop) [∀ c e, Decidable (ok c e)]

/-- The transactions that meet a condition, run. -/
def State.attempt (c : State V) (e : Event) : Option (State V) := if ok c e then c.perform misread e else none

/-- A run of the chain that comes out as computed. -/
theorem run_of_opening (es : List Event) (P : State V → Prop) [DecidablePred P]
    (h : (opening vaults).any (fun c => (es.foldlM (State.attempt misread ok) c).any P) = true) :
    ∃ c₀ c, Genesis c₀ ∧ Lts.Run (Lts.restrict (Step misread) ok) c₀ es c ∧ P c := by
  rw [Option.any_eq_true] at h
  obtain ⟨c₀, hc₀, h⟩ := h
  rw [Option.any_eq_true] at h
  obtain ⟨c, hrun, hP⟩ := h
  refine ⟨c₀, c, opening_genesis vaults c₀ hc₀, Lts.Run.of_exec (fun c e c' hstep => ?_) hrun, of_decide_eq_true hP⟩
  unfold State.attempt at hstep
  split at hstep
  · exact ⟨.of_perform misread hstep, ‹_›⟩
  · cases hstep

end Replay

theorem sample_run (ok : Concrete → Event → Prop) [∀ c e, Decidable (ok c e)] (es : List Event)
    (P : Concrete → Prop) [DecidablePred P]
    (h : (opening (V := sampleVault) sampleVaults).any
      (fun c => (es.foldlM (State.attempt neverMisread ok) c).any P) = true) :
    ∃ c₀ c, Genesis c₀ ∧ Lts.Run (Lts.restrict (Step neverMisread) ok) c₀ es c ∧ P c :=
  run_of_opening sampleVaults neverMisread ok es P h

/-! ## Transactions of the chain -/

/-- Two price accounts, each with votes for more than half of its fractions, and settings of the auction program. -/
def twoMarkets : List Event := [
  .initializeMarket (holder 3) ⟨key 90, key 1, key 0, key 30, holder 9⟩ 10,
  .auction vaultKey (.init ⟨holder 61⟩),
  .market (key 3) (.initUserInfo ⟨key 1, holder 70⟩),
  .initializeMarket (holder 103) ⟨key 190, key 101, key 0, key 30, holder 9⟩ 20,
  .market (key 3) (.addVote ⟨key 90, key 71, key 1, holder 70⟩ 60 10),
  .market (key 103) (.initUserInfo ⟨key 101, holder 70⟩),
  .auction otherVault (.createSettings ⟨key 4, holder 61⟩ 10 2 100000000 100000000),
  .market (key 103) (.addVote ⟨key 190, key 171, key 101, holder 70⟩ 10 20)]

/-- The bidder 20 starts the auction of the other vault. -/
def otherStart : Start where
  settings := key 4
  paymentTreasury := key 150
  bidTokenAccount := key 151
  payingTokenAccount := key 21
  bidder := holder 20
  fractionMint := key 101
  paymentMint := key 0
  externalPricingAccount := key 103
  outstandingFractionsTokenAccount := key 108
  vaultFractionTreasury := key 107
  vaultRedeemTreasury := key 106
  vaultPda := SampleVault.pda

def otherBid : PlaceBid := { bidCall 151 152 41 40 with paymentTreasury := key 150 }

/-- Both auctions, with a bid in each that is outbid. -/
def twoAuctions : List Event := twoMarkets ++ [
  .auction vaultKey (.start startCall 2000 1000), .auction otherVault (.start otherStart 400 200),
  .auction vaultKey (.placeBid (bidCall 51 52 21 20) 3000), .tick lateTime,
  .market (key 3) (.removeVote ⟨key 90, key 71, key 1, holder 70⟩ 25),
  .auction otherVault (.placeBid otherBid 500)]

end Chain

end FractionAuction
