import FractionAuction.AuctionProgram.System
import FractionAuction.Library.TokenLedger

/-!
# A vault program

A vault in the sense of `VaultProgram`, over the ledger of tokens, whose fractions are all in circulation. It
shows that `VaultProgram.Lawful` can be met.
-/

namespace FractionAuction.AuctionProgram

namespace SampleVault

abbrev Ledger := TokenLedger Pubkey

/-- The authority of the vault's own token accounts. -/
def pda : Pubkey := .key 5

def balanceOf (k : Pubkey) (L : Ledger) : Option UInt64 := (L.accounts.lookup k).map TokenAccount.amount

/-- Charges the price of all fractions. Accounts that could hold fractions out of circulation are empty. -/
def combine (ctx : Combine) (price : Price) (vault : Vault) (L : Ledger) : Option (Vault × Ledger) :=
  if vault.state = .active ∧ vault.authority = ctx.vaultAuthority ∧ vault.fractionMint = ctx.fractionMint ∧
      vault.redeemTreasury = ctx.redeemTreasury ∧ vault.pricingLookupAddress = ctx.externalPricingAccount ∧
      price.allowedToCombine ∧ balanceOf ctx.outstandingShareTokenAccount L = some 0 ∧
      balanceOf ctx.fractionTreasury L = some 0 ∧
      ((L.accounts.lookup ctx.redeemTreasury).map TokenAccount.owner) = some pda then
    (L.mints.lookup ctx.fractionMint).bind fun supply =>
      (FixedPoint.checkedMul64 price.pricePerShare supply).bind fun charge =>
        (L.transfer ctx.payingTokenAccount ctx.redeemTreasury ctx.payer charge).map fun L =>
          ({ vault with state := .combined }, L)
  else none

/-- Hands out what the vault locks. -/
def withdraw (ctx : Withdraw) (n : UInt64) (vault : Vault) (L : Ledger) : Option (Vault × Ledger) :=
  if vault.state = .combined ∧ vault.authority = ctx.vaultAuthority then
    (L.transfer ctx.lockedTokenAccount ctx.destinationTokenAccount pda n).map fun L => (vault, L)
  else none

/-- Burns the source and pays its share of the redeem treasury. -/
def redeemShares (ctx : RedeemShares) (vault : Vault) (L : Ledger) : Option (Vault × Ledger) :=
  if vault.state = .combined ∧ vault.fractionMint = ctx.fractionMint ∧
      vault.redeemTreasury = ctx.redeemTreasury then
    (L.accounts.lookup ctx.srcAccount).bind fun source =>
      (L.mints.lookup ctx.fractionMint).bind fun supply =>
        (balanceOf ctx.redeemTreasury L).bind fun treasury =>
          (FixedPoint.mulDiv treasury source.amount supply).bind fun proceeds =>
            if source.mint = ctx.fractionMint then
              (L.burn ctx.srcAccount ctx.redeemer source.amount).bind fun L =>
                (L.transfer ctx.redeemTreasury ctx.destAccount pda proceeds).map fun L => (vault, L)
            else none
  else none

end SampleVault

def sampleVault : VaultProgram (TokenLedger.program Pubkey) where
  State := Vault
  vault := id
  combine := SampleVault.combine
  withdraw := SampleVault.withdraw
  redeemShares := SampleVault.redeemShares

namespace SampleVault

open TokenProgram

abbrev P : TokenProgram Pubkey := TokenLedger.program Pubkey

/-! ## What the calls come down to -/

theorem combine_eq_some {ctx : Combine} {price : Price} {s s' : Vault} {L L' : Ledger}
    (h : combine ctx price s L = some (s', L')) : ∃ charge treasury,
    L.accounts.lookup ctx.redeemTreasury = some treasury ∧ treasury.owner = pda ∧
      L.transfer ctx.payingTokenAccount ctx.redeemTreasury ctx.payer charge = some L' ∧
      s' = { s with state := .combined } := by
  unfold combine at h
  split at h
  · rename_i hc
    obtain ⟨-, -, -, -, -, -, -, -, howner⟩ := hc
    obtain ⟨treasury, ht, ho⟩ := Option.map_eq_some_iff.mp howner
    simp only [Option.bind_eq_some_iff, Option.map_eq_some_iff, Prod.mk.injEq] at h
    obtain ⟨_, -, charge, -, _, htransfer, rfl, rfl⟩ := h
    exact ⟨charge, treasury, ht, ho, htransfer, rfl⟩
  · cases h

theorem withdraw_eq_some {ctx : Withdraw} {n : UInt64} {s s' : Vault} {L L' : Ledger}
    (h : withdraw ctx n s L = some (s', L')) :
    L.transfer ctx.lockedTokenAccount ctx.destinationTokenAccount pda n = some L' ∧ s' = s := by
  unfold withdraw at h
  split at h
  · simp only [Option.map_eq_some_iff, Prod.mk.injEq] at h
    obtain ⟨_, htransfer, rfl, rfl⟩ := h
    exact ⟨htransfer, rfl⟩
  · cases h

theorem redeemShares_eq_some {ctx : RedeemShares} {s s' : Vault} {L L' : Ledger}
    (h : redeemShares ctx s L = some (s', L')) : ∃ source L₁ proceeds,
    L.accounts.lookup ctx.srcAccount = some source ∧ source.mint = ctx.fractionMint ∧
      L.burn ctx.srcAccount ctx.redeemer source.amount = some L₁ ∧
      L₁.transfer ctx.redeemTreasury ctx.destAccount pda proceeds = some L' ∧ s' = s := by
  unfold redeemShares at h
  split at h
  · simp only [Option.bind_eq_some_iff] at h
    obtain ⟨source, hs, _, -, _, -, proceeds, -, h⟩ := h
    split at h
    · rename_i hm
      simp only [Option.bind_eq_some_iff, Option.map_eq_some_iff, Prod.mk.injEq] at h
      obtain ⟨L₁, hburn, _, htransfer, rfl, rfl⟩ := h
      exact ⟨source, L₁, proceeds, hs, hm, hburn, htransfer, rfl⟩
    · cases h
  · cases h

theorem transfer_paysTo {src dst o : Pubkey} {n : UInt64} {L L' : Ledger} (ho : o.isEscrow = false)
    (h : L.transfer src dst o n = some L') : VaultProgram.PaysTo (T := P) L L' dst := by
  have hT : P.Lawful := TokenLedger.program_lawful
  have h' : P.transfer src dst o n L = some L' := h
  obtain ⟨m, _, hsrc, -⟩ := hT.transfer_source h'
  have hne {k m o'} (ho' : o'.isEscrow = true) (hk : P.Holds L k m o') : k ≠ src := by
    refine hk.ne hsrc ?_
    rintro rfl
    simp [ho] at ho'
  exact {
    nowhere_else := fun {k} hk => by
      by_cases hs : k = src
      · subst hs
        have := hT.transfer_balance_source h' hk
        omega
      · exact le_of_eq (hT.transfer_balance_other h' hs hk)
    holds := fun _ hk => (hT.transfer_holds h').mpr hk
    other := fun ho' hk hd => hT.transfer_other h' (hne ho' hk) hd
    gains := fun ho' hk => hT.transfer_balance_ge h' (hne ho' hk) }

/-! ## Burning -/

section Burn

variable {k o : Pubkey} {n : UInt64} {L L₁ : Ledger}

theorem burn_other (h : L.burn k o n = some L₁) {l : Pubkey} (hl : l ≠ k) :
    P.account L₁ l = P.account L l := by
  obtain ⟨_, _, _, _, _, _, _, haccounts, _⟩ := TokenLedger.burn_eq_some h
  change L₁.accounts.lookup l = L.accounts.lookup l
  rw [haccounts, AList.lookup_insert_ne hl]

theorem burn_holds (h : L.burn k o n = some L₁) {l m o' : Pubkey} :
    P.Holds L₁ l m o' ↔ P.Holds L l m o' := by
  by_cases hl : l = k
  · subst hl
    obtain ⟨⟨mint, owner, amount⟩, _, ha, _, _, _, _, haccounts, _⟩ := TokenLedger.burn_eq_some h
    have ha' : P.account L l = some ⟨mint, owner, amount⟩ := ha
    have hself : P.account L₁ l = some ⟨mint, owner, amount - n⟩ := by
      change L₁.accounts.lookup l = _
      rw [haccounts, AList.lookup_insert]
    simp [Holds, ha', hself]
  · exact Holds.congr (burn_other h hl)

theorem burn_balance_le (h : L.burn k o n = some L₁) (l : Pubkey) : P.balance L₁ l ≤ P.balance L l := by
  by_cases hl : l = k
  · subst hl
    obtain ⟨a, _, ha, _, _, hn, _, haccounts, _⟩ := TokenLedger.burn_eq_some h
    have ha' : P.account L l = some a := ha
    have hself : P.account L₁ l = some { a with amount := a.amount - n } := by
      change L₁.accounts.lookup l = _
      rw [haccounts, AList.lookup_insert]
    rw [balance_of_account ha', balance_of_account hself]
    dsimp only
    rw [FixedPoint.toNat_sub_of_le (UInt64.le_iff_toNat_le.mp hn)]
    exact Nat.sub_le _ _
  · exact le_of_eq (balance_congr (burn_other h hl))

theorem burn_owner (h : L.burn k o n = some L₁) : ∃ m, P.Holds L k m o := by
  obtain ⟨a, _, ha, _, ho, _⟩ := TokenLedger.burn_eq_some h
  exact ⟨a.mint, ho ▸ holds_of_account (T := P) ha⟩

end Burn

/-! ## The vault is lawful -/

theorem redeemShares_paysTo {ctx : RedeemShares} {s s' : Vault} {L L' : Ledger}
    (h : redeemShares ctx s L = some (s', L')) (hr : ctx.redeemer.isEscrow = false) :
    VaultProgram.PaysTo (T := P) L L' ctx.destAccount := by
  obtain ⟨source, L₁, proceeds, -, -, hburn, htransfer, -⟩ := redeemShares_eq_some h
  have hpays := transfer_paysTo rfl htransfer
  obtain ⟨m, hsource⟩ := burn_owner hburn
  have hne {k m' o : Pubkey} (ho : o.isEscrow = true) (hk : P.Holds L k m' o) : k ≠ ctx.srcAccount := by
    refine hk.ne hsource ?_
    rintro rfl
    simp [hr] at ho
  exact {
    nowhere_else := fun hk => le_trans (hpays.nowhere_else hk) (burn_balance_le hburn _)
    holds := fun ho hk => hpays.holds ho ((burn_holds hburn).mpr hk)
    other := fun ho hk hd =>
      (hpays.other ho ((burn_holds hburn).mpr hk) hd).trans (burn_other hburn (hne ho hk))
    gains := fun ho hk => by
      have hsame : P.balance L₁ _ = P.balance L _ := balance_congr (burn_other hburn (hne ho hk))
      rw [← hsame]
      exact hpays.gains ho ((burn_holds hburn).mpr hk) }

theorem lawful : sampleVault.Lawful where
  combine_mints h := by
    obtain ⟨_, _, _, _, _, rfl⟩ := combine_eq_some h
    exact ⟨rfl, rfl⟩
  combine_payer {ctx price s s' L L' m o} h hold := by
    obtain ⟨charge, _, _, _, htransfer, _⟩ := combine_eq_some h
    have hT : P.Lawful := TokenLedger.program_lawful
    have h' : P.transfer ctx.payingTokenAccount ctx.redeemTreasury ctx.payer charge L = some L' := htransfer
    refine ⟨(hT.transfer_holds h').mpr hold, ?_⟩
    by_cases hne : ctx.payingTokenAccount = ctx.redeemTreasury
    · rw [← hne] at h'
      exact le_of_eq (balance_congr (congrFun (hT.transfer_self h') _))
    · have hsource := hT.transfer_balance_source h' hne
      change P.balance L' ctx.payingTokenAccount ≤ P.balance L ctx.payingTokenAccount
      omega
  combine_escrow {ctx price s s' L L' k m o} h hpayer ho hold := by
    obtain ⟨_, treasury, ht, howner, htransfer, _⟩ := combine_eq_some h
    have hne : k ≠ ctx.redeemTreasury := by
      refine hold.ne (holds_of_account (T := P) ht) ?_
      rw [howner]
      rintro rfl
      cases ho
    exact (transfer_paysTo hpayer htransfer).other ho hold hne
  withdraw_mints {ctx n s s' L L'} h := by
    obtain ⟨htransfer, rfl⟩ := withdraw_eq_some h
    exact ⟨rfl, rfl, TokenLedger.program_lawful.transfer_supply htransfer⟩
  withdraw_pays h := transfer_paysTo rfl (withdraw_eq_some h).1
  redeem_mints h := by
    obtain ⟨_, _, _, _, _, _, _, rfl⟩ := redeemShares_eq_some h
    exact ⟨rfl, rfl⟩
  redeem_burns {ctx s s' L L' a n} h ha hn := by
    obtain ⟨source, L₁, proceeds, hs, hm, hburn, htransfer, -⟩ := redeemShares_eq_some h
    obtain rfl : source = a := Option.some.inj (hs.symm.trans ha)
    obtain ⟨a', supply, ha', hsupply, -, -, hle, -, hmints⟩ := TokenLedger.burn_eq_some hburn
    obtain rfl : source = a' := Option.some.inj (hs.symm.trans ha')
    have hn' : L.mints.lookup ctx.fractionMint = some n := hn
    rw [hm] at hsupply hmints
    obtain rfl : supply = n := Option.some.inj (hsupply.symm.trans hn')
    refine ⟨hle, ?_⟩
    rw [TokenLedger.program_lawful.transfer_supply htransfer]
    change L₁.mints.lookup _ = _
    rw [hmints, AList.lookup_insert]
  redeem_holds h := by
    obtain ⟨source, L₁, proceeds, -, -, hburn, htransfer, -⟩ := redeemShares_eq_some h
    exact (TokenLedger.program_lawful.transfer_holds htransfer).trans (burn_holds hburn)
  redeem_pays h hr := redeemShares_paysTo h hr

end SampleVault

/-! ## A small market

Payments are in the mint 0 and fractions in the mint 1. The vault at 2 is priced by the account 3, keeps its
payments at 6 and an item of the mint 30 at 9. The bidders 10, 20 and 40 have purses, the owner 61 has the
account 60, and 70 and 80 hold the fractions. -/

section Market

open Pubkey

abbrev Concrete := World sampleVault

def vaultKey : Pubkey := key 2

def holder (n : ℕ) : Signer := ⟨key n, rfl⟩

/-- The tokens before anything happens, with the fractions of the two holders. -/
def openingLedger (left right : UInt64) : Option SampleVault.Ledger :=
  TokenLedger.ofEntries [(key 0, 1000000000000), (key 1, left + right), (key 30, 1)]
    [(key 6, ⟨key 0, SampleVault.pda, 0⟩), (key 7, ⟨key 1, SampleVault.pda, 0⟩),
      (key 8, ⟨key 1, SampleVault.pda, 0⟩), (key 9, ⟨key 30, SampleVault.pda, 1⟩),
      (key 11, ⟨key 0, key 10, 100000000000⟩), (key 21, ⟨key 0, key 20, 100000000000⟩),
      (key 41, ⟨key 0, key 40, 100000000000⟩), (key 12, ⟨key 30, key 10, 0⟩), (key 60, ⟨key 0, key 61, 0⟩),
      (key 71, ⟨key 1, key 70, left⟩), (key 72, ⟨key 0, key 70, 0⟩),
      (key 81, ⟨key 1, key 80, right⟩), (key 82, ⟨key 0, key 80, 0⟩)]

/-- The state before anything happens. -/
def World.initial (pricePerShare : UInt64) (ledger : SampleVault.Ledger) : Concrete where
  clock := 10
  authority := none
  settings := fun _ => none
  prices := Function.update (fun _ => none) (key 3) (some ⟨pricePerShare, key 0, true⟩)
  vault := (⟨key 1, .authority, key 6, key 3, .active⟩ : Vault)
  auction := none
  bids := fun _ => none
  ledger := ledger

def opening (pricePerShare left right : UInt64) : Option Concrete :=
  (openingLedger left right).map (World.initial pricePerShare)

theorem opening_genesis {p l r : UInt64} : ∀ w ∈ opening p l r, Genesis w := by
  intro w h
  obtain ⟨L, -, rfl⟩ : ∃ L, openingLedger l r = some L ∧ World.initial p L = w := Option.map_eq_some_iff.mp h
  exact ⟨rfl, fun _ => rfl, rfl, fun _ => rfl⟩

/-- A run of the market that comes out as computed. -/
theorem market_run (p l r : UInt64) (ok : Concrete → Event → Prop) [∀ w e, Decidable (ok w e)] (es : List Event)
    (P : Concrete → Prop) [DecidablePred P]
    (h : (opening p l r).any (fun w => (es.foldlM (World.attempt vaultKey ok) w).any P) = true) :
    ∃ w₀ w, Genesis w₀ ∧ Lts.Run (Lts.restrict (Step vaultKey) ok) w₀ es w ∧ P w := by
  rw [Option.any_eq_true] at h
  obtain ⟨w₀, hw₀, h⟩ := h
  obtain ⟨w, hrun, hP⟩ := run_of_attempts vaultKey ok h
  exact ⟨w₀, w, opening_genesis w₀ hw₀, hrun, hP⟩

/-! ## Calls in the market -/

def openingTime : Clock := 10

def closingTime : Clock := 30

/-- A time within the soft-close period of an auction that started at once. -/
def lateTime : Clock := 19

/-- The program is set up with settings at 4, whose auctions last ten seconds. -/
def setUp (bidIncrement facilitatorFee : UInt64) : List Event :=
  [.init ⟨holder 61⟩, .createSettings ⟨key 4, holder 61⟩ 10 2 bidIncrement facilitatorFee]

/-- The bidder 10 starts the auction with the treasury 50 and the escrow 51. -/
def startCall : Start where
  settings := key 4
  paymentTreasury := key 50
  bidTokenAccount := key 51
  payingTokenAccount := key 11
  bidder := holder 10
  fractionMint := key 1
  paymentMint := key 0
  externalPricingAccount := key 3
  outstandingFractionsTokenAccount := key 8
  vaultFractionTreasury := key 7
  vaultRedeemTreasury := key 6
  vaultPda := SampleVault.pda

/-- The holder of the purse `purse` bids with the escrow `escrow` over the bid in the escrow `top`. -/
def bidCall (top escrow purse bidder : ℕ) : PlaceBid where
  settings := key 4
  paymentTreasury := key 50
  topBidTokenAccount := key top
  bidTokenAccount := key escrow
  paymentMint := key 0
  payingTokenAccount := key purse
  bidder := holder bidder

def withdrawCall (escrow target bidder : ℕ) : WithdrawBid := ⟨key 4, key escrow, key target, holder bidder⟩

def endCall : End := ⟨key 4, key 50, key 60⟩

def claimCall : Claim := ⟨key 4, key 12, holder 10, key 9, key 31, SampleVault.pda, key 1⟩

def redeemCall (source target redeemer : ℕ) : Redeem where
  settings := key 4
  paymentTreasury := key 50
  redeemTreasury := key 6
  sourceTokenAccount := key source
  destinationTokenAccount := key target
  fractionMint := key 1
  vaultPda := SampleVault.pda
  redeemer := holder redeemer

end Market

end FractionAuction.AuctionProgram
