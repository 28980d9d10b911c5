import FractionAuction.AuctionProgram.Lemmas.Secured
import FractionAuction.AuctionProgram.Lemmas.Treasury
import FractionAuction.Chain.Lemmas.Projection

/-!
# Everybody's tokens

All treasuries and all refunds of all auctions at once: each debt has a token account of its own that covers it.
-/

namespace FractionAuction.Chain

open Lts

variable {T : TokenProgram Pubkey} {V : AuctionProgram.VaultProgram T}
  {misread : PriceTracker.TokenInfo → Option AuctionProgram.Price} {c₀ c c' : State V} {es : List Event}

/-! ## Debts -/

/-- The treasury of the auction of `v` until the fee is paid, and the refund of `bidder` there. -/
inductive Debt where
  | treasury (v : Pubkey)
  | refund (v bidder : Pubkey)
deriving DecidableEq

/-- The program-derived address in whose name the tokens are kept. -/
def Debt.owner : Debt → Pubkey
  | .treasury v => .auction v
  | .refund v bidder => .bid bidder (.auction v)

theorem Debt.owner_injective : Function.Injective Debt.owner := by
  intro d d' h
  cases d <;> cases d' <;> simp_all [owner]

structure Due where
  account : Pubkey
  mint : Pubkey
  amount : ℕ

/-- What is due, and where it is kept. The reserve price of an auction went to its vault. -/
def State.due (c : State V) : Debt → Option Due
  | .treasury v => (c.auctions v).bind fun a =>
      if a.feePaid then none
      else some ⟨a.paymentTreasury, a.paymentMint, a.topBid.toNat - a.reservePrice.toNat⟩
  | .refund v bidder => (c.auctions v).bind fun a => (c.bids v bidder).bind fun b =>
      if bidder = a.topBidder then none else some ⟨b.tokenAccount, a.paymentMint, b.amount.toNat⟩

/-! ## They are covered -/

/-- The account of the debt is in its name and holds what is due. -/
def Covers (c : State V) (d : Debt) (x : Due) : Prop :=
  T.Holds c.ledger x.account x.mint d.owner ∧ x.amount ≤ T.balance c.ledger x.account

theorem covers_of_funded {v : Pubkey} {x : Due} (hf : AuctionProgram.Funded v (c.around misread v))
    (hx : c.due (.treasury v) = some x) : Covers c (.treasury v) x := by
  obtain ⟨a, ha, hx⟩ := Option.bind_eq_some_iff.mp hx
  split at hx
  · cases hx
  · rename_i hpaid
    obtain rfl := Option.some.inj hx
    have hunpaid : a.feePaid = false := by simpa using hpaid
    refine ⟨hf.treasury ha hunpaid, ?_⟩
    have hfunded := hf.funded ha hunpaid
    change a.topBid.toNat - a.reservePrice.toNat ≤ T.balance c.ledger a.paymentTreasury
    change a.topBid.toNat ≤ a.reservePrice.toNat + T.balance c.ledger a.paymentTreasury at hfunded
    omega

theorem covers_of_secured {v bidder : Pubkey} {x : Due} (hs : AuctionProgram.Secured v (c.around misread v))
    (hx : c.due (.refund v bidder) = some x) : Covers c (.refund v bidder) x := by
  obtain ⟨a, ha, hx⟩ := Option.bind_eq_some_iff.mp hx
  obtain ⟨b, hb, hx⟩ := Option.bind_eq_some_iff.mp hx
  split at hx
  · cases hx
  · rename_i hne
    obtain rfl := Option.some.inj hx
    exact ⟨(hs.bid ha hb).2, hs.secured ha hb hne⟩

section Runs

variable (hT : T.Lawful) (hV : V.Lawful) (hM : Modest V) (h₀ : Genesis c₀)
include hT hV hM h₀

theorem covered_of_run (h : Run (Step misread) c₀ es c) {d : Debt} {x : Due} (hx : c.due d = some x) :
    Covers c d x := by
  cases d with
  | treasury v =>
      obtain ⟨fs, -, hrun⟩ := around_run hT hM h v
      have hf : AuctionProgram.Funded v (c.around misread v) :=
        hrun.invariant (fun _ _ _ hf hstep => hf.step hT hV hstep) (AuctionProgram.Funded.genesis (h₀.around v))
      exact covers_of_funded hf hx
  | refund v bidder =>
      obtain ⟨fs, -, hrun⟩ := around_run hT hM h v
      exact covers_of_secured (AuctionProgram.Secured.run hT hV (h₀.around v) hrun) hx

end Runs

/-- The accounts of different debts are different. -/
theorem Covers.apart {d d' : Debt} {x x' : Due} (h : Covers c d x) (h' : Covers c d' x')
    (ha : x.account = x'.account) : d = d' := by
  obtain ⟨hk, -⟩ := h
  obtain ⟨hk', -⟩ := h'
  rw [ha] at hk
  exact Debt.owner_injective (hk.unique hk').2

/-! ## Who debits them -/

/-- An account kept for `o` loses nothing in a run in which the programs never sign for `o`. -/
theorem keeps_of_run (hT : T.Lawful) (hM : Modest V) (h : Run (Step misread) c es c') {k m o : Pubkey}
    (ho : o.isHolder = true) (hk : T.Holds c.ledger k m o) (hno : ∀ e ∈ es, ¬ e.Debits o) :
    T.Holds c'.ledger k m o ∧ T.balance c.ledger k ≤ T.balance c'.ledger k := by
  induction h with
  | nil => exact ⟨hk, le_rfl⟩
  | snoc _ hstep ih =>
      obtain ⟨hheld, hle⟩ := ih fun e he => hno e (List.mem_append_left _ he)
      obtain ⟨hheld', hle'⟩ :=
        hstep.keeps hT hM ho (hno _ (List.mem_append_right _ (List.mem_singleton_self _))) hheld
      exact ⟨hheld', le_trans hle hle'⟩

theorem debited_of_run (hT : T.Lawful) (hM : Modest V) (h : Run (Step misread) c es c') {k m o : Pubkey}
    (ho : o.isHolder = true) (hk : T.Holds c.ledger k m o)
    (htaken : ¬ T.Holds c'.ledger k m o ∨ T.balance c'.ledger k < T.balance c.ledger k) : ∃ e ∈ es, e.Debits o := by
  by_contra hno
  push Not at hno
  obtain ⟨hheld, hle⟩ := keeps_of_run hT hM h ho hk hno
  rcases htaken with hlost | hlt
  · exact hlost hheld
  · exact absurd hle (Nat.not_le.mpr hlt)

end FractionAuction.Chain
