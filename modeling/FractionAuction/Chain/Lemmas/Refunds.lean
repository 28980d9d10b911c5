import FractionAuction.AuctionProgram.Lemmas.Secured
import FractionAuction.Chain.Lemmas.Projection

/-!
# Taking all refunds

Refunds do not get in each other's way, at one vault or at several, so any number of them can be taken in any order.
-/

namespace FractionAuction.Chain

open AuctionProgram (Secured WithdrawBid)
open Lts

variable {T : TokenProgram Pubkey} {V : AuctionProgram.VaultProgram T}
  {misread : PriceTracker.TokenInfo → Option AuctionProgram.Price} {c₀ c c' : State V} {es : List Event}

/-- A refund asked for at a vault. -/
structure Refund where
  vault : Pubkey
  call : WithdrawBid

/-- Whose bid is asked for, and where. -/
def Refund.bid (x : Refund) : Pubkey × Pubkey := (x.vault, x.call.bidder.key)

/-- It can be asked for now. -/
def Refund.Ready (misread : PriceTracker.TokenInfo → Option AuctionProgram.Price) (c : State V) (x : Refund) : Prop :=
  ∃ a b, c.auctions x.vault = some a ∧ x.call.Ready (c.around misread x.vault) a b

/-- The bid of `k` at `v`, zero where there is none. -/
def State.owed (c : State V) (v k : Pubkey) : ℕ := ((c.bids v k).map fun b => b.amount.toNat).getD 0

/-- What the refunds `xs` come to in the account `k`. -/
def State.refunded (c : State V) (xs : List Refund) (k : Pubkey) : ℕ :=
  (xs.map fun x => if x.call.toAccount = k then c.owed x.vault x.call.bidder.key else 0).sum

theorem State.refunded_cons (c : State V) (x : Refund) (xs : List Refund) (k : Pubkey) : c.refunded (x :: xs) k =
    (if x.call.toAccount = k then c.owed x.vault x.call.bidder.key else 0) + c.refunded xs k := by
  rw [refunded, List.map_cons, List.sum_cons, refunded]

/-! ## One refund -/

section One

variable {v : Pubkey} {ctx : WithdrawBid} {w : AuctionProgram.World V} {n : UInt64}

/-- Another refund can still be asked for afterwards. -/
theorem Refund.Ready.after (hT : T.Lawful) {x : Refund} (hs : Secured x.vault (c.around misread x.vault))
    (hr : x.Ready misread c) (h : AuctionProgram.withdrawBid v (c.around misread v) ctx = .ok (w, n))
    (hne : x.bid ≠ (v, ctx.bidder.key)) : x.Ready misread (c.put v w) := by
  obtain ⟨a, b, ha, hready⟩ := hr
  obtain ⟨a', b', L, he, rfl⟩ := AuctionProgram.withdrawBid_effect h
  by_cases hv : x.vault = v
  · subst hv
    have hbidder : x.call.bidder.key ≠ ctx.bidder.key := fun heq => hne (by rw [Refund.bid, heq])
    refine ⟨a, b, (Function.update_self _ _ _).trans ha, ?_⟩
    rw [around_put_self rfl rfl]
    exact hready.after hT hs.toCustody ha h hbidder
  · -- a refund at one vault only debits in the name of its own bid
    obtain ⟨o, htarget, ho⟩ := hready.target
    have hprotects : TokenProgram.Protects (fun o' => o' = o) c.ledger L :=
      protects_of_withdrawBid hT h fun heq => by
        subst heq
        cases ho
    refine ⟨a, b, (Function.update_of_ne hv _ _).trans ha, ?_⟩
    rw [around_put_ne hv]
    exact ⟨hready.bid, hready.outbid, hready.settings, hready.escrow, o, hprotects.holds rfl htarget, ho⟩

/-- The other bids stay. -/
theorem bids_after (h : AuctionProgram.withdrawBid v (c.around misread v) ctx = .ok (w, n)) (u k : Pubkey) :
    (c.put v w).bids u k = if (u, k) = (v, ctx.bidder.key) then none else c.bids u k := by
  obtain ⟨a, b, L, he, rfl⟩ := AuctionProgram.withdrawBid_effect h
  by_cases hu : u = v
  · subst hu
    by_cases hk : k = ctx.bidder.key
    · subst hk
      simp [State.put]
    · simp [State.put, State.around, hk]
  · simp [State.put, hu]

end One

/-! ## All of them -/

/-- What is left to do of the refunds `xs`: those in `rest` can still be asked for, the bids of the others are gone,
and no account is behind on what it gets. -/
structure Refunding (misread : PriceTracker.TokenInfo → Option AuctionProgram.Price) (c₀ : State V) (xs rest : List Refund)
    (c : State V) : Prop where
  secured v : Secured v (c.around misread v)
  distinct : (rest.map Refund.bid).Nodup
  ready {x} : x ∈ rest → x.Ready misread c ∧ c.bids x.vault x.call.bidder.key = c₀.bids x.vault x.call.bidder.key
  taken {x} : x ∈ xs → x ∈ rest ∨ c.bids x.vault x.call.bidder.key = none
  paid {k m o} : o.isEscrow = false → T.Holds c₀.ledger k m o → T.Holds c.ledger k m o ∧
    T.balance c₀.ledger k + c₀.refunded xs k ≤ T.balance c.ledger k + c₀.refunded rest k

theorem Refunding.next (hT : T.Lawful) (hV : V.Lawful) (hM : Modest V) {x : Refund} {xs rest : List Refund}
    (hr : Refunding misread c₀ xs (x :: rest) c) : ∃ e c', (∃ n, e = Event.auction x.vault (.withdrawBid x.call n)) ∧
      Step misread c e c' ∧ Refunding misread c₀ xs rest c' := by
  obtain ⟨⟨a, b, ha, hready⟩, hbid⟩ := hr.ready List.mem_cons_self
  obtain ⟨w, n, h⟩ := hready.granted hT (hr.secured x.vault).toCustody ha
  have hstep : Step misread c (.auction x.vault (.withdrawBid x.call n)) (c.put x.vault w) :=
    .auction trivial (.withdrawBid h)
  have hdistinct := hr.distinct
  rw [List.map_cons, List.nodup_cons] at hdistinct
  have hother {y : Refund} (hy : y ∈ rest) : y.bid ≠ x.bid := fun heq => hdistinct.1 (heq ▸ List.mem_map_of_mem hy)
  refine ⟨_, _, ⟨n, rfl⟩, hstep, fun v => ?_, hdistinct.2, fun {y} hy => ?_, fun {y} hy => ?_, fun {k m o} ho hk => ?_⟩
  · obtain ⟨f, -, hseen⟩ := hstep.seenFrom hT hM v
    exact (hr.secured v).step hT hV hseen
  · obtain ⟨hyready, hybid⟩ := hr.ready (List.mem_cons_of_mem _ hy)
    refine ⟨hyready.after hT (hr.secured y.vault) h (hother hy), ?_⟩
    rw [bids_after h]
    exact (if_neg (hother hy)).trans hybid
  · rw [bids_after h]
    split
    · exact .inr rfl
    · rename_i hne
      refine (hr.taken hy).imp_left fun hmem => ?_
      rcases List.mem_cons.mp hmem with rfl | hrest
      · exact absurd rfl hne
      · exact hrest
  · obtain ⟨hheld, hle⟩ := hr.paid ho hk
    obtain ⟨hheld', hgain⟩ := hready.pays hT (hr.secured x.vault) ha h ho hheld
    have howed : (c.around misread x.vault).owed x.call.bidder.key = c₀.owed x.vault x.call.bidder.key := by
      rw [State.owed, ← hbid]
      rfl
    rw [howed] at hgain
    rw [State.refunded_cons] at hle
    refine ⟨hheld', ?_⟩
    change T.balance c.ledger k + _ ≤ T.balance w.ledger k at hgain
    change _ ≤ T.balance w.ledger k + _
    omega

/-- All of them are granted, one after another. -/
theorem refunds_granted (hT : T.Lawful) (hV : V.Lawful) (hM : Modest V) (h₀ : Genesis c₀)
    (h : Run (Step misread) c₀ es c) {xs : List Refund} (hdistinct : (xs.map Refund.bid).Nodup)
    (hready : ∀ x ∈ xs, x.Ready misread c) :
    ∃ fs c', List.Forall₂ (fun x e => ∃ n, e = Event.auction x.vault (.withdrawBid x.call n)) xs fs ∧
      Run (Step misread) c fs c' ∧ Refunding misread c xs [] c' := by
  have hsecured (v : Pubkey) : Secured v (c.around misread v) := by
    obtain ⟨fs, -, hrun⟩ := around_run hT hM h v
    exact Secured.run hT hV (h₀.around v) hrun
  have hstart : Refunding misread c xs xs c := {
    secured := hsecured
    distinct := hdistinct
    ready := fun hx => ⟨hready _ hx, rfl⟩
    taken := fun hx => .inl hx
    paid := fun _ hk => ⟨hk, le_rfl⟩ }
  exact Run.schedule (fun _ _ _ hr => hr.next hT hV hM) hstart

end FractionAuction.Chain
