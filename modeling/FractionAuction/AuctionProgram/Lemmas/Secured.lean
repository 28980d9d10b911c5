import FractionAuction.AuctionProgram.Lemmas.Custody

/-!
# Refunds are there

Whoever pays into whatever account, behind a bid that was outbid there are at least its tokens, so its refund is
granted whenever it is asked for.
-/

namespace FractionAuction.AuctionProgram

open Lts

variable {T : TokenProgram Pubkey} {V : VaultProgram T} {v : Pubkey} {w w' : World V} {e : Event}
  {es : List Event}

/-! ## The invariant -/

structure Secured (v : Pubkey) (w : World V) : Prop extends Custody v w where
  secured {a k b} : w.auction = some a → w.bids k = some b → k ≠ a.topBidder →
    b.amount.toNat ≤ T.balance w.ledger b.tokenAccount

theorem Secured.genesis (h : Genesis w) : Secured v w :=
  ⟨Custody.genesis h, fun ha => by simp [h.auction] at ha⟩

/-- A step that leaves the bids and the top bidder alone and takes nothing from the escrows. -/
theorem Secured.congr (hs : Secured v w) (hc : Custody v w') {a : Auction} (ha : w.auction = some a)
    (htop : ∀ a' ∈ w'.auction, a'.topBidder = a.topBidder) (hbids : w'.bids = w.bids)
    (hgain : ∀ k, ∀ b ∈ w.bids k, T.balance w.ledger b.tokenAccount ≤ T.balance w'.ledger b.tokenAccount) :
    Secured v w' := by
  refine ⟨hc, fun {a' k b} ha' hb hne => ?_⟩
  rw [hbids] at hb
  rw [htop a' ha'] at hne
  exact le_trans (hs.secured ha hb hne) (hgain k b hb)

section Instructions

variable (hT : T.Lawful) (hV : V.Lawful)
include hT

theorem Secured.placeBid (hs : Secured v w) {ctx : PlaceBid} {n : UInt64}
    (h : placeBid v w ctx n = .ok w') : Secured v w' := by
  refine ⟨hs.toCustody.placeBid hT h, ?_⟩
  obtain ⟨a, s, top, L, he, rfl⟩ := placeBid_effect h
  have hm := hs.bid_money hT he
  intro a' k b ha' hb hne
  cases ha'
  rcases he.bids hb with ⟨rfl, rfl⟩ | ⟨_, c, hold, _, hamount, htoken⟩
  · exact absurd rfl hne
  · rw [hamount, htoken]
    by_cases hkt : k = a.topBidder
    · -- the bid that was leading is refunded
      subst hkt
      obtain rfl : top = c := Option.some.inj (he.leading.symm.trans hold)
      rw [hm.refund]
      exact Nat.le_add_left _ _
    · have hheld := (hs.bid he.auction hold).2
      have hsame := hm.other hheld (hheld.ne he.payer (Ne.symm (ctx.bidder.key_ne rfl)))
        (hs.apart he.auction hold) (hs.bid_ne he.auction hold he.leading hkt)
      rw [TokenProgram.balance_congr hsame]
      exact hs.secured he.auction hold hkt

theorem Secured.withdrawBid (hs : Secured v w) {ctx : WithdrawBid} {n : UInt64}
    (h : withdrawBid v w ctx = .ok (w', n)) : Secured v w' := by
  refine ⟨hs.toCustody.withdrawBid hT h, ?_⟩
  obtain ⟨a, b, L, he, rfl⟩ := withdrawBid_effect h
  have hm := he.money hT
  intro a' k c ha' hb hne
  obtain rfl : a = a' := Option.some.inj (he.auction.symm.trans ha')
  rcases update_eq_some.mp hb with ⟨_, hnone⟩ | ⟨hk, hold⟩
  · cases hnone
  · have hother : c.tokenAccount ≠ ctx.bidTokenAccount := he.escrow ▸ hs.bid_ne he.auction hold he.bid hk
    exact le_trans (hs.secured he.auction hold hne) (hm.gains hother)

theorem Secured.endAuction (hs : Secured v w) {ctx : End} {f : UInt64}
    (h : endAuction v w ctx = .ok (w', f)) : Secured v w' := by
  have hc := hs.toCustody.endAuction hT h
  obtain ⟨a, s, L, he, rfl⟩ := endAuction_effect h
  refine hs.congr hc he.auction (fun a' ha' => ?_) rfl (fun k b hb => ?_)
  · obtain rfl := Option.some.inj ha'
    rfl
  · exact hT.transfer_balance_ge he.tokens (he.treasury ▸ hs.apart he.auction hb)

include hV

theorem Secured.redeem (hs : Secured v w) {ctx : Redeem} {n p : UInt64}
    (h : redeem v w ctx = .ok (w', n, p)) : Secured v w' := by
  have hc := hs.toCustody.redeem hT hV h
  obtain ⟨a, vault, L, he, rfl⟩ := redeem_effect h
  refine hs.congr hc he.auction (fun a' ha' => ?_) rfl (fun k b hb => ?_)
  · rw [Option.some.inj (he.auction.symm.trans ha')]
  · exact (he.money hT hV).gains rfl (hs.bid he.auction hb).2 (hs.apart he.auction hb)

theorem Secured.start (hs : Secured v w) {ctx : Start} {n r : UInt64}
    (h : start v w ctx n = .ok (w', r)) : Secured v w' := by
  refine ⟨hs.toCustody.start hT hV h, ?_⟩
  obtain ⟨s, vault, L, he, rfl⟩ := start_effect h
  intro a' k b ha' hb hne
  cases ha'
  exact absurd (hs.only_bid he hb).1 hne

theorem Secured.step (hs : Secured v w) (h : Step v w e w') : Secured v w' := by
  have hc := hs.toCustody.step hT hV h
  cases h with
  | init hi =>
      obtain rfl := Init.effect hi
      exact ⟨hc, hs.secured⟩
  | setOwner ho =>
      obtain rfl := SetAuthority.effect ho
      exact ⟨hc, hs.secured⟩
  | createSettings hset =>
      obtain ⟨-, -, rfl⟩ := CreateSettings.effect hset
      exact ⟨hc, hs.secured⟩
  | start hst => exact hs.start hT hV hst
  | placeBid hb => exact hs.placeBid hT hb
  | withdrawBid hw => exact hs.withdrawBid hT hw
  | endAuction hend => exact hs.endAuction hT hend
  | claim hcl =>
      obtain ⟨a, vault, L, he, rfl⟩ := claim_effect hcl
      refine hs.congr hc he.auction (fun a' ha' => ?_) rfl (fun k b hb => ?_)
      · rw [Option.some.inj (he.auction.symm.trans ha')]
      · exact (hV.withdraw_pays he.tokens).gains rfl (hs.bid he.auction hb).2
  | redeem hr => exact hs.redeem hT hV hr
  | tick _ => exact ⟨hc, hs.secured⟩
  | outside ho =>
      refine ⟨hc, ?_⟩
      rw [ho.auction, ho.bids]
      intro a k b ha hb hne
      rw [ho.kept (Pubkey.inAuction_bid v k) (hs.bid ha hb).2]
      exact le_trans (hs.secured ha hb hne) (Nat.le_add_right _ _)

theorem Secured.run {w₀ : World V} (h₀ : Genesis w₀) (h : Run (Step v) w₀ es w) : Secured v w :=
  h.invariant (fun _ _ _ hs hstep => hs.step hT hV hstep) (Secured.genesis h₀)

end Instructions

/-! ## Taking the refunds -/

/-- A refund that can be asked for: the bid of somebody who is not the top bidder, into an account of the payment
mint that is no escrow itself. -/
structure WithdrawBid.Ready (w : World V) (a : Auction) (ctx : WithdrawBid) (b : Bid) : Prop where
  bid : w.bids ctx.bidder.key = some b
  outbid : ctx.bidder.key ≠ a.topBidder
  settings : ctx.settings = a.settings
  escrow : ctx.bidTokenAccount = b.tokenAccount
  target : ∃ o, T.Holds w.ledger ctx.toAccount a.paymentMint o ∧ o.isEscrow = false

/-- The bid of `k`, zero where there is none. -/
def World.owed (w : World V) (k : Pubkey) : ℕ := ((w.bids k).map fun b => b.amount.toNat).getD 0

section Calls

variable (hT : T.Lawful) {a : Auction} {b c : Bid} {ctx ctx' : WithdrawBid} {n : UInt64}

theorem WithdrawBid.Ready.target_ne (hc : Custody v w) (ha : w.auction = some a) (hr : ctx.Ready w a b) {k : Pubkey}
    (hb : w.bids k = some c) : ctx.toAccount ≠ c.tokenAccount := by
  obtain ⟨o, hto, ho⟩ := hr.target
  refine hto.ne (hc.bid ha hb).2 ?_
  rintro rfl
  cases ho

include hT

/-- It is granted. -/
theorem WithdrawBid.Ready.granted (hc : Custody v w) (ha : w.auction = some a) (hr : ctx.Ready w a b) :
    ∃ w' n, AuctionProgram.withdrawBid v w ctx = .ok (w', n) := by
  obtain ⟨s, hset⟩ := hc.settings ha
  obtain ⟨hkey, y, hy⟩ := hc.bid ha hr.bid
  have hne := hr.target_ne hc ha hr.bid
  obtain ⟨o, ⟨z, hz⟩, -⟩ := hr.target
  obtain ⟨L₁, L₂, h₁, h₂⟩ := hT.empty_total hy hz rfl hne.symm
  refine ⟨{ w with ledger := L₂, bids := Function.update w.bids ctx.bidder.key none }, y, ?_⟩
  simp only [AuctionProgram.withdrawBid, WithdrawBid.load, WithdrawBid.handler, World.loadAuction,
    World.loadSettings, loadToken, WithdrawBid.returnFundsToBidder, WithdrawBid.closeBidAccount,
    assertNotTopBidder, Guard.bind_ok_iff, Guard.pure_ok_iff, Guard.ensure_ok_iff, Guard.failIf_ok_iff,
    Guard.okOr_ok_iff, hr.settings, hr.escrow]
  exact ⟨_, ⟨a, ha, s, hset, b, hr.bid, _, hy, _, hz, (), rfl, (), rfl, (), hkey, (), rfl, rfl⟩, (),
    fun h => hr.outbid (hkey.symm.trans h.symm), L₁, h₁, L₂, h₂, rfl⟩

/-- Another refund is still there afterwards. -/
theorem WithdrawBid.Ready.after (hc : Custody v w) (ha : w.auction = some a) (hr : ctx.Ready w a b)
    (h : AuctionProgram.withdrawBid v w ctx' = .ok (w', n)) (hne : ctx.bidder.key ≠ ctx'.bidder.key) :
    ctx.Ready w' a b := by
  obtain ⟨a', c, L, he, rfl⟩ := withdrawBid_effect h
  obtain ⟨o, hto, ho⟩ := hr.target
  refine ⟨(Function.update_of_ne hne _ _).trans hr.bid, hr.outbid, hr.settings, hr.escrow, o, ?_, ho⟩
  exact (he.money hT).holds (he.escrow ▸ hr.target_ne hc ha he.bid) hto

/-- What an account that is no escrow has and gets. -/
theorem WithdrawBid.Ready.pays (hs : Secured v w) (ha : w.auction = some a) (hr : ctx.Ready w a b)
    (h : AuctionProgram.withdrawBid v w ctx = .ok (w', n)) {k m o : Pubkey} (ho : o.isEscrow = false)
    (hk : T.Holds w.ledger k m o) : T.Holds w'.ledger k m o ∧
      T.balance w.ledger k + (if ctx.toAccount = k then w.owed ctx.bidder.key else 0) ≤ T.balance w'.ledger k := by
  have hsecured := hs.secured ha hr.bid hr.outbid
  have hescrow := (hs.bid ha hr.bid).2
  have htarget := hr.target_ne hs.toCustody ha hr.bid
  obtain ⟨a', c, L, he, rfl⟩ := withdrawBid_effect h
  have hm := he.money hT
  have hne : k ≠ ctx.bidTokenAccount := by
    rw [hr.escrow]
    refine hk.ne hescrow ?_
    rintro rfl
    cases ho
  refine ⟨hm.holds hne hk, ?_⟩
  split
  · rename_i hto
    subst hto
    have howed : w.owed ctx.bidder.key = b.amount.toNat := by simp [World.owed, hr.bid]
    rw [hm.paid hne, hm.amount, hr.escrow, howed]
    exact Nat.add_le_add_left hsecured _
  · exact hm.gains hne

end Calls

end FractionAuction.AuctionProgram
