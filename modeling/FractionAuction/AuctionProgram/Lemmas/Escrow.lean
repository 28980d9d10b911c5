import FractionAuction.AuctionProgram.Lemmas.Custody
import FractionAuction.Library.OpenBidding

/-!
# The escrows

The token account of the leading bid is empty, that of every other bid holds its refund. With this the program
refines the book of an open auction.
-/

namespace FractionAuction.AuctionProgram

open Lts OpenBidding

variable {T : TokenProgram Pubkey} {V : VaultProgram T} {v : Pubkey} {w w' : World V} {e : Event}
  {es : List Event}

/-- No payout goes into the token account of a bid. -/
def SparesBids (w : World V) (e : Event) : Prop := ∀ k, ∀ b ∈ w.bids k, e.Spares b.tokenAccount

structure Escrowed (v : Pubkey) (w : World V) : Prop extends Custody v w where
  escrow {a k b} : w.auction = some a → w.bids k = some b →
    T.balance w.ledger b.tokenAccount = if k = a.topBidder then 0 else b.amount.toNat

/-! ## Steps -/

/-- A step that leaves the bids, the bidders and their accounts alone. -/
theorem Escrowed.congr (he : Escrowed v w) (hc : Custody v w') {a : Auction} (ha : w.auction = some a)
    (htop : ∀ a' ∈ w'.auction, a'.topBidder = a.topBidder) (hbids : ∀ k, ∀ b ∈ w'.bids k, w.bids k = some b)
    (hbal : ∀ k, ∀ b ∈ w'.bids k, T.balance w'.ledger b.tokenAccount = T.balance w.ledger b.tokenAccount) :
    Escrowed v w' := by
  refine ⟨hc, fun ha' hb => ?_⟩
  rw [hbal _ _ hb, he.escrow ha (hbids _ _ hb), htop _ ha']

section Instructions

variable (hT : T.Lawful) (hV : V.Lawful)
include hT

theorem Escrowed.placeBid (hs : Escrowed v w) {ctx : PlaceBid} {n : UInt64}
    (h : placeBid v w ctx n = .ok w') : Escrowed v w' := by
  refine ⟨hs.toCustody.placeBid hT h, ?_⟩
  obtain ⟨a, s, top, L, he, rfl⟩ := placeBid_effect h
  have hm := hs.bid_money hT he
  intro a' k b ha' hb
  cases ha'
  rcases he.bids hb with ⟨rfl, rfl⟩ | ⟨hk, c, hold, _, hamount, htoken⟩
  · exact hm.escrow_balance.trans (if_pos rfl).symm
  · have hnot : k ≠ (a.outbid s w.clock ctx.bidder.key n).topBidder := hk
    have hbefore := hs.escrow he.auction hold
    rw [if_neg hnot, hamount, htoken]
    by_cases hkt : k = a.topBidder
    · -- the bid that was leading is refunded
      subst hkt
      obtain rfl : top = c := Option.some.inj (he.leading.symm.trans hold)
      have hrefund := hm.refund
      rw [if_pos rfl] at hbefore
      rwa [hbefore, Nat.zero_add] at hrefund
    · have hheld := (hs.bid he.auction hold).2
      have hsame := hm.other hheld (hheld.ne he.payer (Ne.symm (ctx.bidder.key_ne rfl)))
        (hs.apart he.auction hold) (hs.bid_ne he.auction hold he.leading hkt)
      rw [if_neg hkt] at hbefore
      rw [TokenProgram.balance_congr hsame, hbefore]

theorem Escrowed.withdrawBid (hs : Escrowed v w) {ctx : WithdrawBid} {n : UInt64}
    (h : withdrawBid v w ctx = .ok (w', n)) (hspare : SparesBids w (.withdrawBid ctx n)) : Escrowed v w' := by
  have hc := hs.toCustody.withdrawBid hT h
  obtain ⟨a, b, L, he, rfl⟩ := withdrawBid_effect h
  have hm := he.money hT
  have hleft (k : Pubkey) (c : Bid) (hb : Function.update w.bids ctx.bidder.key none k = some c) :
      k ≠ ctx.bidder.key ∧ w.bids k = some c := by
    rcases update_eq_some.mp hb with ⟨_, hnone⟩ | hold
    · cases hnone
    · exact hold
  refine hs.congr hc he.auction (fun a' ha' => ?_) (fun k c hb => (hleft k c hb).2) (fun k c hb => ?_)
  · rw [Option.some.inj (he.auction.symm.trans ha')]
  · obtain ⟨hk, hb'⟩ := hleft k c hb
    have hne : c.tokenAccount ≠ ctx.bidTokenAccount := he.escrow ▸ hs.bid_ne he.auction hb' he.bid hk
    exact TokenProgram.balance_congr (hm.other hne (Ne.symm (hspare k c hb')))

theorem Escrowed.endAuction (hs : Escrowed v w) {ctx : End} {f : UInt64}
    (h : endAuction v w ctx = .ok (w', f)) (hspare : SparesBids w (.endAuction ctx f)) : Escrowed v w' := by
  have hc := hs.toCustody.endAuction hT h
  obtain ⟨a, s, L, he, rfl⟩ := endAuction_effect h
  refine hs.congr hc he.auction (fun a' ha' => ?_) (fun _ _ hb => hb) (fun k b hb => ?_)
  · obtain rfl := Option.some.inj ha'
    rfl
  · have hne : b.tokenAccount ≠ ctx.paymentTreasury := he.treasury ▸ hs.apart he.auction hb
    exact hT.transfer_balance_other he.tokens hne (Ne.symm (hspare k b hb))

include hV

theorem Escrowed.redeem (hs : Escrowed v w) {ctx : Redeem} {n p : UInt64}
    (h : redeem v w ctx = .ok (w', n, p)) (hspare : SparesBids w (.redeem ctx n p)) : Escrowed v w' := by
  have hc := hs.toCustody.redeem hT hV h
  obtain ⟨a, vault, L, he, rfl⟩ := redeem_effect h
  have hm := he.money hT hV
  refine hs.congr hc he.auction (fun a' ha' => ?_) (fun _ _ hb => hb) (fun k b hb => ?_)
  · rw [Option.some.inj (he.auction.symm.trans ha')]
  · exact TokenProgram.balance_congr (hm.other rfl (hs.bid he.auction hb).2 (hs.apart he.auction hb)
      (Ne.symm (hspare k b hb)))

theorem Escrowed.start (hs : Escrowed v w) {ctx : Start} {n r : UInt64}
    (h : start v w ctx n = .ok (w', r)) : Escrowed v w' := by
  refine ⟨hs.toCustody.start hT hV h, ?_⟩
  obtain ⟨s, vault, L, he, rfl⟩ := start_effect h
  have hm := he.money hT hV
  intro a' k b ha' hb
  cases ha'
  obtain ⟨rfl, rfl⟩ := hs.only_bid he hb
  exact hm.escrow_balance.trans (if_pos rfl).symm

theorem Escrowed.step (hs : Escrowed v w) (h : restrict (Step v) SparesBids w e w') : Escrowed v w' := by
  obtain ⟨hstep, hspare⟩ := h
  have hc := hs.toCustody.step hT hV hstep
  cases hstep with
  | init hi =>
      obtain rfl := Init.effect hi
      exact ⟨hc, hs.escrow⟩
  | setOwner ho =>
      obtain rfl := SetAuthority.effect ho
      exact ⟨hc, hs.escrow⟩
  | createSettings hset =>
      obtain ⟨-, -, rfl⟩ := CreateSettings.effect hset
      exact ⟨hc, hs.escrow⟩
  | start hst => exact hs.start hT hV hst
  | placeBid hb => exact hs.placeBid hT hb
  | withdrawBid hw => exact hs.withdrawBid hT hw hspare
  | endAuction hend => exact hs.endAuction hT hend hspare
  | claim hcl =>
      obtain ⟨a, vault, L, he, rfl⟩ := claim_effect hcl
      have hpays := hV.withdraw_pays he.tokens
      refine ⟨hc, fun {a' k b} ha' hb => ?_⟩
      have hsame := hpays.other rfl (hs.bid ha' hb).2 (Ne.symm (hspare k b hb))
      rw [TokenProgram.balance_congr hsame]
      exact hs.escrow ha' hb
  | redeem hr => exact hs.redeem hT hV hr hspare
  | tick _ => exact ⟨hc, hs.escrow⟩
  | outside ho =>
      refine ⟨hc, ?_⟩
      rw [ho.auction, ho.bids]
      intro a k b ha hb
      have hzero := hspare k b hb
      simp only [Event.Spares] at hzero
      rw [ho.kept (Pubkey.inAuction_bid v k) (hs.bid ha hb).2, hzero, Nat.add_zero]
      exact hs.escrow ha hb

end Instructions

theorem Escrowed.genesis (h : Genesis w) : Escrowed v w :=
  ⟨Custody.genesis h, fun ha => by simp [h.auction] at ha⟩

/-! ## The book -/

/-- The state as an open auction sees it. -/
def World.book (w : World V) : Book Pubkey where
  leader := w.auction.map fun a => (a.topBidder, a.topBid.toNat)
  owed k := if w.auction.map Auction.topBidder = some k then none
    else (w.bids k).map fun b => b.amount.toNat

def Event.moves : Event → List (Move Pubkey)
  | .start ctx n _ => [.bid ctx.bidder.key n.toNat]
  | .placeBid ctx n => [.bid ctx.bidder.key n.toNat]
  | .withdrawBid ctx n => [.withdraw ctx.bidder.key n.toNat]
  | _ => []

theorem World.book_congr (hleader : w'.auction.map (fun a => (a.topBidder, a.topBid.toNat)) =
      w.auction.map fun a => (a.topBidder, a.topBid.toNat))
    (htop : w'.auction.map Auction.topBidder = w.auction.map Auction.topBidder) (hb : w'.bids = w.bids) :
    w'.book = w.book := by
  simp only [World.book, hleader, htop, hb]

theorem Custody.book_start (hc : Custody v w) {ctx : Start} {n r : UInt64}
    (h : AuctionProgram.start v w ctx n = .ok (w', r)) :
    OpenBidding.Step w.book (.bid ctx.bidder.key n.toNat) w'.book := by
  obtain ⟨s, vault, L, he, rfl⟩ := start_effect h
  have hleader : w.book.leader = none := by simp [World.book, he.fresh]
  have howed (k : Pubkey) : w.book.owed k = none := by simp [World.book, he.fresh, hc.no_bids]
  have hstep := OpenBidding.Step.first (n := n.toNat) hleader (howed ctx.bidder.key)
  convert hstep using 1
  simp only [World.book, Book.mk.injEq, Option.map_some, Option.some.injEq]
  refine ⟨rfl, funext fun k => ?_⟩
  by_cases hk : ctx.bidder.key = k
  · simp [Start.opened, hk, he.fresh, hc.no_bids]
  · simp [Start.opened, hk, he.fresh, Function.update_of_ne (Ne.symm hk)]

theorem Custody.book_placeBid (hc : Custody v w) {ctx : PlaceBid} {n : UInt64}
    (h : AuctionProgram.placeBid v w ctx n = .ok w') :
    OpenBidding.Step w.book (.bid ctx.bidder.key n.toNat) w'.book := by
  obtain ⟨a, s, top, L, he, rfl⟩ := placeBid_effect h
  have hleader : w.book.leader = some (a.topBidder, a.topBid.toNat) := by simp [World.book, he.auction]
  have howed : w.book.owed ctx.bidder.key = none := by simp [World.book, he.bidder]
  have hne : ctx.bidder.key ≠ a.topBidder := by
    intro heq
    cases (heq ▸ he.bidder).symm.trans he.leading
  obtain ⟨top', htop', hamount⟩ := hc.top he.auction
  obtain rfl : top = top' := Option.some.inj (he.leading.symm.trans htop')
  have hstep := OpenBidding.Step.outbid (n := n.toNat) hleader hne howed
  convert hstep using 1
  simp only [World.book, Book.mk.injEq, Option.map_some, Option.some.injEq, he.auction]
  refine ⟨rfl, funext fun k => ?_⟩
  by_cases hk : ctx.bidder.key = k
  · subst hk
    simp [Auction.outbid, hne, he.bidder]
  · by_cases hkt : a.topBidder = k
    · subst hkt
      simp [Auction.outbid, hk, Function.update_of_ne (Ne.symm hk), hamount]
    · simp [Auction.outbid, hk, hkt, Function.update_of_ne (Ne.symm hk), Function.update_of_ne (Ne.symm hkt)]

theorem Escrowed.book_withdrawBid (hs : Escrowed v w) (hT : T.Lawful) {ctx : WithdrawBid} {n : UInt64}
    (h : AuctionProgram.withdrawBid v w ctx = .ok (w', n)) :
    OpenBidding.Step w.book (.withdraw ctx.bidder.key n.toNat) w'.book := by
  obtain ⟨a, b, L, he, rfl⟩ := withdrawBid_effect h
  have hamount : n.toNat = b.amount.toNat := by
    rw [(he.money hT).amount, ← he.escrow, hs.escrow he.auction he.bid, if_neg he.not_top]
  have howed : w.book.owed ctx.bidder.key = some n.toNat := by
    simp [World.book, he.auction, he.bid, Ne.symm he.not_top, hamount]
  have hstep := OpenBidding.Step.withdraw howed
  convert hstep using 1
  simp only [World.book, Book.mk.injEq, true_and]
  funext k
  by_cases hk : k = ctx.bidder.key
  · subst hk
    simp
  · simp [Function.update_of_ne hk]

theorem World.book_unmoved (h : w'.book = w.book) : Run OpenBidding.Step w.book [] w'.book := by
  rw [h]
  exact .nil

theorem Escrowed.refines (hT : T.Lawful) (hs : Escrowed v w) (h : AuctionProgram.Step v w e w') :
    Run OpenBidding.Step w.book e.moves w'.book := by
  cases h with
  | init hi =>
      obtain rfl := Init.effect hi
      exact .nil
  | setOwner ho =>
      obtain rfl := SetAuthority.effect ho
      exact .nil
  | createSettings hset =>
      obtain ⟨-, -, rfl⟩ := CreateSettings.effect hset
      exact .nil
  | start hst => exact .single (hs.book_start hst)
  | placeBid hb => exact .single (hs.book_placeBid hb)
  | withdrawBid hw => exact .single (hs.book_withdrawBid hT hw)
  | endAuction hend =>
      obtain ⟨a, s, L, he, rfl⟩ := endAuction_effect hend
      exact World.book_unmoved (World.book_congr (by simp [he.auction]) (by simp [he.auction]) rfl)
  | claim hcl =>
      obtain ⟨a, vault, L, he, rfl⟩ := claim_effect hcl
      exact .nil
  | redeem hr =>
      obtain ⟨a, vault, L, he, rfl⟩ := redeem_effect hr
      exact .nil
  | tick _ => exact .nil
  | outside ho =>
      exact World.book_unmoved (World.book_congr (by rw [ho.auction]) (by rw [ho.auction]) ho.bids)

/-- A run of the program is a run of the open auction. -/
theorem Escrowed.run (hT : T.Lawful) (hV : V.Lawful) {w₀ : World V} (h₀ : Genesis w₀)
    (h : Run (restrict (AuctionProgram.Step v) SparesBids) w₀ es w) :
    Escrowed v w ∧ Run OpenBidding.Step w₀.book (es.flatMap Event.moves) w.book := by
  obtain ⟨B, hB, rfl, hs⟩ := h.simulate (R := fun w B => B = w.book ∧ Escrowed v w) Event.moves
    (fun u e u' B hR hstep => ⟨u'.book, hR.1 ▸ hR.2.refines hT hstep.1, rfl, hR.2.step hT hV hstep⟩)
    ⟨rfl, Escrowed.genesis h₀⟩
  exact ⟨hs, hB⟩

/-! ## Paid in and returned -/

def Event.paidIn (k : Pubkey) : Event → ℕ
  | .start ctx n _ => if ctx.bidder.key = k then n.toNat else 0
  | .placeBid ctx n => if ctx.bidder.key = k then n.toNat else 0
  | _ => 0

def Event.returned (k : Pubkey) : Event → ℕ
  | .withdrawBid ctx n => if ctx.bidder.key = k then n.toNat else 0
  | _ => 0

/-- What is kept for `k`: the escrow of a bid that was outbid, or the top bid. -/
def World.kept (w : World V) (k : Pubkey) : ℕ :=
  match w.auction, w.bids k with
  | some a, some b => if k = a.topBidder then a.topBid.toNat else T.balance w.ledger b.tokenAccount
  | _, _ => 0

theorem sum_moves {f : Move Pubkey → ℕ} {g : Event → ℕ} (hfg : ∀ e : Event, (e.moves.map f).sum = g e)
    (es : List Event) : ((es.flatMap Event.moves).map f).sum = (es.map g).sum := by
  induction es with
  | nil => rfl
  | cons e es ih =>
      rw [List.flatMap_cons, List.map_append, List.sum_append, hfg, ih, List.map_cons, List.sum_cons]

theorem Escrowed.kept_eq (hs : Escrowed v w) (k : Pubkey) : w.book.kept k = w.kept k := by
  unfold Book.kept World.kept World.book
  cases ha : w.auction with
  | none => simp [hs.no_bids ha]
  | some a =>
      obtain ⟨top, htop, -⟩ := hs.top ha
      by_cases hk : k = a.topBidder
      · subst hk
        simp [htop]
      · cases hb : w.bids k with
        | none => simp [hb, Ne.symm hk]
        | some b =>
            have hbal := hs.escrow ha hb
            rw [if_neg hk] at hbal
            simp [hb, hk, Ne.symm hk, hbal]

theorem ledger_balances (hT : T.Lawful) (hV : V.Lawful) {w₀ : World V} (h₀ : Genesis w₀)
    (h : Run (restrict (AuctionProgram.Step v) SparesBids) w₀ es w) (k : Pubkey) :
    (es.map (Event.paidIn k)).sum = (es.map (Event.returned k)).sum + w.kept k := by
  obtain ⟨hs, hbook⟩ := Escrowed.run hT hV h₀ h
  have hsound : w₀.book.Sound := by
    intro l m hl
    simp [World.book, h₀.auction] at hl
  have hkept := (run_kept hsound hbook k).2
  have hnone : w₀.book.kept k = 0 := by simp [Book.kept, World.book, h₀.auction, h₀.bids]
  have hpaid := sum_moves (f := Move.paidIn k) (g := Event.paidIn k)
    (fun e => by cases e <;> simp [Event.moves, Event.paidIn, Move.paidIn]) es
  have hreturned := sum_moves (f := Move.returned k) (g := Event.returned k)
    (fun e => by cases e <;> simp [Event.moves, Event.returned, Move.returned]) es
  rw [hs.kept_eq, hnone, hpaid, hreturned] at hkept
  omega

/-! ## A refund can be taken -/

theorem Escrowed.withdraws (hs : Escrowed v w) (hT : T.Lawful) {a : Auction} {b : Bid} {ctx : WithdrawBid}
    {o : Pubkey} (ha : w.auction = some a) (hb : w.bids ctx.bidder.key = some b)
    (hnot : ctx.bidder.key ≠ a.topBidder) (hsettings : ctx.settings = a.settings)
    (hescrow : ctx.bidTokenAccount = b.tokenAccount)
    (hto : T.Holds w.ledger ctx.toAccount a.paymentMint o) (hne : ctx.toAccount ≠ b.tokenAccount) :
    ∃ w', AuctionProgram.withdrawBid v w ctx = .ok (w', b.amount) := by
  obtain ⟨s, hset⟩ := hs.settings ha
  obtain ⟨hkey, hold⟩ := hs.bid ha hb
  obtain ⟨n, hn⟩ := hold
  obtain ⟨m, hm⟩ := hto
  -- the escrow holds the bid, so it can be emptied
  have hbal := hs.escrow ha hb
  rw [if_neg hnot, TokenProgram.balance_of_account hn] at hbal
  obtain rfl : n = b.amount := UInt64.toNat_inj.mp hbal
  obtain ⟨L₁, L, h₁, hL⟩ := hT.empty_total hn hm rfl hne.symm
  refine ⟨{ w with ledger := L, bids := Function.update w.bids ctx.bidder.key none }, ?_⟩
  simp only [AuctionProgram.withdrawBid, WithdrawBid.load, WithdrawBid.handler, World.loadAuction,
    World.loadSettings, loadToken, WithdrawBid.returnFundsToBidder, WithdrawBid.closeBidAccount,
    assertNotTopBidder, Guard.bind_ok_iff, Guard.pure_ok_iff, Guard.ensure_ok_iff, Guard.failIf_ok_iff,
    Guard.okOr_ok_iff, hsettings, hescrow]
  exact ⟨_, ⟨a, ha, s, hset, b, hb, _, hn, _, hm, (), rfl, (), rfl, (), hkey, (), rfl, rfl⟩, (),
    fun h => hnot (hkey.symm.trans h.symm), L₁, h₁, L, hL, rfl⟩

/-! ## Refunds -/

/-- What the bidders are owed, and what their calls move. -/
structure Refunds (v : Pubkey) (es : List Event) (w : World V) : Prop where
  /-- The bid of the top bidder has been paid into the treasury, not into its escrow. -/
  top {a} : w.auction = some a → ∃ b, w.bids a.topBidder = some b ∧ b.bidder = a.topBidder ∧
    b.amount = a.topBid ∧ T.balance w.ledger b.tokenAccount = 0
  outbid {a k b} : w.auction = some a → w.bids k = some b → k ≠ a.topBidder →
    b.bidder = k ∧ T.balance w.ledger b.tokenAccount = b.amount.toNat
  ledger k : (es.map (Event.paidIn k)).sum = (es.map (Event.returned k)).sum + w.kept k
  debited {ctx n w'} : placeBid v w ctx n = .ok w' →
    T.balance w'.ledger ctx.payingTokenAccount + n.toNat = T.balance w.ledger ctx.payingTokenAccount
  started {ctx n r w'} : start v w ctx n = .ok (w', r) →
    T.balance w'.ledger ctx.payingTokenAccount + n.toNat = T.balance w.ledger ctx.payingTokenAccount
  returned {ctx n w'} : withdrawBid v w ctx = .ok (w', n) → ∃ a b, w.auction = some a ∧
    w.bids ctx.bidder.key = some b ∧ ctx.bidder.key ≠ a.topBidder ∧ n = b.amount ∧
    (ctx.toAccount ≠ b.tokenAccount →
      T.balance w'.ledger ctx.toAccount = T.balance w.ledger ctx.toAccount + n.toNat)
  available {a b ctx o} : w.auction = some a → w.bids ctx.bidder.key = some b → ctx.bidder.key ≠ a.topBidder →
    ctx.settings = a.settings → ctx.bidTokenAccount = b.tokenAccount →
    T.Holds w.ledger ctx.toAccount a.paymentMint o → ctx.toAccount ≠ b.tokenAccount →
    ∃ w', withdrawBid v w ctx = .ok (w', b.amount)

theorem Escrowed.returns (hs : Escrowed v w) (hT : T.Lawful) {ctx : WithdrawBid} {n : UInt64}
    (h : AuctionProgram.withdrawBid v w ctx = .ok (w', n)) : ∃ a b, w.auction = some a ∧
      w.bids ctx.bidder.key = some b ∧ ctx.bidder.key ≠ a.topBidder ∧ n = b.amount ∧
      (ctx.toAccount ≠ b.tokenAccount →
        T.balance w'.ledger ctx.toAccount = T.balance w.ledger ctx.toAccount + n.toNat) := by
  obtain ⟨a, b, L, he, rfl⟩ := withdrawBid_effect h
  have hm := he.money hT
  have hamount : n.toNat = b.amount.toNat := by
    rw [hm.amount, ← he.escrow, hs.escrow he.auction he.bid, if_neg he.not_top]
  refine ⟨a, b, he.auction, he.bid, he.not_top, UInt64.toNat_inj.mp hamount, fun hne => ?_⟩
  exact hm.paid (he.escrow ▸ hne)

theorem Refunds.run (hT : T.Lawful) (hV : V.Lawful) {w₀ : World V} (h₀ : Genesis w₀)
    (h : Run (restrict (AuctionProgram.Step v) SparesBids) w₀ es w) : Refunds v es w := by
  have hs := (Escrowed.run hT hV h₀ h).1
  constructor
  case top =>
    intro a ha
    obtain ⟨b, hb, hamount⟩ := hs.top ha
    have hempty := hs.escrow ha hb
    rw [if_pos rfl] at hempty
    exact ⟨b, hb, (hs.bid ha hb).1, hamount, hempty⟩
  case outbid =>
    intro a k b ha hb hk
    have hheld := hs.escrow ha hb
    rw [if_neg hk] at hheld
    exact ⟨(hs.bid ha hb).1, hheld⟩
  case ledger => exact ledger_balances hT hV h₀ h
  case debited =>
    intro ctx n w' hb
    obtain ⟨a, s, top, L, he, rfl⟩ := placeBid_effect hb
    exact (hs.bid_money hT he).paid
  case started =>
    intro ctx n r w' hst
    obtain ⟨s, vault, L, he, rfl⟩ := start_effect hst
    exact (he.money hT hV).paid
  case returned => exact hs.returns hT
  case available => exact hs.withdraws hT

end FractionAuction.AuctionProgram
