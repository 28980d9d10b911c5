import FractionAuction.AuctionProgram.Lemmas.Closing
import FractionAuction.AuctionProgram.Lemmas.Escrow
import FractionAuction.AuctionProgram.Lemmas.Outcome
import FractionAuction.AuctionProgram.Lemmas.Treasury
import FractionAuction.AuctionProgram.SampleVault

/-!
# Theorems about bids, refunds and fees
-/

namespace FractionAuction.AuctionProgram

open Lts Pubkey

variable {T : TokenProgram Pubkey} {V : VaultProgram T} {v : Pubkey} {w₀ w : World V} {es : List Event}

/-! ## The fee -/

/-- While the minimum of each bid is what it should be, the fee of the top bid never exceeds the treasury, and
the reserve price is left after it. -/
theorem fee_covered (hT : T.Lawful) (hV : V.Lawful) (h₀ : Genesis w₀)
    (h : Run (restrict (Step v) KeepsReserve) w₀ es w) {a : Auction} (ha : w.auction = some a)
    (hpaid : a.feePaid = false) : FeeCovered v w a :=
  (Grossed.run hT hV h₀ h).covers hT ha hpaid

/-- A reserve price of 20 with a fee of a tenth, and two bids. -/
def feeRun : List Event :=
  setUp 100000000 100000000 ++ [.start startCall 100 20, .placeBid (bidCall 51 52 21 20) 200]

theorem fee_covered_tenth : ∃ (w₀ w : Concrete) (a : Auction), Genesis w₀ ∧
    Run (restrict (Step vaultKey) KeepsReserve) w₀ feeRun w ∧ w.auction = some a ∧ a.topBid = 200 ∧
      FeeCovered vaultKey w a := by
  obtain ⟨w₀, w, h₀, h, a, ha, hbid, hpaid⟩ := market_run 10 1 1 KeepsReserve feeRun
    (fun w => ∃ a ∈ w.auction, a.topBid = 200 ∧ a.feePaid = false) (by decide +kernel)
  exact ⟨w₀, w, a, h₀, h, ha, hbid,
    fee_covered TokenLedger.program_lawful SampleVault.lawful h₀ h ha hpaid⟩

/-- A start at the reserve price, under a fee that leaves one part in 10^9. -/
def truncatedRun : List Event :=
  setUp 100000000 999999999 ++ [.start startCall 18446744074 18446744074, .tick closingTime]

/-- The minimum of `start` is cut to 64 bits, so the bid passes although it leaves nothing in the treasury, and
the auction can never be ended. -/
theorem fee_not_covered : ∃ (w₀ w : Concrete) (a : Auction), Genesis w₀ ∧
    Run (Step vaultKey) w₀ truncatedRun w ∧ w.auction = some a ∧ a.feePaid = false ∧
      calculateFee a.topBid 999999999 = .ok 18446744055 ∧
      (TokenLedger.program Pubkey).balance w.ledger a.paymentTreasury = 0 ∧
      (endAuction vaultKey w endCall).toOption.isNone ∧ ¬ FeeCovered vaultKey w a := by
  obtain ⟨w₀, w, h₀, h, ⟨a, ha, hpaid, hset, hbid, hbal⟩, hend⟩ := market_run 18446744074 1 0 (fun _ _ => True)
    truncatedRun (fun w => (∃ a ∈ w.auction, a.feePaid = false ∧
      (w.settings a.settings).map Settings.facilitatorFee = some 999999999 ∧ a.topBid = 18446744074 ∧
      (TokenLedger.program Pubkey).balance w.ledger a.paymentTreasury = 0) ∧
        (endAuction vaultKey w endCall).toOption.isNone) (by decide +kernel)
  have hfee : calculateFee a.topBid 999999999 = .ok 18446744055 := by
    rw [hbid, calculateFee_ok]
    rfl
  refine ⟨w₀, w, a, h₀, h.of_restrict, ha, hpaid, hfee, hbal, hend, ?_⟩
  rintro ⟨s, f, hs, hf, hle, -⟩
  rw [hs, Option.map_some, Option.some.injEq] at hset
  rw [hset, hfee, Except.ok.injEq] at hf
  rw [← hf, hbal] at hle
  exact absurd hle (by decide)

/-! ## Conservation -/

/-- As long as no payout names the treasury, the top bid is the reserve price, what is in the treasury, and the
fee and payments that left it. A start debits the bidder by the bid and never wraps. -/
theorem winning_bid_conserved (hT : T.Lawful) (hV : V.Lawful) (h₀ : Genesis w₀)
    (h : Run (restrict (Step v) SparesTreasury) w₀ es w) :
    (∀ a, w.auction = some a → a.reservePrice.toNat + T.balance w.ledger a.paymentTreasury
      + (es.map Event.fee).sum + (es.map Event.payment).sum = a.topBid.toNat) ∧
    ∀ ctx n r w', start v w ctx n = .ok (w', r) → (n - r).toNat + r.toNat = n.toNat ∧
      T.balance w'.ledger ctx.payingTokenAccount + n.toNat = T.balance w.ledger ctx.payingTokenAccount := by
  refine ⟨fun a ha => (Conserved.run hT hV h₀ h).conserved ha, fun ctx n r w' hs => ?_⟩
  obtain ⟨s, vault, L, he, rfl⟩ := start_effect hs
  have hm := he.money hT hV
  refine ⟨?_, hm.paid⟩
  rw [FixedPoint.toNat_sub_of_le hm.reserve_le]
  exact Nat.sub_add_cancel hm.reserve_le

/-- A refund, a second bid of its bidder, the end and a redemption. -/
def wholeRun : List Event :=
  setUp 100000000 100000000 ++ [.start startCall 100 20, .placeBid (bidCall 51 52 21 20) 200,
    .withdrawBid (withdrawCall 51 11 10) 100, .placeBid (bidCall 52 53 11 10) 300, .tick closingTime,
    .claim claimCall 1, .endAuction endCall 30, .redeem (redeemCall 71 72 70) 1 125]

theorem winning_bid_conserved_whole : ∃ (w₀ w : Concrete) (a : Auction), Genesis w₀ ∧
    Run (restrict (Step vaultKey) SparesTreasury) w₀ wholeRun w ∧ w.auction = some a ∧ a.topBid = 300 ∧
      a.reservePrice.toNat + (TokenLedger.program Pubkey).balance w.ledger a.paymentTreasury
        + (wholeRun.map Event.fee).sum + (wholeRun.map Event.payment).sum = a.topBid.toNat := by
  obtain ⟨w₀, w, h₀, h, a, ha, hbid⟩ := market_run 10 1 1 SparesTreasury wholeRun
    (fun w => ∃ a ∈ w.auction, a.topBid = 300) (by decide +kernel)
  exact ⟨w₀, w, a, h₀, h, ha, hbid,
    (winning_bid_conserved TokenLedger.program_lawful SampleVault.lawful h₀ h).1 a ha⟩

def refundToTreasury : List Event :=
  setUp 100000000 0 ++ [.start startCall 100 20, .placeBid (bidCall 51 52 21 20) 200,
    .withdrawBid (withdrawCall 51 50 10) 100]

/-- A bidder may have the refund paid into the treasury, of which only the mint is checked. -/
theorem winning_bid_exceeded : ∃ (w₀ w : Concrete) (a : Auction), Genesis w₀ ∧
    Run (Step vaultKey) w₀ refundToTreasury w ∧ w.auction = some a ∧ a.topBid = 200 ∧ a.reservePrice = 20 ∧
      (TokenLedger.program Pubkey).balance w.ledger a.paymentTreasury = 280 ∧
      a.reservePrice.toNat + (TokenLedger.program Pubkey).balance w.ledger a.paymentTreasury
        + (refundToTreasury.map Event.fee).sum + (refundToTreasury.map Event.payment).sum ≠ a.topBid.toNat := by
  obtain ⟨w₀, w, h₀, h, a, ha, hw⟩ := market_run 10 1 1 (fun _ _ => True) refundToTreasury
    (fun w => ∃ a ∈ w.auction, a.topBid = 200 ∧ a.reservePrice = 20 ∧
      (TokenLedger.program Pubkey).balance w.ledger a.paymentTreasury = 280 ∧
      a.reservePrice.toNat + (TokenLedger.program Pubkey).balance w.ledger a.paymentTreasury
        + (refundToTreasury.map Event.fee).sum + (refundToTreasury.map Event.payment).sum ≠ a.topBid.toNat)
    (by decide +kernel)
  exact ⟨w₀, w, a, h₀, h.of_restrict, ha, hw⟩

/-! ## Refunds -/

/-- As long as no payout names the token account of a bid, everybody who was outbid gets the whole bid back,
once. -/
theorem bidders_refunded (hT : T.Lawful) (hV : V.Lawful) (h₀ : Genesis w₀)
    (h : Run (restrict (Step v) SparesBids) w₀ es w) : Refunds v es w :=
  Refunds.run hT hV h₀ h

/-- Nothing is paid to an account that the caller names. -/
def Event.isQuiet : Event → Bool
  | .init _ | .setOwner _ _ | .createSettings _ _ _ _ _ | .start _ _ _ | .placeBid _ _ | .tick _ => true
  | .withdrawBid _ _ | .endAuction _ _ | .claim _ _ | .redeem _ _ _ | .outside _ => false

theorem Event.spares_of_quiet {e : Event} (h : e.isQuiet = true) (k : Pubkey) : e.Spares k := by
  cases e with
  | init _ | setOwner _ _ | createSettings _ _ _ _ _ | start _ _ _ | placeBid _ _ | tick _ => trivial
  | withdrawBid _ _ | endAuction _ _ | claim _ _ | redeem _ _ _ | outside _ => cases h

def threeBids : List Event :=
  setUp 100000000 0 ++ [.start startCall 100 20, .placeBid (bidCall 51 52 21 20) 200,
    .placeBid (bidCall 52 53 41 40) 300]

theorem bidders_refunded_three : ∃ w₀ w : Concrete, Genesis w₀ ∧
    Run (restrict (Step vaultKey) SparesBids) w₀ threeBids w ∧ w.kept (key 10) = 100 ∧
      w.kept (key 20) = 200 ∧ w.kept (key 40) = 300 ∧ Refunds vaultKey threeBids w := by
  obtain ⟨w₀, w, h₀, h, hkept⟩ := market_run 10 1 1 (fun _ e => e.isQuiet = true) threeBids
    (fun w => w.kept (key 10) = 100 ∧ w.kept (key 20) = 200 ∧ w.kept (key 40) = 300) (by decide +kernel)
  have hspares : Run (restrict (Step vaultKey) SparesBids) w₀ threeBids w :=
    h.mono fun _ _ _ hstep => ⟨hstep.1, fun _ _ _ => Event.spares_of_quiet hstep.2 _⟩
  exact ⟨w₀, w, h₀, hspares, hkept.1, hkept.2.1, hkept.2.2,
    bidders_refunded TokenLedger.program_lawful SampleVault.lawful h₀ hspares⟩

/-- The first bidder has the refund paid into the token account of the second bid. -/
def crossedRefund : List Event := threeBids ++ [.withdrawBid (withdrawCall 51 52 10) 100]

theorem refund_crossed : ∃ w₀ w : Concrete, Genesis w₀ ∧ Run (Step vaultKey) w₀ crossedRefund w ∧
    (crossedRefund.map (Event.paidIn (key 20))).sum = 200 ∧
      (crossedRefund.map (Event.returned (key 20))).sum = 0 ∧ w.kept (key 20) = 300 ∧
      ¬ Refunds vaultKey crossedRefund w := by
  obtain ⟨w₀, w, h₀, h, hin, hout, hkept⟩ := market_run 10 1 1 (fun _ _ => True) crossedRefund
    (fun w => (crossedRefund.map (Event.paidIn (key 20))).sum = 200 ∧
      (crossedRefund.map (Event.returned (key 20))).sum = 0 ∧ w.kept (key 20) = 300) (by decide +kernel)
  refine ⟨w₀, w, h₀, h.of_restrict, hin, hout, hkept, fun hr => ?_⟩
  have := hr.ledger (key 20)
  rw [hin, hout, hkept] at this
  exact absurd this (by decide)

/-! ## Rising bids -/

/-- The bids that pass the check are above the top bid and its increment exactly if there is an increment and
the sum does not wrap. Along such calls the accepted bids rise, from the minimum of `start` to the top bid. -/
theorem bids_rise (h₀ : Genesis w₀) (h : Run (restrict (Step v) Raises) w₀ es w) :
    (∀ t i, (∀ b, assertSufficientBid b t i = .ok () → t < b ∧ t.toNat + increment t i ≤ b.toNat) ↔
      1 ≤ increment t i ∧ t.toNat + increment t i < 2 ^ 64) ∧
    (∀ before u ctx n u' after, Passage (restrict (Step v) Raises) w₀ es w before u (.placeBid ctx n) u' after →
      ∃ a s, u.auction = some a ∧ u.settings a.settings = some s ∧ a.topBid < n ∧
        a.topBid.toNat + increment a.topBid s.bidIncrement ≤ n.toNat) ∧
    (bids es).Pairwise (fun x y => x.2 < y.2) ∧
    (∀ a, w.auction = some a → (bids es).getLast? = some (a.topBidder, a.topBid) ∧
      ∀ s m, w.settings a.settings = some s →
        calculateMinimumStartingBid a.reservePrice s.facilitatorFee = .ok m → m ≤ a.topBid) := by
  have hr := Rising.run h₀ h
  refine ⟨sufficient_iff, fun _ _ _ _ _ _ hp => raised_of_step hp.taken, hr.sorted, fun a ha => ?_⟩
  exact ⟨(Told.run h₀ h.of_restrict).bid ha, fun _ _ => hr.minimum ha⟩

theorem bids_rise_three : ∃ w₀ w : Concrete, Genesis w₀ ∧
    Run (restrict (Step vaultKey) Raises) w₀ threeBids w ∧
      (bids threeBids).Pairwise (fun x y => x.2 < y.2) := by
  obtain ⟨w₀, w, h₀, h, -⟩ := market_run 10 1 1 Raises threeBids (fun _ => True) (by decide +kernel)
  exact ⟨w₀, w, h₀, h, (bids_rise h₀ h).2.2.1⟩

def equalBids : List Event :=
  setUp 100000000 0 ++ [.start startCall 5 2, .placeBid (bidCall 51 52 21 20) 5]

/-- A tenth of 5 is rounded down to nothing, so a bid equal to the top bid takes the lead. -/
theorem bids_do_not_rise : ∃ (w₀ w : Concrete) (a : Auction), Genesis w₀ ∧
    Run (Step vaultKey) w₀ equalBids w ∧ w.auction = some a ∧ a.topBidder = key 20 ∧
      bids equalBids = [(key 10, 5), (key 20, 5)] ∧ ¬ (bids equalBids).Pairwise (fun x y => x.2 < y.2) := by
  obtain ⟨w₀, w, h₀, h, a, ha, hw⟩ := market_run 1 1 1 (fun _ _ => True) equalBids
    (fun w => ∃ a ∈ w.auction, a.topBidder = key 20 ∧ bids equalBids = [(key 10, 5), (key 20, 5)] ∧
      ¬ (bids equalBids).Pairwise (fun x y => x.2 < y.2)) (by decide +kernel)
  exact ⟨w₀, w, a, h₀, h.of_restrict, ha, hw⟩

/-! ## The closing time -/

/-- Along calls whose period fits a word after the present time, an auction closes after its start, the closing time
only moves later, and every bid leaves the soft-close period. From whatever state, exactly such calls do so. -/
theorem closing_time_later :
    (∀ (w₀ w : World V) es before u e u' after,
      Passage (restrict (Step v) PeriodFits) w₀ es w before u e u' after → ClosesLater u e u' ∧ StaysOpen u w) ∧
    ∀ (u u' : World V) (e : Event), Step v u e u' → (ClosesLater u e u' ↔ PeriodFits u e) := by
  refine ⟨?_, fun _ _ _ hstep => hstep.closesLater_iff⟩
  intro w₀ w es before u e u' after hp
  exact ⟨hp.taken.1.closesLater_iff.mpr hp.taken.2, staysOpen_of_run (hp.rest.cons hp.taken)⟩

def untilLate : List Event := setUp 100000000 0 ++ [.start startCall 100 20, .tick lateTime]

def outbidding : Event := .placeBid (bidCall 51 52 21 20) 200

theorem closing_time_later_late : ∃ w₀ u w : Concrete, Genesis w₀ ∧
    Passage (restrict (Step vaultKey) PeriodFits) w₀ (untilLate ++ [outbidding]) w untilLate u outbidding w [] ∧
      (∃ a ∈ w.auction, a.endTimestamp = 21) ∧ ClosesLater u outbidding w := by
  obtain ⟨w₀, w, h₀, h, hend⟩ := market_run 10 1 1 PeriodFits (untilLate ++ [outbidding])
    (fun w => ∃ a ∈ w.auction, a.endTimestamp = 21) (by decide +kernel)
  obtain ⟨u, hu, hstep⟩ := h.last
  have hp : Passage (restrict (Step vaultKey) PeriodFits) w₀ (untilLate ++ [outbidding]) w untilLate u outbidding w
      [] := ⟨rfl, hu, hstep, .nil⟩
  exact ⟨w₀, u, w, h₀, hp, hend, (closing_time_later.1 _ _ _ _ _ _ _ _ hp).1⟩

/-- The owner asks for the longest soft-close period. -/
def longestPeriod : List Event :=
  [.init ⟨holder 61⟩, .createSettings ⟨key 4, holder 61⟩ 10 18446744073709551615 100000000 0,
    .start startCall 100 20]

/-- At time 10 an auction that closes at 20 gets a bid, which moves the closing time to 9: it is over at once. -/
theorem closing_time_earlier : ∃ (w₀ u w : Concrete) (a a' : Auction), Genesis w₀ ∧
    Run (Step vaultKey) w₀ longestPeriod u ∧ Step vaultKey u outbidding w ∧ u.clock.val = 10 ∧
      u.auction = some a ∧ a.endTimestamp = 20 ∧ w.auction = some a' ∧ a'.endTimestamp = 9 ∧
      ¬ ClosesLater u outbidding w := by
  obtain ⟨w₀, u, h₀, h, hclock, ⟨a, ha, hend⟩, hnext⟩ := market_run 10 1 1 (fun _ _ => True) longestPeriod
    (fun u => u.clock.val = 10 ∧ (∃ a ∈ u.auction, a.endTimestamp = 20) ∧
      (u.perform vaultKey outbidding).any (fun w => ∃ a ∈ w.auction, a.endTimestamp = 9) = true)
    (by decide +kernel)
  obtain ⟨w, hbid, hend'⟩ := (Option.any_eq_true _ _).mp hnext
  obtain ⟨a', ha', hend'⟩ := of_decide_eq_true hend'
  refine ⟨w₀, u, w, a, a', h₀, h.of_restrict, .of_perform hbid, hclock, ha, hend, ha', hend', ?_⟩
  rintro ⟨_, s, b, -, -, hb, -, hle⟩
  obtain rfl : a' = b := Option.some.inj (Eq.trans ha'.symm hb)
  rw [hclock, hend'] at hle
  exact absurd (le_trans (Nat.le_add_right _ _) hle) (by decide)

/-! ## The outcome -/

/-- After the first claim, end or redemption nothing about the outcome changes. -/
theorem outcome_final (hT : T.Lawful) (h₀ : Genesis w₀) (h : Run (Step v) w₀ es w) : Final v w₀ es w :=
  Final.run hT h₀ h

theorem outcome_final_whole : ∃ w₀ w : Concrete, Genesis w₀ ∧ Run (Step vaultKey) w₀ wholeRun w ∧
    Final vaultKey w₀ wholeRun w := by
  obtain ⟨w₀, w, h₀, h, -⟩ := market_run 10 1 1 (fun _ _ => True) wholeRun (fun _ => True) (by decide +kernel)
  exact ⟨w₀, w, h₀, h.of_restrict, outcome_final TokenLedger.program_lawful h₀ h.of_restrict⟩

/-- The owner hands the program on to the address of the auction, in whose name the treasury is. -/
def ownedByAuction : List Event :=
  setUp 100000000 100000000 ++ [.start startCall 100 20, .setOwner ⟨holder 61⟩ (.auction vaultKey),
    .tick closingTime]

def endInTreasury : Event := .endAuction { endCall with feeTokenAccount := key 50 } 10

/-- The fee of 10 goes from the treasury into the treasury. It counts as paid, and nobody has got it. -/
theorem fee_not_delivered : ∃ (w₀ u w : Concrete) (a : Auction) (s : Settings), Genesis w₀ ∧
    Run (Step vaultKey) w₀ ownedByAuction u ∧ Step vaultKey u endInTreasury w ∧ u.auction = some a ∧
      u.settings a.settings = some s ∧ calculateFee a.topBid s.facilitatorFee = .ok 10 ∧
      (∃ b ∈ w.auction, b.feePaid = true) ∧
      ∀ k, (TokenLedger.program Pubkey).balance w.ledger k = (TokenLedger.program Pubkey).balance u.ledger k := by
  obtain ⟨w₀, u, h₀, h, ⟨a, ha, htreasury, s, hs, hfee⟩, hnext⟩ := market_run 10 1 1 (fun _ _ => True) ownedByAuction
    (fun u => (∃ a ∈ u.auction, a.paymentTreasury = key 50 ∧ ∃ s ∈ u.settings a.settings,
        calculateFee a.topBid s.facilitatorFee = .ok 10) ∧
      (u.perform vaultKey endInTreasury).any (fun w => ∃ b ∈ w.auction, b.feePaid = true) = true)
    (by decide +kernel)
  obtain ⟨w, hend, hpaid⟩ := (Option.any_eq_true _ _).mp hnext
  have hstep : Step vaultKey u endInTreasury w := .of_perform hend
  obtain ⟨a', ha', htransfer, -⟩ := delivered_of_step TokenLedger.program_lawful hstep
  obtain rfl : a = a' := Option.some.inj (Eq.trans (Eq.symm ha) ha')
  rw [htreasury] at htransfer
  exact ⟨w₀, u, w, a, s, h₀, h.of_restrict, hstep, ha, hs, hfee, of_decide_eq_true hpaid, fun k =>
    TokenProgram.balance_congr (congrFun (TokenLedger.program_lawful.transfer_self htransfer) k)⟩

end FractionAuction.AuctionProgram
