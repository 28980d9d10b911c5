import FractionAuction.AuctionProgram.Lemmas.Acceptance
import FractionAuction.AuctionProgram.Lemmas.Deadline
import FractionAuction.AuctionProgram.Lemmas.Governance
import FractionAuction.AuctionProgram.Lemmas.Outcome
import FractionAuction.AuctionProgram.SampleVault

/-!
# Theorems about the course of an auction
-/

namespace FractionAuction.AuctionProgram

open Lts Pubkey

variable {T : TokenProgram Pubkey} {V : VaultProgram T} {v : Pubkey} {w₀ w : World V} {es : List Event}

/-! ## Bidding -/

/-- Whatever happened before, nobody can keep a bidder out: a bid with the right accounts is accepted exactly if the
auction is open and the bid is above the last one by the increment, as long as the last bid and the increment fit a
word. -/
theorem bidding_open (hT : T.Lawful) (hV : V.Lawful) (h₀ : Genesis w₀) (h : Run (Step v) w₀ es w) {a : Auction}
    (ha : w.auction = some a) {ctx : PlaceBid} {n : UInt64} (hr : ctx.Ready v w a n)
    (hfits : KeepsReserve w (.placeBid ctx n)) : (∃ w', placeBid v w ctx n = .ok w') ↔ Biddable w a n :=
  hr.accepted_iff hT (Custody.run hT hV h₀ h) ha hfits

def oneBid : List Event := setUp 100000000 0 ++ [.start startCall 100 20]

theorem bidding_open_second : ∃ (w₀ w : Concrete) (a : Auction), Genesis w₀ ∧ Run (Step vaultKey) w₀ oneBid w ∧
    w.auction = some a ∧ a.topBid = 100 ∧ Biddable w a 110 ∧
      ∃ w', placeBid vaultKey w (bidCall 51 52 21 20) 110 = .ok w' := by
  obtain ⟨w₀, w, h₀, h, ⟨a, ha, htop, hset, htreasury, hmint, hbid, hopen, s, hs, hsufficient⟩, hsupply, hfunds, hbidder, hfresh, hfits⟩ :=
    market_run 10 1 1 (fun _ _ => True) oneBid (fun w => (∃ a ∈ w.auction, a.topBid = 100 ∧ a.settings = key 4 ∧
        a.paymentTreasury = key 50 ∧ a.paymentMint = key 0 ∧
        (w.bids a.topBidder).map Bid.tokenAccount = some (key 51) ∧ getCurrentTimestamp w.clock < a.endTimestamp ∧
        ∃ s ∈ w.settings a.settings, assertSufficientBid 110 a.topBid s.bidIncrement = .ok ()) ∧
      ((TokenLedger.program Pubkey).supply w.ledger (key 0)).isSome ∧
      (TokenLedger.program Pubkey).account w.ledger (key 21) = some ⟨key 0, key 20, 100000000000⟩ ∧
      w.bids (key 20) = none ∧ ((TokenLedger.program Pubkey).initializeAccount (key 52) (key 0)
        (.bid (key 20) (.auction vaultKey)) w.ledger).isSome ∧
      KeepsReserve w (.placeBid (bidCall 51 52 21 20) 110)) (by decide +kernel)
  have hr : (bidCall 51 52 21 20).Ready vaultKey w a 110 := {
    settings := hset.symm
    treasury := htreasury.symm
    escrow := fun {b} hb => by
      rw [hb, Option.map_some, Option.some.injEq] at hbid
      exact hbid.symm
    mint := hmint.symm
    supply := by rwa [hmint]
    funds := ⟨_, hfunds, hmint.symm, rfl, by decide⟩
    bidder := hbidder
    fresh := by rwa [hmint] }
  have hbiddable : Biddable w a 110 := ⟨hopen, s, hs, hsufficient⟩
  exact ⟨w₀, w, a, h₀, h.of_restrict, ha, htop, hbiddable,
    (bidding_open TokenLedger.program_lawful SampleVault.lawful h₀ h.of_restrict ha hr hfits).mpr hbiddable⟩

/-! ## The closing time -/

/-- Along calls whose period fits a word after the present time, the auction closes at the end of its duration if there
is no bid after the first, and otherwise a soft-close period after the top bid, but not before that end. -/
theorem closing_time_exact (h₀ : Genesis w₀) (h : Run (restrict (Step v) PeriodFits) w₀ es w) {a : Auction}
    (ha : w.auction = some a) : ∃ s b, w.settings a.settings = some s ∧ w.bids a.topBidder = some b ∧
      a.endTimestamp.toNat = a.closing s b (es.countP Event.isBid) := by
  obtain ⟨s, b, hs, hb, -, hclosing⟩ := (Timed.run h₀ h).timed ha
  exact ⟨s, b, hs, hb, hclosing⟩

/-- The second bid is late, and the closing time moves. -/
def lateBid : List Event := oneBid ++ [.tick lateTime, .placeBid (bidCall 51 52 21 20) 200]

theorem closing_time_exact_late : ∃ (w₀ w : Concrete) (a : Auction), Genesis w₀ ∧
    Run (restrict (Step vaultKey) PeriodFits) w₀ lateBid w ∧ w.auction = some a ∧ a.endTimestamp = 21 ∧
      ∃ s b, w.settings a.settings = some s ∧ w.bids a.topBidder = some b ∧
        a.endTimestamp.toNat = a.closing s b (lateBid.countP Event.isBid) := by
  obtain ⟨w₀, w, h₀, h, a, ha, hend⟩ := market_run 10 1 1 PeriodFits lateBid
    (fun w => ∃ a ∈ w.auction, a.endTimestamp = 21) (by decide +kernel)
  exact ⟨w₀, w, a, h₀, h, ha, hend, closing_time_exact h₀ h ha⟩

/-! ## The end -/

/-- While the minimum of each bid is what it should be, nobody can keep the auction from being ended: a call with the
right accounts is accepted exactly if it is the first and the closing time has come. Once a call is accepted, none is
again. -/
theorem end_open (hT : T.Lawful) (hV : V.Lawful) (h₀ : Genesis w₀) (h : Run (restrict (Step v) KeepsReserve) w₀ es w)
    {a : Auction} (ha : w.auction = some a) {ctx : End} (hr : ctx.Ready w a) :
    ((∃ w' f, endAuction v w ctx = .ok (w', f)) ↔
      a.feePaid = false ∧ a.endTimestamp ≤ getCurrentTimestamp w.clock) ∧
    ∀ ctx' w' f, endAuction v w ctx' = .ok (w', f) →
      ∀ fs w'', Run (Step v) w' fs w'' → ∀ ctx'' f', Event.endAuction ctx'' f' ∉ fs := by
  refine ⟨hr.accepted_iff hT (Grossed.run hT hV h₀ h) ha, fun ctx' w' f hend fs w'' hafter => ?_⟩
  obtain ⟨b, hb, hpaid⟩ := paid_after_end (.endAuction hend)
  exact no_end_later hb hpaid hafter

def overtime : List Event := setUp 100000000 100000000 ++ [.start startCall 100 20, .tick closingTime]

theorem end_open_overtime : ∃ (w₀ w : Concrete) (a : Auction), Genesis w₀ ∧
    Run (restrict (Step vaultKey) KeepsReserve) w₀ overtime w ∧ w.auction = some a ∧
      a.feePaid = false ∧ a.endTimestamp ≤ getCurrentTimestamp w.clock ∧
      ∃ w' f, endAuction vaultKey w endCall = .ok (w', f) ∧
        ∀ fs w'', Run (Step vaultKey) w' fs w'' → ∀ ctx f', Event.endAuction ctx f' ∉ fs := by
  obtain ⟨w₀, w, h₀, h, ⟨a, ha, hset, htreasury, hmint, hpaid, hover⟩, howner, hreceiver⟩ :=
    market_run 10 1 1 KeepsReserve overtime (fun w => (∃ a ∈ w.auction, a.settings = key 4 ∧
        a.paymentTreasury = key 50 ∧ a.paymentMint = key 0 ∧ a.feePaid = false ∧
        a.endTimestamp ≤ getCurrentTimestamp w.clock) ∧
      w.authority = some ⟨key 61⟩ ∧
      (TokenLedger.program Pubkey).account w.ledger (key 60) = some ⟨key 0, key 61, 0⟩) (by decide +kernel)
  have hr : endCall.Ready w a := ⟨hset.symm, htreasury.symm, _, howner, 0, by rw [hmint]; exact hreceiver⟩
  have hopen := end_open TokenLedger.program_lawful SampleVault.lawful h₀ h ha hr
  obtain ⟨w', f, hend⟩ := hopen.1.mpr ⟨hpaid, hover⟩
  exact ⟨w₀, w, a, h₀, h, ha, hpaid, hover, w', f, hend, hopen.2 _ _ _ hend⟩

/-! ## The owner and the settings -/

/-- Who is the owner and what the settings are is decided by the transactions made: whoever initialises the program
first, and then whomever the owner names. Only the owner makes settings, which are never changed, and fees go to the
owner. -/
structure Governed (v : Pubkey) (w₀ : World V) (es : List Event) (w : World V) : Prop where
  owner : w.owner = ownerAfter es
  signed {before u e u' after k} : Passage (Step v) w₀ es w before u e u' after → e.signedBy = some k →
    ownerAfter before = some k
  first {before u ctx u' after} : Passage (Step v) w₀ es w before u (.init ctx) u' after → ownerAfter before = none
  fee {before u ctx f u' after} : Passage (Step v) w₀ es w before u (.endAuction ctx f) u' after →
    ∃ a o, u.auction = some a ∧ ownerAfter before = some o ∧ T.Holds u.ledger ctx.feeTokenAccount a.paymentMint o
  settings k s : w.settings k = some s ↔ ∃ e ∈ es, e.settles k s
  rate {k s} : w.settings k = some s → s.facilitatorFee ≤ maxFacilitatorFee

theorem owner_governs (h₀ : Genesis w₀) (h : Run (Step v) w₀ es w) : Governed v w₀ es w where
  owner := owner_of_run h₀ h
  signed hp hk := by
    rw [← owner_of_run h₀ hp.reached]
    exact hp.taken.signed hk
  first hp := by
    rw [← owner_of_run h₀ hp.reached]
    exact hp.taken.first
  fee hp := by
    rw [← owner_of_run h₀ hp.reached]
    exact hp.taken.fee_receiver
  settings := settings_of_run h₀ h
  rate hs := by
    obtain ⟨e, he, hsettles⟩ := (settings_of_run h₀ h _ _).mp hs
    obtain ⟨_, _, _, _, hp⟩ := h.of_mem he
    exact hp.taken.rate hsettles

/-- The owner hands the program on after making settings, and the new owner gets the fee. -/
def handedOn : List Event :=
  setUp 100000000 100000000 ++ [.setOwner ⟨holder 61⟩ (key 10), .start startCall 100 20, .tick closingTime,
    .endAuction { endCall with feeTokenAccount := key 11 } 10]

theorem owner_governs_handed_on : ∃ w₀ w : Concrete, Genesis w₀ ∧ Run (Step vaultKey) w₀ handedOn w ∧
    w.owner = some (key 10) ∧ Governed vaultKey w₀ handedOn w := by
  obtain ⟨w₀, w, h₀, h, howner⟩ := market_run 10 1 1 (fun _ _ => True) handedOn (fun w => w.owner = some (key 10))
    (by decide +kernel)
  exact ⟨w₀, w, h₀, h.of_restrict, howner, owner_governs h₀ h.of_restrict⟩

end FractionAuction.AuctionProgram
