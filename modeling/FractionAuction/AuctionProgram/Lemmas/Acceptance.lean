import FractionAuction.AuctionProgram.Lemmas.Treasury

/-!
# When a bid and the end are accepted

In a reachable state the accounts of the auction are in order, so only the time, the amount and the accounts of the
caller decide.
-/

namespace FractionAuction.AuctionProgram

open Guard FixedPoint

variable {T : TokenProgram Pubkey} {V : VaultProgram T} {v : Pubkey} {w : World V} {a : Auction}

/-! ## place_bid -/

/-- The bidder names the accounts of the auction, has at least the bid in an account of their own, and brings a new
account for it. -/
structure PlaceBid.Ready (v : Pubkey) (w : World V) (a : Auction) (ctx : PlaceBid) (n : UInt64) : Prop where
  settings : ctx.settings = a.settings
  treasury : ctx.paymentTreasury = a.paymentTreasury
  escrow {b} : w.bids a.topBidder = some b → ctx.topBidTokenAccount = b.tokenAccount
  mint : ctx.paymentMint = a.paymentMint
  supply : (T.supply w.ledger a.paymentMint).isSome
  funds : ∃ x, T.account w.ledger ctx.payingTokenAccount = some x ∧ x.mint = a.paymentMint ∧
    x.owner = ctx.bidder.key ∧ n ≤ x.amount
  bidder : w.bids ctx.bidder.key = none
  fresh : (T.initializeAccount ctx.bidTokenAccount a.paymentMint (.bid ctx.bidder.key (.auction v)) w.ledger).isSome

/-- The auction is open, and the bid is above the last one by the increment. -/
def Biddable (w : World V) (a : Auction) (n : UInt64) : Prop :=
  getCurrentTimestamp w.clock < a.endTimestamp ∧
    ∃ s, w.settings a.settings = some s ∧ assertSufficientBid n a.topBid s.bidIncrement = .ok ()

section Bid

variable (hT : T.Lawful) {ctx : PlaceBid} {n : UInt64}
include hT

/-- The bid goes to the treasury, and the last one from there to its escrow. -/
theorem PlaceBid.Ready.transfers (hc : Custody v w) (ha : w.auction = some a) (hr : ctx.Ready v w a n)
    (hpaid : a.feePaid = false) {top : Bid} (htop : w.bids a.topBidder = some top) (hle : top.amount ≤ n) :
    ∃ L₁ L₂ L₃, T.initializeAccount ctx.bidTokenAccount ctx.paymentMint (.bid ctx.bidder.key (.auction v)) w.ledger =
        some L₁ ∧
      T.transfer ctx.payingTokenAccount ctx.paymentTreasury ctx.bidder.key n L₁ = some L₂ ∧
      T.transfer ctx.paymentTreasury ctx.topBidTokenAccount (.auction v) top.amount L₂ = some L₃ := by
  obtain ⟨L₁, h₁⟩ := Option.isSome_iff_exists.mp hr.fresh
  have hsame {k m o : Pubkey} (hk : T.Holds w.ledger k m o) : T.account L₁ k = T.account w.ledger k :=
    hT.initializeAccount_other h₁ (hk.ne_of_none (hT.initializeAccount_fresh h₁))
  have htreasury := hc.treasury ha hpaid
  have hescrow := (hc.bid ha htop).2
  obtain ⟨x, hx, hmint, howner, hfunds⟩ := hr.funds
  have hpayer : T.Holds w.ledger ctx.payingTokenAccount a.paymentMint ctx.bidder.key :=
    hmint ▸ howner ▸ TokenProgram.holds_of_account hx
  have hne : ctx.payingTokenAccount ≠ a.paymentTreasury := hpayer.ne htreasury (ctx.bidder.key_ne rfl)
  obtain ⟨t, ht⟩ := (TokenProgram.Holds.congr (hsame htreasury)).mpr htreasury
  obtain ⟨L₂, h₂⟩ := hT.transfer_total ((hsame hpayer).trans hx) ht hmint.symm hfunds
  -- the bid alone is enough for the refund
  have hbalance := hT.transfer_balance_destination h₂ hne
  obtain ⟨t', ht'⟩ := (hT.transfer_holds h₂).mpr ⟨t, ht⟩
  obtain ⟨e, he⟩ := (hT.transfer_holds h₂).mpr ((TokenProgram.Holds.congr (hsame hescrow)).mpr hescrow)
  rw [TokenProgram.balance_of_account ht'] at hbalance
  have hrefund : top.amount ≤ t' := by
    rw [UInt64.le_iff_toNat_le] at hle ⊢
    dsimp only at hbalance
    omega
  obtain ⟨L₃, h₃⟩ := hT.transfer_total ht' he rfl hrefund
  rw [hr.mint, hr.treasury, hr.escrow htop, ← howner]
  exact ⟨L₁, L₂, L₃, howner ▸ h₁, h₂, h₃⟩

theorem PlaceBid.Ready.accepted_iff (hc : Custody v w) (ha : w.auction = some a) (hr : ctx.Ready v w a n)
    (hfits : KeepsReserve w (.placeBid ctx n)) :
    (∃ w', AuctionProgram.placeBid v w ctx n = .ok w') ↔ Biddable w a n := by
  constructor
  · rintro ⟨w', h⟩
    obtain ⟨a', s, top, L, he, -⟩ := placeBid_effect h
    obtain rfl : a = a' := Option.some.inj (ha.symm.trans he.auction)
    exact ⟨he.not_ended, s, he.settings, he.sufficient⟩
  · rintro ⟨hopen, s, hs, hsufficient⟩
    have hpaid : a.feePaid = false := by
      cases hp : a.feePaid with
      | false => rfl
      | true => exact absurd hopen (UInt64.not_lt.mpr (hc.closed ha hp))
    obtain ⟨top, htop, hamount⟩ := hc.top ha
    have hle : top.amount ≤ n := by
      rw [hamount, UInt64.le_iff_toNat_le]
      exact sufficient_le hsufficient (hfits a ha s hs)
    obtain ⟨L₁, L₂, L₃, h₁, h₂, h₃⟩ := hr.transfers hT hc ha hpaid htop hle
    obtain ⟨x, hx, hmint, howner, hfunds⟩ := hr.funds
    obtain ⟨t, ht⟩ := hc.treasury ha hpaid
    obtain ⟨e, he⟩ := (hc.bid ha htop).2
    obtain ⟨supply, hsupply⟩ := Option.isSome_iff_exists.mp hr.supply
    simp only [AuctionProgram.placeBid, PlaceBid.load, PlaceBid.handler, PlaceBid.transferToTreasury,
      PlaceBid.transferBackToTopBidder, World.loadAuction, World.loadSettings, loadToken, loadMint,
      assertSufficientFunds, assertAuctionHasNotEnded, bind_ok_iff, pure_ok_iff, ensure_ok_iff, failIf_ok_iff,
      okOr_ok_iff, Option.isNone_iff_eq_none]
    exact ⟨_, _, ⟨a, ha, s, hr.settings ▸ hs, _, hr.treasury ▸ ht, top, htop, _, (hr.escrow htop) ▸ he, supply,
      hr.mint ▸ hsupply, x, hx, (), hr.bidder, L₁, h₁, (), hr.treasury.symm, (), hr.settings.symm, (),
      (hr.escrow htop).symm, (), hr.mint.symm, (), hmint.trans hr.mint.symm, (), howner, rfl⟩, (),
      UInt64.not_lt.mpr hfunds, (), UInt64.not_le.mpr hopen, (), hsufficient, L₂, h₂, L₃, h₃, rfl⟩

end Bid

/-! ## end -/

/-- The caller names the accounts of the auction and an account of the owner for the fee. -/
structure End.Ready (w : World V) (a : Auction) (ctx : End) : Prop where
  settings : ctx.settings = a.settings
  treasury : ctx.paymentTreasury = a.paymentTreasury
  receiver : ∃ authority, w.authority = some authority ∧
    T.Holds w.ledger ctx.feeTokenAccount a.paymentMint authority.owner

theorem End.Ready.accepted_iff (hT : T.Lawful) (hg : Grossed v w) (ha : w.auction = some a) {ctx : End}
    (hr : ctx.Ready w a) : (∃ w' f, AuctionProgram.endAuction v w ctx = .ok (w', f)) ↔
      a.feePaid = false ∧ a.endTimestamp ≤ getCurrentTimestamp w.clock := by
  constructor
  · rintro ⟨w', f, h⟩
    obtain ⟨a', s, L, he, -⟩ := endAuction_effect h
    obtain rfl : a = a' := Option.some.inj (ha.symm.trans he.auction)
    exact ⟨he.not_paid, he.ended⟩
  · rintro ⟨hpaid, hended⟩
    obtain ⟨authority, hauthority, hreceiver⟩ := hr.receiver
    obtain ⟨s, f, hs, hf, -, -, htransfer⟩ := hg.covers hT ha hpaid
    obtain ⟨L, hL⟩ := htransfer _ _ hreceiver
    obtain ⟨x, hx⟩ := hreceiver
    obtain ⟨t, ht⟩ := hg.treasury ha hpaid
    simp only [AuctionProgram.endAuction, End.load, End.handler, End.transferFeeToOwner, World.loadAuthority,
      World.loadAuction, World.loadSettings, loadToken, assertFeeNotDelivered, assertAuctionHasEnded, bind_ok_iff,
      pure_ok_iff, ensure_ok_iff, failIf_ok_iff, okOr_ok_iff]
    refine ⟨_, f, _, ⟨authority, hauthority, a, ha, s, hr.settings ▸ hs, _, hr.treasury ▸ ht, _, hx, (),
      hr.treasury.symm, (), hr.settings.symm, (), rfl, (), rfl, rfl⟩, (), by simp [hpaid], (),
      UInt64.not_lt.mpr hended, f, hf, L, hr.treasury ▸ hL, rfl⟩

end FractionAuction.AuctionProgram
