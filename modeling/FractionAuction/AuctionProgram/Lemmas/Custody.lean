import FractionAuction.AuctionProgram.Lemmas.Tokens

/-!
# What is there in every reachable state

The treasury until the fee is paid, and behind every bid a token account in its name.
-/

namespace FractionAuction.AuctionProgram

open Lts

variable {T : TokenProgram Pubkey} {V : VaultProgram T} {v : Pubkey} {w w' : World V} {e : Event}

/-! ## The clock -/

theorem getCurrentTimestamp_toNat (c : Clock) : (getCurrentTimestamp c).toNat = c.val := by
  have := c.isLt
  rw [getCurrentTimestamp, UInt64.toNat_ofNat', Nat.mod_eq_of_lt (by omega)]

theorem getCurrentTimestamp_mono {c c' : Clock} (h : c ≤ c') :
    getCurrentTimestamp c ≤ getCurrentTimestamp c' := by
  rw [UInt64.le_iff_toNat_le, getCurrentTimestamp_toNat, getCurrentTimestamp_toNat]
  exact h

/-! ## The invariant -/

structure Custody (v : Pubkey) (w : World V) : Prop where
  no_bids : w.auction = none → ∀ k, w.bids k = none
  rates : ∀ k s, w.settings k = some s → s.facilitatorFee ≤ maxFacilitatorFee
  settings {a} : w.auction = some a → ∃ s, w.settings a.settings = some s
  treasury {a} : w.auction = some a → a.feePaid = false →
    T.Holds w.ledger a.paymentTreasury a.paymentMint (.auction v)
  closed {a} : w.auction = some a → a.feePaid = true → a.endTimestamp ≤ getCurrentTimestamp w.clock
  bid {a k b} : w.auction = some a → w.bids k = some b →
    b.bidder = k ∧ T.Holds w.ledger b.tokenAccount a.paymentMint (.bid k (.auction v))
  apart {a k b} : w.auction = some a → w.bids k = some b → b.tokenAccount ≠ a.paymentTreasury
  top {a} : w.auction = some a → ∃ b, w.bids a.topBidder = some b ∧ b.amount = a.topBid

theorem Custody.genesis (h : Genesis w) : Custody v w where
  no_bids _ := h.bids
  rates k s hs := by simp [h.settings] at hs
  settings ha := by simp [h.auction] at ha
  treasury ha := by simp [h.auction] at ha
  closed ha := by simp [h.auction] at ha
  bid ha := by simp [h.auction] at ha
  apart ha := by simp [h.auction] at ha
  top ha := by simp [h.auction] at ha

theorem Custody.bid_ne (hc : Custody v w) {a : Auction} {k l : Pubkey} {b c : Bid} (ha : w.auction = some a)
    (hb : w.bids k = some b) (hb' : w.bids l = some c) (hne : k ≠ l) : b.tokenAccount ≠ c.tokenAccount :=
  (hc.bid ha hb).2.ne (hc.bid ha hb').2 (by simpa using hne)

/-- The settings of an auction exist, so new ones are others. -/
theorem Custody.settings_ne (hc : Custody v w) {a : Auction} {k : Pubkey} (ha : w.auction = some a)
    (hnone : w.settings k = none) : a.settings ≠ k := by
  rintro rfl
  obtain ⟨s, hs⟩ := hc.settings ha
  simp [hnone] at hs

theorem Custody.only_bid (hc : Custody v w) {ctx : Start} {n r : UInt64} {s : Settings} {vault : V.State}
    {L : T.Ledger} (he : ctx.Effect v w n r s vault L) {new b : Bid} {k : Pubkey}
    (h : Function.update w.bids ctx.bidder.key (some new) k = some b) : k = ctx.bidder.key ∧ new = b := by
  rcases update_eq_some.mp h with ⟨hk, hb⟩ | ⟨_, hb⟩
  · exact ⟨hk, Option.some.inj hb⟩
  · cases (hc.no_bids he.fresh k).symm.trans hb

section Instructions

variable (hT : T.Lawful) (hV : V.Lawful)

theorem Custody.createSettings (hc : Custody v w) {ctx : CreateSettings} {d s i f : UInt64}
    (h : ctx.handler w d s i f = .ok w') : Custody v w' := by
  obtain ⟨hnone, hf, rfl⟩ := CreateSettings.effect h
  refine ⟨hc.no_bids, ?_, ?_, hc.treasury, hc.closed, hc.bid, hc.apart, hc.top⟩
  · intro k x hx
    rcases update_eq_some.mp hx with ⟨_, hx⟩ | ⟨_, hx⟩
    · obtain rfl := Option.some.inj hx
      exact hf
    · exact hc.rates k x hx
  · intro a ha
    obtain ⟨x, hx⟩ := hc.settings ha
    exact ⟨x, (Function.update_of_ne (hc.settings_ne ha hnone) _ _).trans hx⟩

theorem Custody.running (hc : Custody v w) {ctx : PlaceBid} {n : UInt64} {a : Auction} {s : Settings} {top : Bid}
    {L : T.Ledger} (he : ctx.Effect v w n a s top L) : a.feePaid = false := by
  cases hp : a.feePaid with
  | false => rfl
  | true => exact absurd he.not_ended (UInt64.not_lt.mpr (hc.closed he.auction hp))

include hT

theorem Custody.bid_money (hc : Custody v w) {ctx : PlaceBid} {n : UInt64} {a : Auction} {s : Settings}
    {top : Bid} {L : T.Ledger} (he : ctx.Effect v w n a s top L) : ctx.Money v w n a top L :=
  he.money hT (hc.treasury he.auction (hc.running he)) (hc.bid he.auction he.leading).2

theorem Custody.placeBid (hc : Custody v w) {ctx : PlaceBid} {n : UInt64} (h : placeBid v w ctx n = .ok w') :
    Custody v w' := by
  obtain ⟨a, s, top, L, he, rfl⟩ := placeBid_effect h
  have hm := hc.bid_money hT he
  have hpaid := hc.running he
  have htreasury := hc.treasury he.auction hpaid
  obtain ⟨s', hs'⟩ := hc.settings he.auction
  constructor
  case no_bids => exact nofun
  case rates => exact hc.rates
  case settings =>
    intro a' ha'
    cases ha'
    exact ⟨s', hs'⟩
  case treasury =>
    intro a' ha' _
    cases ha'
    exact hm.holds htreasury
  case closed =>
    intro a' ha' hp
    cases ha'
    exact absurd (hp.symm.trans hpaid) (by decide)
  case bid =>
    intro a' k b ha' hb
    cases ha'
    rcases he.bids hb with ⟨rfl, rfl⟩ | ⟨_, c, hold, hbidder, _, htoken⟩
    · exact ⟨rfl, hm.escrow⟩
    · rw [hbidder, htoken]
      exact ⟨(hc.bid he.auction hold).1, hm.holds (hc.bid he.auction hold).2⟩
  case apart =>
    intro a' k b ha' hb
    cases ha'
    rcases he.bids hb with ⟨rfl, rfl⟩ | ⟨_, c, hold, _, _, htoken⟩
    · exact (htreasury.ne_of_none hm.fresh).symm
    · have hne := hc.apart he.auction hold
      rw [htoken]
      exact hne
  case top =>
    intro a' ha'
    cases ha'
    exact ⟨_, Function.update_self _ _ _, rfl⟩

theorem Custody.withdrawBid (hc : Custody v w) {ctx : WithdrawBid} {n : UInt64}
    (h : withdrawBid v w ctx = .ok (w', n)) : Custody v w' := by
  obtain ⟨a, b, L, he, rfl⟩ := withdrawBid_effect h
  have hm := he.money hT
  have hescrow : T.Holds w.ledger ctx.bidTokenAccount a.paymentMint (.bid ctx.bidder.key (.auction v)) :=
    he.escrow ▸ (hc.bid he.auction he.bid).2
  constructor
  case no_bids =>
    intro ha
    cases he.auction.symm.trans ha
  case rates => exact hc.rates
  case settings => exact hc.settings
  case treasury =>
    intro a' ha' hp
    exact hm.holds ((hc.treasury ha' hp).ne hescrow (by simp)) (hc.treasury ha' hp)
  case closed => exact hc.closed
  case bid =>
    intro a' k b' ha' hb'
    rcases update_eq_some.mp hb' with ⟨_, hnone⟩ | ⟨hk, hb'⟩
    · cases hnone
    · obtain ⟨hkey, hold⟩ := hc.bid ha' hb'
      exact ⟨hkey, hm.holds (hold.ne hescrow (by simpa using hk)) hold⟩
  case apart =>
    intro a' k b' ha' hb'
    rcases update_eq_some.mp hb' with ⟨_, hnone⟩ | ⟨_, hb'⟩
    · cases hnone
    · exact hc.apart ha' hb'
  case top =>
    intro a' ha'
    obtain rfl : a = a' := Option.some.inj (he.auction.symm.trans ha')
    simp only [Function.update_of_ne (Ne.symm he.not_top)]
    exact hc.top ha'

theorem Custody.endAuction (hc : Custody v w) {ctx : End} {f : UInt64}
    (h : endAuction v w ctx = .ok (w', f)) : Custody v w' := by
  obtain ⟨a, s, L, he, rfl⟩ := endAuction_effect h
  obtain ⟨s', hs'⟩ := hc.settings he.auction
  obtain ⟨b, hb, htop⟩ := hc.top he.auction
  constructor
  case no_bids => exact nofun
  case rates => exact hc.rates
  case settings =>
    intro a' ha'
    cases ha'
    exact ⟨s', hs'⟩
  case treasury =>
    intro a' ha' hp
    cases ha'
    cases hp
  case closed =>
    intro a' ha' _
    cases ha'
    exact he.ended
  case bid =>
    intro a' k b ha' hb
    cases ha'
    obtain ⟨hkey, hold⟩ := hc.bid he.auction hb
    exact ⟨hkey, (hT.transfer_holds he.tokens).mpr hold⟩
  case apart =>
    intro a' k b ha' hb
    cases ha'
    exact fun h => hc.apart he.auction hb h
  case top =>
    intro a' ha'
    cases ha'
    exact ⟨b, hb, htop⟩

include hV

theorem Custody.start (hc : Custody v w) {ctx : Start} {n r : UInt64}
    (h : start v w ctx n = .ok (w', r)) : Custody v w' := by
  obtain ⟨s, vault, L, he, rfl⟩ := start_effect h
  have hm := he.money hT hV
  constructor
  case no_bids => exact nofun
  case rates => exact hc.rates
  case settings =>
    intro a' ha'
    cases ha'
    exact ⟨s, he.settings⟩
  case treasury =>
    intro a' ha' _
    cases ha'
    exact hm.treasury
  case closed =>
    intro a' ha' hp
    cases ha'
    cases hp
  case bid =>
    intro a' k b ha' hb
    cases ha'
    obtain ⟨rfl, rfl⟩ := hc.only_bid he hb
    exact ⟨rfl, hm.escrow⟩
  case apart =>
    intro a' k b ha' hb
    cases ha'
    obtain ⟨rfl, rfl⟩ := hc.only_bid he hb
    exact hm.escrow.ne hm.treasury (by simp)
  case top =>
    intro a' ha'
    cases ha'
    exact ⟨_, Function.update_self _ _ _, rfl⟩

theorem Custody.redeem (hc : Custody v w) {ctx : Redeem} {n p : UInt64}
    (h : redeem v w ctx = .ok (w', n, p)) : Custody v w' := by
  obtain ⟨a, vault, L, he, rfl⟩ := redeem_effect h
  have hm := he.money hT hV
  obtain ⟨m, howned⟩ := hm.owned
  refine ⟨hc.no_bids, hc.rates, hc.settings, ?_, hc.closed, ?_, hc.apart, hc.top⟩
  · intro a' ha' hp
    obtain rfl : a = a' := Option.some.inj (he.auction.symm.trans ha')
    exact absurd (he.paid.symm.trans hp) (by decide)
  · intro a' k b ha' hb
    obtain rfl : a = a' := Option.some.inj (he.auction.symm.trans ha')
    obtain ⟨hkey, hold⟩ := hc.bid ha' hb
    exact ⟨hkey, hm.holds (hold.ne howned (by simp)) hold⟩

theorem Custody.step (hc : Custody v w) (h : Step v w e w') : Custody v w' := by
  cases h with
  | init hi =>
      obtain rfl := Init.effect hi
      exact ⟨hc.no_bids, hc.rates, hc.settings, hc.treasury, hc.closed, hc.bid, hc.apart, hc.top⟩
  | setOwner ho =>
      obtain rfl := SetAuthority.effect ho
      exact ⟨hc.no_bids, hc.rates, hc.settings, hc.treasury, hc.closed, hc.bid, hc.apart, hc.top⟩
  | createSettings hs => exact hc.createSettings hs
  | start hs => exact hc.start hT hV hs
  | placeBid hb => exact hc.placeBid hT hb
  | withdrawBid hw => exact hc.withdrawBid hT hw
  | endAuction he => exact hc.endAuction hT he
  | claim hcl =>
      obtain ⟨a, vault, L, he, rfl⟩ := claim_effect hcl
      have hescrow := hV.withdraw_pays he.tokens
      exact ⟨hc.no_bids, hc.rates, hc.settings, fun ha hp => hescrow.holds rfl (hc.treasury ha hp), hc.closed,
        fun ha hb => ⟨(hc.bid ha hb).1, hescrow.holds rfl (hc.bid ha hb).2⟩, hc.apart, hc.top⟩
  | redeem hr => exact hc.redeem hT hV hr
  | tick hle =>
      exact ⟨hc.no_bids, hc.rates, hc.settings, hc.treasury,
        fun ha hp => UInt64.le_trans (hc.closed ha hp) (getCurrentTimestamp_mono hle), hc.bid, hc.apart, hc.top⟩
  | outside ho =>
      constructor
      case no_bids => rw [ho.auction, ho.bids]; exact hc.no_bids
      case rates => rw [ho.settings]; exact hc.rates
      case settings => rw [ho.auction, ho.settings]; exact hc.settings
      case treasury =>
        rw [ho.auction]
        exact fun ha hp => ho.holds (Pubkey.inAuction_auction v) (hc.treasury ha hp)
      case closed => rw [ho.auction, ho.clock]; exact hc.closed
      case bid =>
        rw [ho.auction, ho.bids]
        exact fun ha hb => ⟨(hc.bid ha hb).1, ho.holds (Pubkey.inAuction_bid v _) (hc.bid ha hb).2⟩
      case apart => rw [ho.auction, ho.bids]; exact hc.apart
      case top => rw [ho.auction, ho.bids]; exact hc.top

theorem Custody.run {w₀ : World V} {es : List Event} (h₀ : Genesis w₀) (h : Run (Step v) w₀ es w) :
    Custody v w :=
  h.invariant (fun _ _ _ hc hstep => hc.step hT hV hstep) (Custody.genesis h₀)

end Instructions

end FractionAuction.AuctionProgram
