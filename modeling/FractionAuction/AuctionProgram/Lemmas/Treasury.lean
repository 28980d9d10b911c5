import FractionAuction.AuctionProgram.Lemmas.Custody

/-!
# The treasury

What it holds while the fee is not paid, and what it holds when nobody pays into it but the bidders.
-/

namespace FractionAuction.AuctionProgram

open FixedPoint Lts

variable {T : TokenProgram Pubkey} {V : VaultProgram T} {v : Pubkey} {w w' : World V} {e : Event}
  {es : List Event}

/-! ## The treasury covers the bid -/

/-- Until the fee is paid, the reserve price and the treasury make up the top bid. -/
structure Funded (v : Pubkey) (w : World V) : Prop extends Custody v w where
  funded {a} : w.auction = some a → a.feePaid = false →
    a.topBid.toNat ≤ a.reservePrice.toNat + T.balance w.ledger a.paymentTreasury

theorem Funded.genesis (h : Genesis w) : Funded v w :=
  ⟨Custody.genesis h, fun ha => by simp [h.auction] at ha⟩

theorem Funded.step (hT : T.Lawful) (hV : V.Lawful) (hf : Funded v w) (h : Step v w e w') : Funded v w' := by
  refine ⟨hf.toCustody.step hT hV h, ?_⟩
  cases h with
  | init hi =>
      obtain rfl := Init.effect hi
      exact hf.funded
  | setOwner ho =>
      obtain rfl := SetAuthority.effect ho
      exact hf.funded
  | createSettings hs =>
      obtain ⟨-, -, rfl⟩ := CreateSettings.effect hs
      exact hf.funded
  | start hs =>
      obtain ⟨s, vault, L, he, rfl⟩ := start_effect hs
      have hm := he.money hT hV
      intro a' ha' _
      cases ha'
      have := hm.treasury_balance
      simp only [Start.opened]
      omega
  | placeBid hb =>
      obtain ⟨a, s, top, L, he, rfl⟩ := placeBid_effect hb
      have hbefore := hf.funded he.auction (hf.running he)
      have hm := (hf.bid_money hT he).treasury_balance
      obtain ⟨top', htop', hamount⟩ := hf.top he.auction
      obtain rfl : top = top' := Option.some.inj (he.leading.symm.trans htop')
      rw [hamount] at hm
      intro a' ha' _
      cases ha'
      simp only [Auction.outbid]
      omega
  | withdrawBid hw =>
      obtain ⟨a, b, L, he, rfl⟩ := withdrawBid_effect hw
      have hne : a.paymentTreasury ≠ _ := he.escrow ▸ (hf.apart he.auction he.bid).symm
      intro a' ha' hp
      obtain rfl : a = a' := Option.some.inj (he.auction.symm.trans ha')
      exact le_trans (hf.funded ha' hp) (Nat.add_le_add_left ((he.money hT).gains hne) _)
  | endAuction hend =>
      obtain ⟨a, s, L, he, rfl⟩ := endAuction_effect hend
      intro a' ha' hp
      cases ha'
      cases hp
  | claim hc =>
      obtain ⟨a, vault, L, he, rfl⟩ := claim_effect hc
      intro a' ha' hp
      have hgain := (hV.withdraw_pays he.tokens).gains rfl (hf.treasury ha' hp)
      exact le_trans (hf.funded ha' hp) (Nat.add_le_add_left hgain _)
  | redeem hr =>
      obtain ⟨a, vault, L, he, rfl⟩ := redeem_effect hr
      intro a' ha' hp
      obtain rfl : a = a' := Option.some.inj (he.auction.symm.trans ha')
      exact absurd (he.paid.symm.trans hp) (by decide)
  | tick hle => exact hf.funded
  | outside ho =>
      rw [ho.auction]
      intro a ha hp
      rw [ho.kept (Pubkey.inAuction_auction v) (hf.treasury ha hp)]
      have := hf.funded ha hp
      omega

/-! ## The reserve price is left after the fee -/

/-- A call whose minimum is what it should be: at `start` the reserve price grossed up by the fee fits a word,
at `place_bid` the sum of the top bid and its increment does not wrap. -/
def KeepsReserve (w : World V) : Event → Prop
  | .start ctx _ r => ∀ s ∈ w.settings ctx.settings,
      r.toNat * 1000000000 / (1000000000 - s.facilitatorFee.toNat) < 2 ^ 64
  | .placeBid _ _ => ∀ a ∈ w.auction, ∀ s ∈ w.settings a.settings,
      a.topBid.toNat + a.topBid.toNat * s.bidIncrement.toNat / 1000000000 % 2 ^ 64 < 2 ^ 64
  | _ => True

instance (w : World V) (e : Event) : Decidable (KeepsReserve w e) :=
  match e with
  | .start _ _ _ | .placeBid _ _ => inferInstanceAs (Decidable (∀ x ∈ _, _))
  | .init _ | .setOwner _ _ | .createSettings _ _ _ _ _ | .withdrawBid _ _ | .endAuction _ _ | .claim _ _
  | .redeem _ _ _ | .tick _ | .outside _ => inferInstanceAs (Decidable True)

/-- The fee is a rate below one, and the top bid is not below the reserve price grossed up by it. -/
structure Grossed (v : Pubkey) (w : World V) : Prop extends Funded v w where
  gross {a s} : w.auction = some a → w.settings a.settings = some s →
    s.facilitatorFee.toNat < 1000000000 ∧
      a.reservePrice.toNat * 1000000000 / (1000000000 - s.facilitatorFee.toNat) ≤ a.topBid.toNat

theorem sufficient_le {b t i : UInt64} (h : assertSufficientBid b t i = .ok ())
    (hfits : t.toNat + t.toNat * i.toNat / 1000000000 % 2 ^ 64 < 2 ^ 64) : t.toNat ≤ b.toNat := by
  have hle := UInt64.le_iff_toNat_le.mp (assertSufficientBid_ok.mp h)
  rw [toNat_add_of_lt (by rwa [toNat_narrow])] at hle
  exact le_trans (Nat.le_add_right _ _) hle

theorem Start.Effect.gross {ctx : Start} {n r : UInt64} {s : Settings} {vault : V.State} {L : T.Ledger}
    (he : ctx.Effect v w n r s vault L) (hrate : s.facilitatorFee ≤ maxFacilitatorFee)
    (hfits : r.toNat * 1000000000 / (1000000000 - s.facilitatorFee.toNat) < 2 ^ 64) :
    s.facilitatorFee.toNat < 1000000000 ∧
      r.toNat * 1000000000 / (1000000000 - s.facilitatorFee.toNat) ≤ n.toNat := by
  obtain ⟨m, hm, hle⟩ := he.minimum
  obtain ⟨hne, rfl⟩ := calculateMinimumStartingBid_ok.mp hm
  have hsub : (maxFacilitatorFee - s.facilitatorFee).toNat = 1000000000 - s.facilitatorFee.toNat :=
    toNat_sub_of_le (UInt64.le_iff_toNat_le.mp hrate)
  rw [hsub] at hne hle
  refine ⟨by omega, ?_⟩
  have := UInt64.le_iff_toNat_le.mp hle
  rwa [toNat_narrow_of_lt hfits] at this

theorem Grossed.step (hT : T.Lawful) (hV : V.Lawful) (hg : Grossed v w)
    (h : restrict (Step v) KeepsReserve w e w') : Grossed v w' := by
  obtain ⟨hstep, hk⟩ := h
  refine ⟨hg.toFunded.step hT hV hstep, ?_⟩
  cases hstep with
  | init hi =>
      obtain rfl := Init.effect hi
      exact hg.gross
  | setOwner ho =>
      obtain rfl := SetAuthority.effect ho
      exact hg.gross
  | createSettings hs =>
      obtain ⟨hnone, -, rfl⟩ := CreateSettings.effect hs
      intro a s ha hs
      simp only [Function.update_of_ne (hg.settings_ne ha hnone)] at hs
      exact hg.gross ha hs
  | start hs =>
      obtain ⟨s, vault, L, he, rfl⟩ := start_effect hs
      intro a' s' ha' hs'
      cases ha'
      obtain rfl : s = s' := Option.some.inj (he.settings.symm.trans hs')
      exact he.gross (hg.rates _ _ he.settings) (hk s he.settings)
  | placeBid hb =>
      obtain ⟨a, s, top, L, he, rfl⟩ := placeBid_effect hb
      have hle := sufficient_le he.sufficient (hk a he.auction s he.settings)
      intro a' s' ha' hs'
      cases ha'
      obtain rfl : s = s' := Option.some.inj (he.settings.symm.trans hs')
      obtain ⟨hrate, hgross⟩ := hg.gross he.auction he.settings
      exact ⟨hrate, le_trans hgross hle⟩
  | withdrawBid hw =>
      obtain ⟨a, b, L, he, rfl⟩ := withdrawBid_effect hw
      exact hg.gross
  | endAuction hend =>
      obtain ⟨a, s, L, he, rfl⟩ := endAuction_effect hend
      intro a' s' ha' hs'
      cases ha'
      have := hg.gross he.auction hs'
      exact this
  | claim hc =>
      obtain ⟨a, vault, L, he, rfl⟩ := claim_effect hc
      exact hg.gross
  | redeem hr =>
      obtain ⟨a, vault, L, he, rfl⟩ := redeem_effect hr
      exact hg.gross
  | tick hle => exact hg.gross
  | outside ho =>
      rw [ho.auction, ho.settings]
      exact hg.gross

theorem Grossed.run (hT : T.Lawful) (hV : V.Lawful) {w₀ : World V} (h₀ : Genesis w₀)
    (h : Run (restrict (Step v) KeepsReserve) w₀ es w) : Grossed v w :=
  h.invariant (fun _ _ _ hg hstep => hg.step hT hV hstep)
    ⟨Funded.genesis h₀, fun ha => by simp [h₀.auction] at ha⟩

theorem Grossed.fee_le (hg : Grossed v w) {a : Auction} {s : Settings} {f : UInt64} (ha : w.auction = some a)
    (hs : w.settings a.settings = some s) (hf : calculateFee a.topBid s.facilitatorFee = .ok f) :
    a.reservePrice.toNat + f.toNat ≤ a.topBid.toNat := by
  obtain ⟨hrate, hgross⟩ := hg.gross ha hs
  rw [calculateFee_toNat hf (hg.rates _ _ hs)]
  exact rate_leaves hrate hgross

/-- The fee of the top bid can be worked out and leaves the reserve price, and a transfer of it from the
treasury succeeds. -/
def FeeCovered (v : Pubkey) (w : World V) (a : Auction) : Prop := ∃ s f, w.settings a.settings = some s ∧
  calculateFee a.topBid s.facilitatorFee = .ok f ∧ f.toNat ≤ T.balance w.ledger a.paymentTreasury ∧
  a.reservePrice.toNat + f.toNat ≤ a.topBid.toNat ∧
  ∀ k o, T.Holds w.ledger k a.paymentMint o →
    ∃ L, T.transfer a.paymentTreasury k (.auction v) f w.ledger = some L

theorem Grossed.covers (hT : T.Lawful) (hg : Grossed v w) {a : Auction} (ha : w.auction = some a)
    (hpaid : a.feePaid = false) : FeeCovered v w a := by
  obtain ⟨s, hs⟩ := hg.settings ha
  obtain ⟨f, hf⟩ : ∃ f, calculateFee a.topBid s.facilitatorFee = .ok f := ⟨_, calculateFee_ok.mpr rfl⟩
  have hle := hg.fee_le ha hs hf
  have hfunded := hg.funded ha hpaid
  have hbal : f.toNat ≤ T.balance w.ledger a.paymentTreasury := by omega
  refine ⟨s, f, hs, hf, hbal, hle, fun k o hk => ?_⟩
  obtain ⟨n, hn⟩ := hg.treasury ha hpaid
  obtain ⟨m, hm⟩ := hk
  rw [TokenProgram.balance_of_account hn] at hbal
  exact hT.transfer_total hn hm rfl (UInt64.le_iff_toNat_le.mpr hbal)

/-! ## Conservation -/

def Event.fee : Event → ℕ
  | .endAuction _ f => f.toNat
  | _ => 0

def Event.payment : Event → ℕ
  | .redeem _ _ p => p.toNat
  | _ => 0

/-- No payout goes into the treasury. -/
def SparesTreasury (w : World V) (e : Event) : Prop := ∀ a ∈ w.auction, e.Spares a.paymentTreasury

instance (w : World V) (e : Event) : Decidable (SparesTreasury w e) :=
  inferInstanceAs (Decidable (∀ a ∈ w.auction, _))

/-- The top bid is the reserve price, what is in the treasury, and what left it as fee and payments. An account
that took the place of a closed treasury holds nothing. -/
structure Conserved (v : Pubkey) (es : List Event) (w : World V) : Prop extends Custody v w where
  unstarted : w.auction = none → (es.map Event.fee).sum = 0 ∧ (es.map Event.payment).sum = 0
  conserved {a} : w.auction = some a → a.reservePrice.toNat + T.balance w.ledger a.paymentTreasury
    + (es.map Event.fee).sum + (es.map Event.payment).sum = a.topBid.toNat
  sealed {a} : w.auction = some a → (∃ m, T.Holds w.ledger a.paymentTreasury m (.auction v)) ∨
    T.balance w.ledger a.paymentTreasury = 0

/-- The auction of a step that moves nothing to or from the treasury. -/
theorem Conserved.congr (hc : Conserved v es w) (hc' : Custody v w') (hfee : e.fee = 0) (hpay : e.payment = 0)
    (ha : w'.auction = w.auction)
    (hbal : ∀ a ∈ w.auction, T.balance w'.ledger a.paymentTreasury = T.balance w.ledger a.paymentTreasury)
    (hholds : ∀ a ∈ w.auction, ∀ m, T.Holds w.ledger a.paymentTreasury m (.auction v) →
      T.Holds w'.ledger a.paymentTreasury m (.auction v)) : Conserved v (es ++ [e]) w' where
  toCustody := hc'
  unstarted := by
    rw [ha]
    simpa [hfee, hpay] using hc.unstarted
  conserved := by
    rw [ha]
    intro a h
    rw [hbal a h]
    simpa [hfee, hpay] using hc.conserved h
  sealed := by
    rw [ha]
    intro a h
    rw [hbal a h]
    rcases hc.sealed h with ⟨m, hm⟩ | h0
    · exact .inl ⟨m, hholds a h m hm⟩
    · exact .inr h0

section Instructions

variable (hT : T.Lawful) (hV : V.Lawful)
include hT

theorem Conserved.placeBid (hc : Conserved v es w) {ctx : PlaceBid} {n : UInt64}
    (h : placeBid v w ctx n = .ok w') : Conserved v (es ++ [.placeBid ctx n]) w' := by
  have hcustody := hc.toCustody.placeBid hT h
  obtain ⟨a, s, top, L, he, rfl⟩ := placeBid_effect h
  have hm := hc.bid_money hT he
  obtain ⟨top', htop', hamount⟩ := hc.top he.auction
  obtain rfl : top = top' := Option.some.inj (he.leading.symm.trans htop')
  have heq := hc.conserved he.auction
  have hbal := hm.treasury_balance
  have hold := hc.treasury he.auction (hc.running he)
  rw [hamount] at hbal
  refine ⟨hcustody, nofun, ?_, ?_⟩
  · intro a' ha'
    cases ha'
    simp only [Auction.outbid, sum_map_snoc, Event.fee, Event.payment]
    omega
  · intro a' ha'
    cases ha'
    exact .inl ⟨_, hm.holds hold⟩

theorem Conserved.endAuction (hc : Conserved v es w) {ctx : End} {f : UInt64}
    (h : endAuction v w ctx = .ok (w', f)) (hspare : SparesTreasury w (.endAuction ctx f)) :
    Conserved v (es ++ [.endAuction ctx f]) w' := by
  have hcustody := hc.toCustody.endAuction hT h
  obtain ⟨a, s, L, he, rfl⟩ := endAuction_effect h
  have hne : ctx.feeTokenAccount ≠ a.paymentTreasury := hspare a he.auction
  have htransfer := he.tokens
  rw [← he.treasury] at htransfer
  have hbal := hT.transfer_balance_source htransfer hne.symm
  have heq := hc.conserved he.auction
  have hold := hc.treasury he.auction he.not_paid
  refine ⟨hcustody, nofun, ?_, ?_⟩
  · intro a' ha'
    cases ha'
    simp only [sum_map_snoc, Event.fee, Event.payment]
    omega
  · intro a' ha'
    cases ha'
    exact .inl ⟨_, (hT.transfer_holds htransfer).mpr hold⟩

include hV

theorem Conserved.start (hc : Conserved v es w) {ctx : Start} {n r : UInt64}
    (h : start v w ctx n = .ok (w', r)) : Conserved v (es ++ [.start ctx n r]) w' := by
  have hcustody := hc.toCustody.start hT hV h
  obtain ⟨s, vault, L, he, rfl⟩ := start_effect h
  have hm := he.money hT hV
  obtain ⟨hfees, hpayments⟩ := hc.unstarted he.fresh
  have hbal := hm.treasury_balance
  refine ⟨hcustody, nofun, ?_, ?_⟩
  · intro a' ha'
    cases ha'
    simp only [Start.opened, sum_map_snoc, Event.fee, Event.payment, hfees, hpayments]
    omega
  · intro a' ha'
    cases ha'
    exact .inl ⟨_, hm.treasury⟩

theorem Conserved.redeem (hc : Conserved v es w) {ctx : Redeem} {n p : UInt64}
    (h : redeem v w ctx = .ok (w', n, p)) (hspare : SparesTreasury w (.redeem ctx n p)) :
    Conserved v (es ++ [.redeem ctx n p]) w' := by
  have hcustody := hc.toCustody.redeem hT hV h
  obtain ⟨a, vault, L, he, rfl⟩ := redeem_effect h
  have hm := he.money hT hV
  have hbal := hm.treasury_balance (hspare a he.auction)
  have heq := hc.conserved he.auction
  obtain ⟨m, howned⟩ := hm.owned
  refine ⟨hcustody, fun hnone => ?_, ?_, ?_⟩
  · cases he.auction.symm.trans hnone
  · intro a' ha'
    obtain rfl : a = a' := Option.some.inj (he.auction.symm.trans ha')
    simp only [sum_map_snoc, Event.fee, Event.payment]
    omega
  · intro a' ha'
    obtain rfl : a = a' := Option.some.inj (he.auction.symm.trans ha')
    rcases Nat.eq_zero_or_pos (T.balance L a.paymentTreasury) with h0 | hpos
    · exact .inr h0
    · exact .inl ⟨m, hm.treasury_open howned hpos⟩

theorem Conserved.step (hc : Conserved v es w) (h : restrict (Step v) SparesTreasury w e w') :
    Conserved v (es ++ [e]) w' := by
  obtain ⟨hstep, hspare⟩ := h
  have hcustody := hc.toCustody.step hT hV hstep
  cases hstep with
  | init hi =>
      obtain rfl := Init.effect hi
      exact hc.congr hcustody rfl rfl rfl (fun _ _ => rfl) (fun _ _ _ hm => hm)
  | setOwner ho =>
      obtain rfl := SetAuthority.effect ho
      exact hc.congr hcustody rfl rfl rfl (fun _ _ => rfl) (fun _ _ _ hm => hm)
  | createSettings hs =>
      obtain ⟨-, -, rfl⟩ := CreateSettings.effect hs
      exact hc.congr hcustody rfl rfl rfl (fun _ _ => rfl) (fun _ _ _ hm => hm)
  | start hs => exact hc.start hT hV hs
  | placeBid hb => exact hc.placeBid hT hb
  | withdrawBid hw =>
      obtain ⟨a, b, L, he, rfl⟩ := withdrawBid_effect hw
      have hm := he.money hT
      have hsame (a' : Auction) (ha' : w.auction = some a') :
          T.account L a'.paymentTreasury = T.account w.ledger a'.paymentTreasury :=
        hm.other (he.escrow ▸ (hc.apart ha' he.bid).symm) (Ne.symm (hspare a' ha'))
      exact hc.congr hcustody rfl rfl rfl (fun a' ha' => TokenProgram.balance_congr (hsame a' ha'))
        (fun a' ha' _ => (TokenProgram.Holds.congr (hsame a' ha')).mpr)
  | endAuction hend => exact hc.endAuction hT hend hspare
  | claim hcl =>
      obtain ⟨a, vault, L, he, rfl⟩ := claim_effect hcl
      have hpays := hV.withdraw_pays he.tokens
      refine hc.congr hcustody rfl rfl rfl (fun a' ha' => ?_) (fun a' ha' _ => hpays.holds rfl)
      have hne := Ne.symm (hspare a' ha')
      rcases hc.sealed ha' with ⟨m, hm⟩ | h0
      · exact TokenProgram.balance_congr (hpays.other rfl hm hne)
      · exact (Nat.le_zero.mp (h0 ▸ hpays.nowhere_else hne)).trans h0.symm
  | redeem hr => exact hc.redeem hT hV hr hspare
  | tick hle => exact hc.congr hcustody rfl rfl rfl (fun _ _ => rfl) (fun _ _ _ hm => hm)
  | outside ho =>
      refine hc.congr hcustody rfl rfl ho.auction (fun a' ha' => ?_)
        (fun a' ha' _ => ho.holds (Pubkey.inAuction_auction v))
      have hzero := hspare a' ha'
      simp only [Event.Spares] at hzero
      rcases hc.sealed ha' with ⟨m, hm⟩ | h0
      · rw [ho.kept (Pubkey.inAuction_auction v) hm, hzero, Nat.add_zero]
      · have := ho.gained a'.paymentTreasury
        omega

theorem Conserved.run {w₀ : World V} (h₀ : Genesis w₀) (h : Run (restrict (Step v) SparesTreasury) w₀ es w) :
    Conserved v es w :=
  h.invariant_trace (fun _ _ _ _ hc hstep => hc.step hT hV hstep)
    ⟨Custody.genesis h₀, fun _ => ⟨rfl, rfl⟩, fun ha => by simp [h₀.auction] at ha,
      fun ha => by simp [h₀.auction] at ha⟩

end Instructions

end FractionAuction.AuctionProgram
