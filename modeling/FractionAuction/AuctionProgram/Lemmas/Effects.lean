import FractionAuction.AuctionProgram.System

/-!
# What a successful instruction does

One structure and one lemma for each instruction. The later proofs use these and never unfold a handler.
-/

namespace FractionAuction.AuctionProgram

open Guard FixedPoint

variable {T : TokenProgram Pubkey} {V : VaultProgram T} {v : Pubkey} {w w' : World V}

theorem update_eq_some {α : Type} {f : Pubkey → Option α} {k l : Pubkey} {x : Option α} {a : α} :
    Function.update f k x l = some a ↔ l = k ∧ x = some a ∨ l ≠ k ∧ f l = some a := by
  by_cases h : l = k
  · subst h
    simp
  · simp [h]

/-! ## Prices -/

theorem maxFee_toNat : maxFacilitatorFee.toNat = 1000000000 := rfl

theorem maxIncrement_toNat : maxBidIncrement.toNat = 1000000000 := rfl

theorem calculateFee_ok {t f x : UInt64} :
    calculateFee t f = .ok x ↔ x = narrow (t.toNat * f.toNat / 1000000000) := by
  simp [calculateFee, mulDiv_eq_some, maxFee_toNat]

theorem calculateFee_toNat {t f x : UInt64} (h : calculateFee t f = .ok x) (hrate : f ≤ maxFacilitatorFee) :
    x.toNat = t.toNat * f.toNat / 1000000000 :=
  mulDiv_toNat_of_le (okOr_ok_iff.mp h) (UInt64.le_iff_toNat_le.mp hrate)

theorem calculateMinimumBidIncrease_ok {t i x : UInt64} :
    calculateMinimumBidIncrease t i = .ok x ↔ x = narrow (t.toNat * i.toNat / 1000000000) := by
  simp [calculateMinimumBidIncrease, mulDiv_eq_some, maxIncrement_toNat]

theorem calculateMinimumStartingBid_ok {r f x : UInt64} :
    calculateMinimumStartingBid r f = .ok x ↔ (maxFacilitatorFee - f).toNat ≠ 0 ∧
      x = narrow (r.toNat * 1000000000 / (maxFacilitatorFee - f).toNat) := by
  simp [calculateMinimumStartingBid, mulDiv_eq_some, maxFee_toNat]

theorem calculateRedeemPayment_ok {t a s x : UInt64} :
    calculateRedeemPayment t a s = .ok x ↔ s.toNat ≠ 0 ∧ x = narrow (t.toNat * a.toNat / s.toNat) := by
  simp [calculateRedeemPayment, mulDiv_eq_some]

/-- Whoever hands in shares is paid a part of the treasury. -/
theorem calculateRedeemPayment_total {t a s : UInt64} (hs : 0 < s.toNat) (hle : a.toNat ≤ s.toNat) :
    ∃ p, calculateRedeemPayment t a s = .ok p ∧ p.toNat = t.toNat * a.toNat / s.toNat ∧ p.toNat ≤ t.toNat := by
  have hpart : t.toNat * a.toNat / s.toNat ≤ t.toNat := mulDiv_fits hle
  have hpaid : (narrow (t.toNat * a.toNat / s.toNat)).toNat = t.toNat * a.toNat / s.toNat :=
    toNat_narrow_of_lt (lt_of_le_of_lt hpart (toNat_lt t))
  exact ⟨_, calculateRedeemPayment_ok.mpr ⟨hs.ne', rfl⟩, hpaid, hpaid.trans_le hpart⟩

theorem assertSufficientBid_ok {b t i : UInt64} :
    assertSufficientBid b t i = .ok () ↔ t + narrow (t.toNat * i.toNat / 1000000000) ≤ b := by
  simp only [assertSufficientBid, bind_ok_iff, calculateMinimumBidIncrease_ok, failIf_ok_iff, UInt64.not_lt]
  constructor
  · rintro ⟨_, rfl, h⟩
    exact h
  · exact fun h => ⟨_, rfl, h⟩

/-! ## The owner's instructions -/

theorem Init.effect {ctx : Init} (h : ctx.handler w = .ok w') :
    w' = { w with authority := some ⟨ctx.signer.key⟩ } := by
  simp only [Init.handler, bind_ok_iff, ensure_ok_iff, pure_ok_iff] at h
  obtain ⟨_, _, rfl⟩ := h
  rfl

theorem SetAuthority.effect {ctx : SetAuthority} {o : Pubkey} (h : ctx.handler w o = .ok w') :
    w' = { w with authority := some ⟨o⟩ } := by
  simp only [SetAuthority.handler, bind_ok_iff, ensure_ok_iff, pure_ok_iff] at h
  obtain ⟨_, _, _, _, rfl⟩ := h
  rfl

/-- Settings are made once, at an address of their own, and with a fee that is a rate. -/
theorem CreateSettings.effect {ctx : CreateSettings} {d s i f : UInt64}
    (h : ctx.handler w d s i f = .ok w') :
    w.settings ctx.settings = none ∧ f ≤ maxFacilitatorFee ∧
      w' = { w with settings := Function.update w.settings ctx.settings (some ⟨d, s, i, f⟩) } := by
  simp only [CreateSettings.handler, bind_ok_iff, ensure_ok_iff, failIf_ok_iff, pure_ok_iff,
    Option.isNone_iff_eq_none] at h
  obtain ⟨_, _, _, hnone, _, _, _, hf, rfl⟩ := h
  exact ⟨hnone, UInt64.not_lt.mp hf, rfl⟩

/-! ## start -/

def Start.opened (v : Pubkey) (w : World V) (ctx : Start) (n r : UInt64) (s : Settings) : Auction where
  startTimestamp := getCurrentTimestamp w.clock
  endTimestamp := getCurrentTimestamp w.clock + s.duration
  paymentMint := ctx.paymentMint
  topBid := n
  topBidder := ctx.bidder.key
  reservePrice := r
  settings := ctx.settings
  vault := v
  paymentTreasury := ctx.paymentTreasury
  feePaid := false

/-- The bid that `start` and `place_bid` write. -/
def newBid (v : Pubkey) (w : World V) (bidder tokenAccount : Pubkey) (n : UInt64) : Bid where
  bidder := bidder
  auction := .auction v
  amount := n
  timestamp := getCurrentTimestamp w.clock
  withdrawable := false
  tokenAccount := tokenAccount

/-- The price that `start` reads: the one the vault looks up, for the payment mint, and with a majority behind it. -/
structure Start.Reads (w : World V) (ctx : Start) (price : Price) : Prop where
  shown : w.prices ctx.externalPricingAccount = some price
  lookup : (V.vault w.vault).pricingLookupAddress = ctx.externalPricingAccount
  mint : price.priceMint = ctx.paymentMint
  allowed : price.allowedToCombine = true

structure Start.Effect (v : Pubkey) (w : World V) (ctx : Start) (n r : UInt64) (s : Settings)
    (vault : V.State) (L : T.Ledger) : Prop where
  fresh : w.auction = none
  bidder : w.bids ctx.bidder.key = none
  settings : w.settings ctx.settings = some s
  owned : (V.vault w.vault).authority = .authority
  active : (V.vault w.vault).state = .active
  minimum : ∃ m, calculateMinimumStartingBid r s.facilitatorFee = .ok m ∧ m ≤ n
  tokens : ∃ L₁ L₂ L₃ price before after, ctx.Reads w price ∧
    T.initializeAccount ctx.paymentTreasury ctx.paymentMint (.auction v) w.ledger = some L₁ ∧
    T.initializeAccount ctx.bidTokenAccount ctx.paymentMint (.bid ctx.bidder.key (.auction v)) L₁ = some L₂ ∧
    T.account w.ledger ctx.payingTokenAccount = some ⟨ctx.paymentMint, ctx.bidder.key, before⟩ ∧
    V.combine (ctx.combineContext v) price w.vault L₂ = some (vault, L₃) ∧
    T.account L₃ ctx.payingTokenAccount = some after ∧ r = before - after.amount ∧ n ≤ before ∧
    T.transfer ctx.payingTokenAccount ctx.paymentTreasury ctx.bidder.key (n - r) L₃ = some L

theorem start_effect {ctx : Start} {n r : UInt64} (h : start v w ctx n = .ok (w', r)) :
    ∃ s vault L, ctx.Effect v w n r s vault L ∧ w' = { w with
      vault
      ledger := L
      auction := some (ctx.opened v w n r s)
      bids := Function.update w.bids ctx.bidder.key
        (some (newBid v w ctx.bidder.key ctx.bidTokenAccount n)) } := by
  simp only [start, bind_ok_iff] at h
  obtain ⟨c, hc, h⟩ := h
  simp only [Start.load, World.loadAuthority, World.loadSettings, loadToken, loadMint, bind_ok_iff, pure_ok_iff,
    ensure_ok_iff, okOr_ok_iff, Option.isNone_iff_eq_none] at hc
  obtain ⟨_, _, s, hs, ⟨_, _, before⟩, hpay, _, _, _, _, price, hprice, _, _, _, _, _, _, _, hfresh, L₁, hL₁, _,
    hbid, L₂, hL₂, _, rfl, _, rfl, _, hmint, rfl⟩ := hc
  simp only [Start.handler, Start.combineVault, Start.transferToTreasury, loadToken, assertSufficientFunds,
    assertVaultOwnedByAuctionProgramAuthority, assertCorrectPricingAccount, assertVaultAllowedToCombine,
    assertVaultInActiveState, assertBidMeetsReservePrice, bind_ok_iff, pure_ok_iff, failIf_ok_iff, okOr_ok_iff,
    not_not, Prod.mk.injEq] at h
  obtain ⟨_, hfunds, _, howned, _, hlookup, _, hallowed, _, hactive, _, ⟨⟨vault, L₃⟩, hcombine, after, hafter, rfl⟩,
    m, hm, _, hle, L, hL, rfl, rfl⟩ := h
  exact ⟨s, vault, L, {
    fresh := hfresh
    bidder := hbid
    settings := hs
    owned := howned
    active := hactive
    minimum := ⟨m, hm, UInt64.not_lt.mp hle⟩
    tokens := ⟨L₁, L₂, L₃, price, before, after, ⟨hprice, hlookup, hmint, by simpa using hallowed⟩, hL₁, hL₂, hpay,
      hcombine, hafter, rfl, UInt64.not_lt.mp hfunds, hL⟩ }, rfl⟩

/-! ## place_bid -/

def Auction.outbid (a : Auction) (s : Settings) (clock : Clock) (bidder : Pubkey) (n : UInt64) : Auction :=
  { a with
    topBid := n
    topBidder := bidder
    endTimestamp := PlaceBid.extend a.endTimestamp (getCurrentTimestamp clock) s.softClosePeriod }

structure PlaceBid.Effect (v : Pubkey) (w : World V) (ctx : PlaceBid) (n : UInt64) (a : Auction)
    (s : Settings) (top : Bid) (L : T.Ledger) : Prop where
  auction : w.auction = some a
  treasury : a.paymentTreasury = ctx.paymentTreasury
  settings : w.settings a.settings = some s
  leading : w.bids a.topBidder = some top
  escrow : top.tokenAccount = ctx.topBidTokenAccount
  bidder : w.bids ctx.bidder.key = none
  not_ended : getCurrentTimestamp w.clock < a.endTimestamp
  sufficient : assertSufficientBid n a.topBid s.bidIncrement = .ok ()
  payer : T.Holds w.ledger ctx.payingTokenAccount a.paymentMint ctx.bidder.key
  tokens : ∃ L₁ L₂,
    T.initializeAccount ctx.bidTokenAccount a.paymentMint (.bid ctx.bidder.key (.auction v)) w.ledger = some L₁ ∧
    T.transfer ctx.payingTokenAccount ctx.paymentTreasury ctx.bidder.key n L₁ = some L₂ ∧
    T.transfer ctx.paymentTreasury ctx.topBidTokenAccount (.auction v) top.amount L₂ = some L

theorem placeBid_effect {ctx : PlaceBid} {n : UInt64} (h : placeBid v w ctx n = .ok w') :
    ∃ a s top L, ctx.Effect v w n a s top L ∧ w' = { w with
      ledger := L
      auction := some (a.outbid s w.clock ctx.bidder.key n)
      bids := Function.update (Function.update w.bids a.topBidder (some { top with withdrawable := true }))
        ctx.bidder.key (some (newBid v w ctx.bidder.key ctx.bidTokenAccount n)) } := by
  simp only [placeBid, bind_ok_iff] at h
  obtain ⟨c, hc, h⟩ := h
  simp only [PlaceBid.load, World.loadAuction, World.loadSettings, loadToken, loadMint, bind_ok_iff, pure_ok_iff,
    ensure_ok_iff, okOr_ok_iff, Option.isNone_iff_eq_none] at hc
  obtain ⟨a, ha, s, hs, _, _, top, htop, _, _, _, _, payer, hpay, _, hbid, L₁, hL₁, _, htreasury, _, hsettings, _,
    hescrow, _, hmint, _, hpm, _, hpo, rfl⟩ := hc
  simp only [PlaceBid.handler, PlaceBid.transferToTreasury, PlaceBid.transferBackToTopBidder,
    assertSufficientFunds, assertAuctionHasNotEnded, bind_ok_iff, pure_ok_iff, failIf_ok_iff, okOr_ok_iff] at h
  obtain ⟨_, _, _, hopen, _, hsufficient, L₂, hL₂, L, hL, rfl⟩ := h
  exact ⟨a, s, top, L, {
    auction := ha
    treasury := htreasury
    settings := hsettings ▸ hs
    leading := htop
    escrow := hescrow
    bidder := hbid
    not_ended := UInt64.not_le.mp hopen
    sufficient := hsufficient
    payer := by rw [hmint, ← hpm, ← hpo]; exact TokenProgram.holds_of_account hpay
    tokens := ⟨L₁, L₂, hmint ▸ hL₁, hL₂, hL⟩ }, rfl⟩

/-- The bids after a bid: the new one, and the old ones, of which the bid before is marked as withdrawable. -/
theorem PlaceBid.Effect.bids {ctx : PlaceBid} {n : UInt64} {a : Auction} {s : Settings} {top : Bid} {L : T.Ledger}
    (he : ctx.Effect v w n a s top L) {new b : Bid} {k : Pubkey}
    (h : Function.update (Function.update w.bids a.topBidder (some { top with withdrawable := true }))
      ctx.bidder.key (some new) k = some b) :
    k = ctx.bidder.key ∧ new = b ∨ k ≠ ctx.bidder.key ∧ ∃ c, w.bids k = some c ∧ b.bidder = c.bidder ∧
      b.amount = c.amount ∧ b.tokenAccount = c.tokenAccount := by
  rcases update_eq_some.mp h with ⟨hk, hb⟩ | ⟨hk, hb⟩
  · exact .inl ⟨hk, Option.some.inj hb⟩
  · refine .inr ⟨hk, ?_⟩
    rcases update_eq_some.mp hb with ⟨hkt, hmarked⟩ | ⟨_, hold⟩
    · obtain rfl := Option.some.inj hmarked
      exact ⟨top, hkt ▸ he.leading, rfl, rfl, rfl⟩
    · exact ⟨b, hold, rfl, rfl, rfl⟩

/-! ## withdraw_bid -/

structure WithdrawBid.Effect (v : Pubkey) (w : World V) (ctx : WithdrawBid) (n : UInt64) (a : Auction)
    (b : Bid) (L : T.Ledger) : Prop where
  auction : w.auction = some a
  bid : w.bids ctx.bidder.key = some b
  escrow : b.tokenAccount = ctx.bidTokenAccount
  bidder : b.bidder = ctx.bidder.key
  not_top : ctx.bidder.key ≠ a.topBidder
  amount : ∃ x, T.account w.ledger ctx.bidTokenAccount = some x ∧ x.amount = n
  tokens : ∃ L₁,
    T.transfer ctx.bidTokenAccount ctx.toAccount (.bid ctx.bidder.key (.auction v)) n w.ledger = some L₁ ∧
    T.closeAccount ctx.bidTokenAccount (.bid ctx.bidder.key (.auction v)) L₁ = some L

theorem withdrawBid_effect {ctx : WithdrawBid} {n : UInt64} (h : withdrawBid v w ctx = .ok (w', n)) :
    ∃ a b L, ctx.Effect v w n a b L ∧
      w' = { w with ledger := L, bids := Function.update w.bids ctx.bidder.key none } := by
  simp only [withdrawBid, bind_ok_iff] at h
  obtain ⟨c, hc, h⟩ := h
  simp only [WithdrawBid.load, World.loadAuction, World.loadSettings, loadToken, bind_ok_iff, pure_ok_iff,
    ensure_ok_iff, okOr_ok_iff] at hc
  obtain ⟨a, ha, _, _, b, hb, x, hx, _, _, _, _, _, hescrow, _, hbidder, _, _, rfl⟩ := hc
  simp only [WithdrawBid.handler, WithdrawBid.returnFundsToBidder, WithdrawBid.closeBidAccount,
    assertNotTopBidder, bind_ok_iff, pure_ok_iff, failIf_ok_iff, okOr_ok_iff, Prod.mk.injEq] at h
  obtain ⟨_, htop, L₁, hL₁, L, hL, rfl, rfl⟩ := h
  exact ⟨a, b, L, {
    auction := ha
    bid := hb
    escrow := hescrow
    bidder := hbidder
    not_top := fun he => htop (he.symm.trans hbidder.symm)
    amount := ⟨x, hx, rfl⟩
    tokens := ⟨L₁, hL₁, hL⟩ }, rfl⟩

/-! ## end -/

structure End.Effect (v : Pubkey) (w : World V) (ctx : End) (f : UInt64) (a : Auction) (s : Settings)
    (L : T.Ledger) : Prop where
  auction : w.auction = some a
  treasury : a.paymentTreasury = ctx.paymentTreasury
  settings : w.settings a.settings = some s
  not_paid : a.feePaid = false
  ended : a.endTimestamp ≤ getCurrentTimestamp w.clock
  fee : calculateFee a.topBid s.facilitatorFee = .ok f
  owner : ∃ authority, w.authority = some authority ∧
    T.Holds w.ledger ctx.feeTokenAccount a.paymentMint authority.owner
  tokens : T.transfer ctx.paymentTreasury ctx.feeTokenAccount (.auction v) f w.ledger = some L

theorem endAuction_effect {ctx : End} {f : UInt64} (h : endAuction v w ctx = .ok (w', f)) :
    ∃ a s L, ctx.Effect v w f a s L ∧
      w' = { w with ledger := L, auction := some { a with feePaid := true } } := by
  simp only [endAuction, bind_ok_iff] at h
  obtain ⟨c, hc, h⟩ := h
  simp only [End.load, World.loadAuthority, World.loadAuction, World.loadSettings, loadToken, bind_ok_iff,
    pure_ok_iff, ensure_ok_iff, okOr_ok_iff] at hc
  obtain ⟨authority, hauth, a, ha, s, hs, _, _, fee, hfee, _, htreasury, _, hsettings, _, hmint, _, howner, rfl⟩ :=
    hc
  simp only [End.handler, End.transferFeeToOwner, assertFeeNotDelivered, assertAuctionHasEnded, bind_ok_iff,
    pure_ok_iff, failIf_ok_iff, okOr_ok_iff, Prod.mk.injEq] at h
  obtain ⟨_, hpaid, _, hended, _, hf, L, hL, rfl, rfl⟩ := h
  exact ⟨a, s, L, {
    auction := ha
    treasury := htreasury
    settings := hsettings ▸ hs
    not_paid := by simpa using hpaid
    ended := UInt64.not_lt.mp hended
    fee := hf
    owner := ⟨authority, hauth, hmint ▸ howner ▸ TokenProgram.holds_of_account hfee⟩
    tokens := hL }, rfl⟩

/-! ## claim -/

structure Claim.Effect (v : Pubkey) (w : World V) (ctx : Claim) (n : UInt64) (a : Auction) (vault : V.State)
    (L : T.Ledger) : Prop where
  auction : w.auction = some a
  ended : a.endTimestamp ≤ getCurrentTimestamp w.clock
  winner : ctx.bidder.key = a.topBidder
  tokens : V.withdraw (ctx.withdrawContext v) n w.vault w.ledger = some (vault, L)

theorem claim_effect {ctx : Claim} {n : UInt64} (h : claim v w ctx n = .ok w') :
    ∃ a vault L, ctx.Effect v w n a vault L ∧ w' = { w with vault, ledger := L } := by
  simp only [claim, bind_ok_iff] at h
  obtain ⟨a, hc, h⟩ := h
  simp only [Claim.load, World.loadAuthority, World.loadAuction, World.loadSettings, loadToken, loadMint,
    bind_ok_iff, pure_ok_iff, ensure_ok_iff, okOr_ok_iff] at hc
  obtain ⟨_, _, a, ha, _, _, _, _, _, _, _, _, rfl⟩ := hc
  simp only [Claim.handler, assertAuctionHasEnded, assertAuctionWinner, bind_ok_iff, pure_ok_iff, failIf_ok_iff,
    okOr_ok_iff, not_not] at h
  obtain ⟨_, hended, _, hwinner, ⟨vault, L⟩, hL, rfl⟩ := h
  exact ⟨a, vault, L, ⟨ha, UInt64.not_lt.mp hended, hwinner.symm, hL⟩, rfl⟩

/-! ## redeem -/

structure Redeem.Effect (v : Pubkey) (w : World V) (ctx : Redeem) (n p : UInt64) (a : Auction)
    (vault : V.State) (L : T.Ledger) : Prop where
  auction : w.auction = some a
  treasury : a.paymentTreasury = ctx.paymentTreasury
  mint : (V.vault w.vault).fractionMint = ctx.fractionMint
  paid : a.feePaid = true
  ended : a.endTimestamp ≤ getCurrentTimestamp w.clock
  tokens : ∃ treasury source supply L₁ L₂,
    T.account w.ledger ctx.paymentTreasury = some treasury ∧
    T.account w.ledger ctx.sourceTokenAccount = some source ∧ source.amount = n ∧
    T.supply w.ledger ctx.fractionMint = some supply ∧
    V.redeemShares (ctx.redeemContext v) w.vault w.ledger = some (vault, L₁) ∧
    calculateRedeemPayment treasury.amount n supply = .ok p ∧
    T.transfer ctx.paymentTreasury ctx.destinationTokenAccount (.auction v) p L₁ = some L₂ ∧
    ctx.closePaymentTreasury v L₂ = .ok L

theorem redeem_effect {ctx : Redeem} {n p : UInt64} (h : redeem v w ctx = .ok (w', n, p)) :
    ∃ a vault L, ctx.Effect v w n p a vault L ∧ w' = { w with vault, ledger := L } := by
  simp only [redeem, bind_ok_iff] at h
  obtain ⟨c, hc, h⟩ := h
  simp only [Redeem.load, World.loadAuction, World.loadSettings, loadToken, loadMint, bind_ok_iff, pure_ok_iff,
    ensure_ok_iff, okOr_ok_iff] at hc
  obtain ⟨a, ha, _, _, treasury, htreasury, _, _, source, hsource, _, _, supply, hsupply, _, hkey, _, _, _, hmint,
    _, _, _, _, _, _, rfl⟩ := hc
  simp only [Redeem.handler, Redeem.transferToRedeemer, assertAuctionHasEnded, assertFeeDelivered, bind_ok_iff,
    pure_ok_iff, failIf_ok_iff, okOr_ok_iff, Prod.mk.injEq] at h
  obtain ⟨_, hended, _, hpaid, ⟨vault, L₁⟩, hL₁, p, hp, L₂, hL₂, L, hL, rfl, rfl, rfl⟩ := h
  exact ⟨a, vault, L, {
    auction := ha
    treasury := hkey
    mint := hmint
    paid := by simpa using hpaid
    ended := UInt64.not_lt.mp hended
    tokens := ⟨treasury, source, supply, L₁, L₂, htreasury, hsource, rfl, hsupply, hL₁, hp, hL₂, hL⟩ }, rfl⟩

end FractionAuction.AuctionProgram
