import FractionAuction.AuctionProgram.Lemmas.Outcome
import FractionAuction.Library.ProRata

/-!
# Redemptions

Once the fee is paid the treasury is a pool that the fractions share.
-/

namespace FractionAuction.AuctionProgram

open FixedPoint Lts

variable {T : TokenProgram Pubkey} {V : VaultProgram T} {v : Pubkey} {w w' : World V} {e : Event}
  {es : List Event}

/-! ## The treasury stays open -/

def World.fractions (w : World V) : ℕ := T.outstanding w.ledger (V.vault w.vault).fractionMint

/-- An `end` after which something is left in the treasury. -/
def LeavesSurplus (w : World V) : Event → Prop
  | .endAuction _ _ => ∀ a ∈ w.auction, ∀ s ∈ w.settings a.settings,
      a.topBid.toNat * s.facilitatorFee.toNat / 1000000000 < T.balance w.ledger a.paymentTreasury
  | _ => True

instance (w : World V) (e : Event) : Decidable (LeavesSurplus w e) :=
  match e with
  | .endAuction _ _ => inferInstanceAs (Decidable (∀ a ∈ w.auction, _))
  | .init _ | .setOwner _ _ | .createSettings _ _ _ _ _ | .start _ _ _ | .placeBid _ _ | .withdrawBid _ _
  | .claim _ _ | .redeem _ _ _ | .tick _ | .outside _ => inferInstanceAs (Decidable True)

/-- While there are fractions to redeem, the treasury is there and is not empty. -/
structure Redeemable (v : Pubkey) (w : World V) : Prop extends Custody v w where
  treasury_open {a} : w.auction = some a → a.feePaid = true → 0 < w.fractions →
    T.Holds w.ledger a.paymentTreasury a.paymentMint (.auction v) ∧ 0 < T.balance w.ledger a.paymentTreasury

/-- A step that takes nothing from the treasury and adds no fractions. -/
theorem Redeemable.congr (hr : Redeemable v w) (hc : Custody v w') (ha : w'.auction = w.auction)
    (hf : w'.fractions ≤ w.fractions)
    (hkeep : ∀ a ∈ w.auction, T.Holds w.ledger a.paymentTreasury a.paymentMint (.auction v) →
      T.Holds w'.ledger a.paymentTreasury a.paymentMint (.auction v) ∧
        T.balance w.ledger a.paymentTreasury ≤ T.balance w'.ledger a.paymentTreasury) :
    Redeemable v w' := by
  refine ⟨hc, fun {a} h hp hpos => ?_⟩
  rw [ha] at h
  obtain ⟨hold, hbal⟩ := hr.treasury_open h hp (lt_of_lt_of_le hpos hf)
  obtain ⟨hold', hle⟩ := hkeep a h hold
  exact ⟨hold', lt_of_lt_of_le hbal hle⟩

section Instructions

variable (hT : T.Lawful) (hV : V.Lawful)
include hT

theorem Redeemable.endAuction (hr : Redeemable v w) {ctx : End} {f : UInt64}
    (h : endAuction v w ctx = .ok (w', f)) (hleaves : LeavesSurplus w (.endAuction ctx f)) :
    Redeemable v w' := by
  refine ⟨hr.toCustody.endAuction hT h, ?_⟩
  obtain ⟨a, s, L, he, rfl⟩ := endAuction_effect h
  have hsurplus := hleaves a he.auction s he.settings
  have hfee := calculateFee_toNat he.fee (hr.rates _ _ he.settings)
  have hold := hr.treasury he.auction he.not_paid
  have htransfer := he.tokens
  rw [← he.treasury] at htransfer
  intro a' ha' _ _
  cases ha'
  refine ⟨(hT.transfer_holds htransfer).mpr hold, ?_⟩
  by_cases hself : a.paymentTreasury = ctx.feeTokenAccount
  · rw [← hself] at htransfer
    have hsame := congrFun (hT.transfer_self htransfer) a.paymentTreasury
    change 0 < T.balance L a.paymentTreasury
    rw [TokenProgram.balance_congr hsame]
    omega
  · have hbal := hT.transfer_balance_source htransfer hself
    change 0 < T.balance L a.paymentTreasury
    omega

include hV

theorem Redeemable.redeem (hr : Redeemable v w) {ctx : Redeem} {n p : UInt64}
    (h : redeem v w ctx = .ok (w', n, p)) : Redeemable v w' := by
  refine ⟨hr.toCustody.redeem hT hV h, ?_⟩
  obtain ⟨a, vault, L, he, rfl⟩ := redeem_effect h
  have hm := he.money hT hV
  obtain ⟨_, _, _, _, _, _, _, _, _, hcall, _⟩ := he.tokens
  have hmint : (V.vault vault).fractionMint = ctx.fractionMint := (hV.redeem_mints hcall).1.trans he.mint
  intro a' ha' hp hpos
  obtain rfl : a = a' := Option.some.inj (he.auction.symm.trans ha')
  have hleft : 0 < T.outstanding L ctx.fractionMint := hmint ▸ hpos
  have hburned := hm.burned
  have hbefore : 0 < w.fractions := by
    unfold World.fractions
    rw [he.mint]
    exact hm.supply_pos
  obtain ⟨hold, hbal⟩ := hr.treasury_open ha' hp hbefore
  have hstill : 0 < T.balance L a.paymentTreasury := by
    by_cases hself : ctx.destinationTokenAccount = a.paymentTreasury
    · exact lt_of_lt_of_le hbal (hm.treasury_ge hself)
    · -- a payment for fewer than all fractions leaves something
      have hpool : Pool.Redeem ⟨T.balance w.ledger a.paymentTreasury, T.outstanding w.ledger ctx.fractionMint⟩
          (n.toNat, p.toNat) ⟨T.balance L a.paymentTreasury, T.outstanding L ctx.fractionMint⟩ :=
        ⟨by dsimp only; omega, hm.supply_pos, hm.share, hm.treasury_balance hself, hburned⟩
      exact (hpool.treasury_pos hbal).mpr hleft
  exact ⟨hm.treasury_open hold hstill, hstill⟩

theorem Redeemable.step (hr : Redeemable v w) (h : restrict (Step v) LeavesSurplus w e w') :
    Redeemable v w' := by
  obtain ⟨hstep, hleaves⟩ := h
  have hc := hr.toCustody.step hT hV hstep
  cases hstep with
  | init hi =>
      obtain rfl := Init.effect hi
      exact hr.congr hc rfl le_rfl (fun _ _ hm => ⟨hm, le_rfl⟩)
  | setOwner ho =>
      obtain rfl := SetAuthority.effect ho
      exact hr.congr hc rfl le_rfl (fun _ _ hm => ⟨hm, le_rfl⟩)
  | createSettings hs =>
      obtain ⟨-, -, rfl⟩ := CreateSettings.effect hs
      exact hr.congr hc rfl le_rfl (fun _ _ hm => ⟨hm, le_rfl⟩)
  | start hs =>
      obtain ⟨s, vault, L, he, rfl⟩ := start_effect hs
      refine ⟨hc, ?_⟩
      intro a' ha' hp
      cases ha'
      cases hp
  | placeBid hb =>
      obtain ⟨a, s, top, L, he, rfl⟩ := placeBid_effect hb
      have hpaid := hr.running he
      refine ⟨hc, ?_⟩
      intro a' ha' hp
      cases ha'
      exact absurd (hp.symm.trans hpaid) (by decide)
  | withdrawBid hw =>
      obtain ⟨a, b, L, he, rfl⟩ := withdrawBid_effect hw
      have hm := he.money hT
      refine hr.congr hc rfl ?_ (fun a' ha' hold => ?_)
      · unfold World.fractions TokenProgram.outstanding
        rw [hm.supply]
      · have hne : a'.paymentTreasury ≠ _ := he.escrow ▸ (hr.apart ha' he.bid).symm
        exact ⟨hm.holds hne hold, hm.gains hne⟩
  | endAuction hend => exact hr.endAuction hT hend hleaves
  | claim hcl =>
      obtain ⟨a, vault, L, he, rfl⟩ := claim_effect hcl
      obtain ⟨hmint, -, hsupply⟩ := hV.withdraw_mints he.tokens
      have hpays := hV.withdraw_pays he.tokens
      refine hr.congr hc rfl ?_ (fun a' _ hold => ⟨hpays.holds rfl hold, hpays.gains rfl hold⟩)
      unfold World.fractions TokenProgram.outstanding
      rw [hmint, hsupply]
  | redeem hred => exact hr.redeem hT hV hred
  | tick _ => exact hr.congr hc rfl le_rfl (fun _ _ hm => ⟨hm, le_rfl⟩)
  | outside ho =>
      have hin := Pubkey.inAuction_auction v
      refine ⟨hc, fun {a} ha hp hpos => ?_⟩
      rw [ho.auction] at ha
      have hfewer : w'.fractions ≤ w.fractions := by
        unfold World.fractions
        rw [ho.fractionMint]
        exact ho.fractions (by simp [ha])
      obtain ⟨hold, hbal⟩ := hr.treasury_open ha hp (lt_of_lt_of_le hpos hfewer)
      refine ⟨ho.holds hin hold, ?_⟩
      rw [ho.kept hin hold]
      omega

theorem Redeemable.run {w₀ : World V} (h₀ : Genesis w₀) (h : Run (restrict (Step v) LeavesSurplus) w₀ es w) :
    Redeemable v w :=
  h.invariant (fun _ _ _ hr hstep => hr.step hT hV hstep)
    ⟨Custody.genesis h₀, fun ha => by simp [h₀.auction] at ha⟩

end Instructions

/-! ## A redemption succeeds -/

/-- The caller names the accounts of this auction and of its vault, a source of fractions, and a destination for
the payment. -/
structure Redeem.WellAddressed (w : World V) (ctx : Redeem) (a : Auction) : Prop where
  settings : ctx.settings = a.settings
  paymentTreasury : ctx.paymentTreasury = a.paymentTreasury
  fractionMint : ctx.fractionMint = (V.vault w.vault).fractionMint
  redeemTreasury : ctx.redeemTreasury = (V.vault w.vault).redeemTreasury
  redeem_treasury : ∃ m o, T.Holds w.ledger ctx.redeemTreasury m o
  source : ∃ x, T.account w.ledger ctx.sourceTokenAccount = some x ∧ x.mint = ctx.fractionMint
  destination : ∃ o, T.Holds w.ledger ctx.destinationTokenAccount a.paymentMint o

theorem Redeem.closes (hT : T.Lawful) {ctx : Redeem} {L : T.Ledger} {m : Pubkey}
    (h : T.Holds L ctx.paymentTreasury m (.auction v)) : ∃ L', ctx.closePaymentTreasury v L = .ok L' := by
  obtain ⟨n, hn⟩ := h
  simp only [Redeem.closePaymentTreasury, loadToken, Guard.bind_ok_iff, Guard.okOr_ok_iff]
  by_cases hzero : n = 0
  · obtain ⟨L', hL'⟩ := hT.closeAccount_total hn hzero
    refine ⟨L', _, hn, ?_⟩
    rw [if_pos hzero]
    exact Guard.okOr_ok_iff.mpr hL'
  · refine ⟨L, _, hn, ?_⟩
    rw [if_neg hzero]
    exact Guard.pure_ok_iff.mpr rfl

theorem Redeemable.redeems (hr : Redeemable v w) (hT : T.Lawful) (hV : V.Lawful) {ctx : Redeem} {a : Auction}
    {vault : V.State} {L₁ : T.Ledger} (ha : w.auction = some a) (hp : a.feePaid = true)
    (hctx : ctx.WellAddressed w a)
    (hcall : V.redeemShares (ctx.redeemContext v) w.vault w.ledger = some (vault, L₁)) (hpos : 0 < w.fractions) :
    ∃ w' n p, AuctionProgram.redeem v w ctx = .ok (w', n, p) := by
  obtain ⟨⟨t, ht⟩, -⟩ := hr.treasury_open ha hp hpos
  obtain ⟨s, hs⟩ := hr.settings ha
  obtain ⟨_, _, r, hredeem⟩ := hctx.redeem_treasury
  obtain ⟨x, hx, hxm⟩ := hctx.source
  obtain ⟨o, d, hd⟩ := hctx.destination
  obtain ⟨n, hn, hn0⟩ : ∃ n, T.supply w.ledger ctx.fractionMint = some n ∧ n.toNat ≠ 0 := by
    unfold World.fractions TokenProgram.outstanding at hpos
    rw [← hctx.fractionMint] at hpos
    cases h : T.supply w.ledger ctx.fractionMint with
    | none => simp [h] at hpos
    | some n => exact ⟨n, rfl, by simpa [h] using hpos.ne'⟩
  -- the payment is within the treasury, which the call to the vault leaves alone
  obtain ⟨hburn, -⟩ := hV.redeem_burns hcall hx hn
  obtain ⟨p, hpay, -, hle⟩ := calculateRedeemPayment_total (t := t) (Nat.pos_of_ne_zero hn0)
    (UInt64.le_iff_toNat_le.mp hburn)
  obtain ⟨t₁, ht₁⟩ := (hV.redeem_holds hcall).mpr ⟨t, ht⟩
  obtain ⟨d₁, hd₁⟩ := (hV.redeem_holds hcall).mpr ⟨d, hd⟩
  have hgain := (hV.redeem_pays hcall ctx.redeemer.not_escrow).gains rfl ⟨t, ht⟩
  rw [TokenProgram.balance_of_account ht, TokenProgram.balance_of_account ht₁] at hgain
  have hfunds : p ≤ t₁ := UInt64.le_iff_toNat_le.mpr (le_trans hle hgain)
  obtain ⟨L₂, h₂⟩ := hT.transfer_total ht₁ hd₁ rfl hfunds
  rw [← hctx.paymentTreasury] at h₂ ht ht₁
  obtain ⟨L, hL⟩ := Redeem.closes (v := v) hT ((hT.transfer_holds h₂).mpr ⟨t₁, ht₁⟩)
  refine ⟨{ w with vault, ledger := L }, x.amount, p, ?_⟩
  simp only [AuctionProgram.redeem, Redeem.load, Redeem.handler, World.loadAuction, World.loadSettings, loadToken,
    loadMint, Redeem.transferToRedeemer, assertAuctionHasEnded, assertFeeDelivered, Guard.bind_ok_iff,
    Guard.pure_ok_iff, Guard.ensure_ok_iff, Guard.failIf_ok_iff, Guard.okOr_ok_iff, hctx.settings]
  exact ⟨_, ⟨a, ha, s, hs, _, ht, _, hredeem, x, hx, _, hd, n, hn, (), hctx.paymentTreasury.symm, (), rfl, (),
    hctx.fractionMint.symm, (), hctx.redeemTreasury.symm, (), hxm, (), rfl, rfl⟩, (),
    UInt64.not_lt.mpr (hr.closed ha hp), (), by simp [hp], _, hcall, _, hpay, L₂, h₂, L, hL, rfl⟩

/-- The treasury is there, and a redemption that the vault program carries out goes through. -/
structure RedemptionOpen (v : Pubkey) (w : World V) (a : Auction) : Prop where
  treasury : T.Holds w.ledger a.paymentTreasury a.paymentMint (.auction v)
  redeems {ctx : Redeem} {vault L} : ctx.WellAddressed w a →
    V.redeemShares (ctx.redeemContext v) w.vault w.ledger = some (vault, L) →
    ∃ w' n p, AuctionProgram.redeem v w ctx = .ok (w', n, p)

/-! ## The pool -/

/-- What a redemption hands in and is paid. -/
def Event.redeemed : Event → List (ℕ × ℕ)
  | .redeem _ n p => [(n.toNat, p.toNat)]
  | _ => []

def redemptions (es : List Event) : List (ℕ × ℕ) := es.flatMap Event.redeemed

def World.pool (w : World V) (treasury : Pubkey) : Pool := ⟨T.balance w.ledger treasury, w.fractions⟩

/-- A step in which only redemptions change the pool, and none pays into the treasury. -/
def Undisturbed (v treasury : Pubkey) (w : World V) (e : Event) (w' : World V) : Prop :=
  Step v w e w' ∧ match e with
    | .redeem ctx _ _ => ctx.destinationTokenAccount ≠ treasury
    | _ => w'.pool treasury = w.pool treasury

theorem Undisturbed.refines (hT : T.Lawful) (hV : V.Lawful) {a : Auction} (ha : w.auction = some a)
    (h : Undisturbed v a.paymentTreasury w e w') :
    Run Pool.Redeem (w.pool a.paymentTreasury) e.redeemed (w'.pool a.paymentTreasury) := by
  obtain ⟨hstep, hquiet⟩ := h
  cases e with
  | redeem ctx n p =>
      cases hstep with
      | redeem hred =>
          obtain ⟨b, vault, L, he, rfl⟩ := redeem_effect hred
          obtain rfl : a = b := Option.some.inj (ha.symm.trans he.auction)
          have hm := he.money hT hV
          obtain ⟨_, _, _, _, _, _, _, _, _, hcall, _⟩ := he.tokens
          have hmint : (V.vault vault).fractionMint = ctx.fractionMint := (hV.redeem_mints hcall).1.trans he.mint
          have hburned := hm.burned
          refine .single ?_
          unfold World.pool World.fractions
          dsimp only
          rw [hmint, he.mint]
          exact ⟨by dsimp only; omega, hm.supply_pos, hm.share, hm.treasury_balance hquiet, hburned⟩
  | init _ | setOwner _ _ | createSettings _ _ _ _ _ | start _ _ _ | placeBid _ _ | withdrawBid _ _
  | endAuction _ _ | claim _ _ | tick _ | outside _ =>
      rw [hquiet]
      exact .nil

/-- A run in which only redemptions change the pool is a run of the pool. -/
theorem pool_run (hT : T.Lawful) (hV : V.Lawful) {a : Auction} (ha : w.auction = some a)
    (h : Run (Undisturbed v a.paymentTreasury) w es w') :
    Run Pool.Redeem (w.pool a.paymentTreasury) (redemptions es) (w'.pool a.paymentTreasury) := by
  obtain ⟨B, hB, rfl, -⟩ := h.simulate
    (R := fun u B => B = u.pool a.paymentTreasury ∧
      ∃ b, u.auction = some b ∧ b.paymentTreasury = a.paymentTreasury) Event.redeemed
    (fun u e u' B hR hstep => by
      obtain ⟨rfl, b, hb, htreasury⟩ := hR
      obtain ⟨b', hb', hlater⟩ := hstep.1.later.auction hb
      rw [← htreasury] at hstep ⊢
      exact ⟨_, hstep.refines hT hV hb, rfl, b', hb', hlater.paymentTreasury⟩) ⟨rfl, a, ha, rfl⟩
  exact hB

/-- All redemptions from `w` to `w'` together: each is paid out of the treasury and at least what it would have
been paid at first, shares are worth no less after it, and the last share empties the treasury. -/
structure PaysOut (v : Pubkey) (a : Auction) (w : World V) (es : List Event) (w' : World V) : Prop where
  payment {before u ctx n p u' after} :
    Passage (Undisturbed v a.paymentTreasury) w es w' before u (.redeem ctx n p) u' after →
      p.toNat ≤ T.balance u.ledger a.paymentTreasury ∧ (w.pool a.paymentTreasury).pay n.toNat ≤ p.toNat ∧
        (u.pool a.paymentTreasury).NoWorse (u'.pool a.paymentTreasury)
  all : ((redemptions es).map Prod.fst).sum = w.fractions →
    ((redemptions es).map Prod.snd).sum = T.balance w.ledger a.paymentTreasury ∧
      T.balance w'.ledger a.paymentTreasury = 0
  lasts : 0 < T.balance w.ledger a.paymentTreasury →
    (0 < T.balance w'.ledger a.paymentTreasury ↔ 0 < w'.fractions)

theorem PaysOut.run (hT : T.Lawful) (hV : V.Lawful) {a : Auction} (ha : w.auction = some a)
    (hpos : 0 < w.fractions) (h : Run (Undisturbed v a.paymentTreasury) w es w') : PaysOut v a w es w' := by
  have hpool := pool_run hT hV ha h
  constructor
  case payment =>
    intro before u ctx n p u' after hp
    have hbefore := pool_run hT hV ha hp.reached
    obtain ⟨b, hb, hlater⟩ := (later_of_run (hp.reached.mono fun _ _ _ h => h.1)).auction ha
    have htaken := hp.taken
    rw [← hlater.paymentTreasury] at htaken
    have hstep := (htaken.refines hT hV hb).step_of_single
    rw [hlater.paymentTreasury] at hstep
    have hpaid := hstep.paid
    refine ⟨?_, ?_, hstep.noWorse⟩
    · have := hstep.treasury
      change _ + p.toNat = T.balance u.ledger a.paymentTreasury at this
      omega
    · change p.toNat = _ at hpaid
      rw [hpaid]
      exact (Pool.run_noWorse hbefore).pay_le hpos hstep.some_shares
  case all =>
    intro hall
    have hout := Pool.run_pays_out hpos hpool hall
    have htotal := (Pool.run_totals hpool).1
    rw [hout] at htotal
    exact ⟨hout, Nat.add_eq_right.mp htotal⟩
  case lasts => exact fun htreasury => Pool.run_treasury_pos htreasury hpos hpool

end FractionAuction.AuctionProgram
