import FractionAuction.AuctionProgram.Lemmas.Redemption
import FractionAuction.AuctionProgram.SampleVault

/-!
# Theorems about redemptions
-/

namespace FractionAuction.AuctionProgram

open Lts Pubkey

variable {T : TokenProgram Pubkey} {V : VaultProgram T} {v : Pubkey} {w₀ w w' : World V} {es : List Event}

/-! ## Redemption is not cut off -/

/-- If `end` leaves something in the treasury, the treasury is there until the last fraction is redeemed. -/
theorem redemption_open (hT : T.Lawful) (hV : V.Lawful) (h₀ : Genesis w₀)
    (h : Run (restrict (Step v) LeavesSurplus) w₀ es w) {a : Auction} (ha : w.auction = some a)
    (hpaid : a.feePaid = true) (hpos : 0 < w.fractions) : RedemptionOpen v w a := by
  have hr := Redeemable.run hT hV h₀ h
  exact {
    treasury := (hr.treasury_open ha hpaid hpos).1
    redeems := fun hctx hcall => hr.redeems hT hV ha hpaid hctx hcall hpos }

/-- A bid of 100 over a reserve price of 20, and the first of the two fractions. -/
def firstRedemption : List Event :=
  setUp 100000000 100000000 ++ [.start startCall 100 20, .tick closingTime, .endAuction endCall 10,
    .redeem (redeemCall 71 72 70) 1 35]

theorem redemption_open_first : ∃ (w₀ w : Concrete) (a : Auction), Genesis w₀ ∧
    Run (restrict (Step vaultKey) LeavesSurplus) w₀ firstRedemption w ∧ w.auction = some a ∧
      w.fractions = 1 ∧ RedemptionOpen vaultKey w a := by
  obtain ⟨w₀, w, h₀, h, ⟨a, ha, hpaid⟩, hleft⟩ := market_run 10 1 1 LeavesSurplus firstRedemption
    (fun w => (∃ a ∈ w.auction, a.feePaid = true) ∧ w.fractions = 1) (by decide +kernel)
  exact ⟨w₀, w, a, h₀, h, ha, hleft,
    redemption_open TokenLedger.program_lawful SampleVault.lawful h₀ h ha hpaid (by omega)⟩

/-- The only bid is the reserve price, and there is no fee. -/
def bareReserve : List Event :=
  setUp 100000000 0 ++ [.start startCall 20 20, .tick closingTime, .endAuction endCall 0,
    .redeem (redeemCall 71 72 70) 1 0]

/-- The treasury is empty from the start, so the first redemption closes it. The other holder is locked out,
although the vault program would pay for the fraction. -/
theorem redemption_cut_off : ∃ (w₀ w : Concrete) (a : Auction), Genesis w₀ ∧
    Run (Step vaultKey) w₀ bareReserve w ∧ w.auction = some a ∧ a.feePaid = true ∧ w.fractions = 1 ∧
      (TokenLedger.program Pubkey).balance w.ledger (key 81) = 1 ∧
      (SampleVault.redeemShares ((redeemCall 81 82 80).redeemContext vaultKey) w.vault w.ledger).isSome ∧
      (redeem vaultKey w (redeemCall 81 82 80)).toOption.isNone ∧
      (TokenLedger.program Pubkey).account w.ledger a.paymentTreasury = none ∧
      ¬ RedemptionOpen vaultKey w a := by
  obtain ⟨w₀, w, h₀, h, ⟨a, ha, hpaid, hclosed⟩, hleft, hbal, hcall, hfails⟩ := market_run 10 1 1
    (fun _ _ => True) bareReserve (fun w => (∃ a ∈ w.auction, a.feePaid = true ∧
      (TokenLedger.program Pubkey).account w.ledger a.paymentTreasury = none) ∧ w.fractions = 1 ∧
      (TokenLedger.program Pubkey).balance w.ledger (key 81) = 1 ∧
      (SampleVault.redeemShares ((redeemCall 81 82 80).redeemContext vaultKey) w.vault w.ledger).isSome ∧
      (redeem vaultKey w (redeemCall 81 82 80)).toOption.isNone) (by decide +kernel)
  refine ⟨w₀, w, a, h₀, h.of_restrict, ha, hpaid, hleft, hbal, hcall, hfails, hclosed, fun hopen => ?_⟩
  obtain ⟨n, hn⟩ := hopen.treasury
  cases hclosed.symm.trans hn

/-! ## Redemption pays everything out -/

/-- As long as only redemptions change the treasury and the supply and none pays into the treasury, late holders
are paid no worse, and all of the treasury is paid out with the last fraction. -/
theorem treasury_paid_out (hT : T.Lawful) (hV : V.Lawful) {a : Auction} (ha : w.auction = some a)
    (hpos : 0 < w.fractions) (h : Run (Undisturbed v a.paymentTreasury) w es w') : PaysOut v a w es w' :=
  PaysOut.run hT hV ha hpos h

/-- A redemption that is paid outside of the treasury. -/
def Event.redeemsFrom (treasury : Pubkey) : Event → Bool
  | .redeem ctx _ _ => ctx.destinationTokenAccount ≠ treasury
  | _ => false

theorem Undisturbed.of_redeemsFrom {treasury : Pubkey} {e : Event} (h : Step v w e w')
    (he : e.redeemsFrom treasury = true) : Undisturbed v treasury w e w' := by
  cases e with
  | redeem ctx n p => exact ⟨h, of_decide_eq_true he⟩
  | init _ | setOwner _ _ | createSettings _ _ _ _ _ | start _ _ _ | placeBid _ _ | withdrawBid _ _
  | endAuction _ _ | claim _ _ | tick _ | outside _ => cases he

/-- One bid over a reserve price of 70, with a fee of a tenth. -/
def ended : List Event :=
  setUp 100000000 100000000 ++ [.start startCall 150 70, .tick closingTime, .endAuction endCall 15]

/-- Both holders redeem, three fractions and four. -/
def redeemAll : List Event := [.redeem (redeemCall 71 72 70) 3 27, .redeem (redeemCall 81 82 80) 4 38]

theorem treasury_paid_out_all : ∃ (w₀ w w' : Concrete) (a : Auction), Genesis w₀ ∧
    Run (Step vaultKey) w₀ ended w ∧ w.auction = some a ∧ w.fractions = 7 ∧
      (TokenLedger.program Pubkey).balance w.ledger a.paymentTreasury = 65 ∧
      Run (Undisturbed vaultKey a.paymentTreasury) w redeemAll w' ∧ PaysOut vaultKey a w redeemAll w' := by
  obtain ⟨w₀, w, h₀, h, ⟨a, ha, htreasury, hbal⟩, hfractions, hnext⟩ := market_run 10 3 4 (fun _ _ => True) ended
    (fun w => (∃ a ∈ w.auction, a.paymentTreasury = key 50 ∧
      (TokenLedger.program Pubkey).balance w.ledger a.paymentTreasury = 65) ∧ w.fractions = 7 ∧
      (redeemAll.foldlM (World.attempt vaultKey fun _ e => e.redeemsFrom (key 50) = true) w).any
        (fun _ => True) = true) (by decide +kernel)
  obtain ⟨w', hrun, -⟩ := run_of_attempts vaultKey _ hnext
  have hredeem : Run (Undisturbed vaultKey a.paymentTreasury) w redeemAll w' :=
    hrun.mono fun _ _ _ hstep => htreasury ▸ .of_redeemsFrom hstep.1 hstep.2
  exact ⟨w₀, w, w', a, h₀, h.of_restrict, ha, hfractions, hbal, hredeem,
    treasury_paid_out TokenLedger.program_lawful SampleVault.lawful ha (by omega) hredeem⟩

/-- A bid of 100 for fractions that cost nothing. -/
def endedFree : List Event :=
  setUp 100000000 0 ++ [.start startCall 100 0, .tick closingTime, .endAuction endCall 0]

/-- The first holder names the treasury as the destination. -/
def selfPaid : List Event := [.redeem (redeemCall 71 50 70) 1 50, .redeem (redeemCall 81 82 80) 1 100]

/-- A payment from the treasury to itself stays there: the payments of all fractions are more than the treasury,
although the vault program paid nothing into it. -/
theorem treasury_paid_twice : ∃ (w₀ w w' : Concrete) (a : Auction), Genesis w₀ ∧
    Run (Step vaultKey) w₀ endedFree w ∧ w.auction = some a ∧ w.fractions = 2 ∧
      (TokenLedger.program Pubkey).balance w.ledger a.paymentTreasury = 100 ∧
      (TokenLedger.program Pubkey).balance w.ledger (key 6) = 0 ∧ Run (Step vaultKey) w selfPaid w' ∧
      ((redemptions selfPaid).map Prod.fst).sum = 2 ∧ ((redemptions selfPaid).map Prod.snd).sum = 150 ∧
      ¬ PaysOut vaultKey a w selfPaid w' := by
  obtain ⟨w₀, w, h₀, h, ⟨a, ha, hbal⟩, hfractions, hvault, hnext⟩ := market_run 0 1 1 (fun _ _ => True) endedFree
    (fun w => (∃ a ∈ w.auction, (TokenLedger.program Pubkey).balance w.ledger a.paymentTreasury = 100) ∧
      w.fractions = 2 ∧ (TokenLedger.program Pubkey).balance w.ledger (key 6) = 0 ∧
      (selfPaid.foldlM (World.attempt vaultKey fun _ _ => True) w).any (fun _ => True) = true)
    (by decide +kernel)
  obtain ⟨w', hrun, -⟩ := run_of_attempts vaultKey _ hnext
  have hin : ((redemptions selfPaid).map Prod.fst).sum = 2 := by decide
  have hout : ((redemptions selfPaid).map Prod.snd).sum = 150 := by decide
  refine ⟨w₀, w, w', a, h₀, h.of_restrict, ha, hfractions, hbal, hvault, hrun.of_restrict, hin, hout, ?_⟩
  intro hp
  have hall := (hp.all (hin.trans hfractions.symm)).1
  rw [hout, hbal] at hall
  exact absurd hall (by decide)

end FractionAuction.AuctionProgram
