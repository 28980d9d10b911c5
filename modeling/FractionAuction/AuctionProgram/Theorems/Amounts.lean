import FractionAuction.AuctionProgram.Lemmas.Amounts
import FractionAuction.AuctionProgram.SampleVault

/-!
# Theorems about amounts
-/

namespace FractionAuction.AuctionProgram

open Lts Pubkey

variable {T : TokenProgram Pubkey} {V : VaultProgram T} {v : Pubkey}

/-! ## The prices -/

/-- A fee and a payment for fractions are always exact or fail. The minimum of `start` is so exactly where the reserve
price is small against what the fee leaves, the increment exactly where top bid and rate are small. -/
theorem amounts_exact (reserve topBid increment treasury : UInt64) {f a supply : UInt64}
    (hf : f ≤ maxFacilitatorFee) (ha : a ≤ supply) :
    (ExactOrFails (calculateMinimumStartingBid reserve f) reserve.toNat 1000000000 (1000000000 - f.toNat) ↔
      f = maxFacilitatorFee ∨ reserve.toNat * 1000000000 < 2 ^ 64 * (1000000000 - f.toNat)) ∧
    (ExactOrFails (calculateMinimumBidIncrease topBid increment) topBid.toNat increment.toNat 1000000000 ↔
      topBid.toNat * increment.toNat < 2 ^ 64 * 1000000000) ∧
    ExactOrFails (calculateFee topBid f) topBid.toNat f.toNat 1000000000 ∧
    ExactOrFails (calculateRedeemPayment treasury a supply) treasury.toNat a.toNat supply.toNat :=
  ⟨startingBid_exact_iff hf, bidIncrease_exact_iff, mulDiv_exact_of_le hf, mulDiv_exact_of_le ha⟩

theorem amounts_exact_tenth :
    ExactOrFails (calculateMinimumStartingBid 90 100000000) 90 1000000000 900000000 ∧
    ExactOrFails (calculateMinimumBidIncrease 200 100000000) 200 100000000 1000000000 ∧
    ExactOrFails (calculateFee 200 100000000) 200 100000000 1000000000 ∧
    ExactOrFails (calculateRedeemPayment 65 3 7) 65 3 7 := by
  have hrate : (100000000 : UInt64) ≤ maxFacilitatorFee := by decide
  have hpart : (3 : UInt64) ≤ 7 := by decide
  obtain ⟨hstart, hincrease, hfee, hredeem⟩ := amounts_exact 90 200 100000000 65 hrate hpart
  exact ⟨hstart.mpr (.inr (by decide)), hincrease.mpr (by decide), hfee, hredeem⟩

/-- A fee that leaves one part in 10^9 takes the minimum beyond a word, an increment of twice the top bid does so from
half of all words on. -/
theorem amounts_truncated :
    calculateMinimumStartingBid 18446744074 999999999 = .ok 290448384 ∧
      ¬ ExactOrFails (calculateMinimumStartingBid 18446744074 999999999) 18446744074 1000000000 1 ∧
    calculateMinimumBidIncrease 9223372036854775808 2000000000 = .ok 0 ∧
      ¬ ExactOrFails (calculateMinimumBidIncrease 9223372036854775808 2000000000)
        9223372036854775808 2000000000 1000000000 := by
  have hminimum : calculateMinimumStartingBid 18446744074 999999999 = .ok 290448384 :=
    calculateMinimumStartingBid_ok.mpr ⟨by decide, rfl⟩
  have hincrease : calculateMinimumBidIncrease 9223372036854775808 2000000000 = .ok 0 :=
    calculateMinimumBidIncrease_ok.mpr rfl
  refine ⟨hminimum, fun h => ?_, hincrease, fun h => ?_⟩
  · exact absurd ((h.ok _).mp hminimum).2 (by decide)
  · exact absurd ((h.ok _).mp hincrease).2 (by decide)

/-! ## Redemptions in parts -/

/-- Redeeming amounts one after another succeeds, pays no more than redeeming all of them at once, less than one
unit for each amount but the first below it, and leaves the same supply. So does any run of redemptions around a
vault with nothing in between. -/
theorem split_redemption (hT : T.Lawful) (hV : V.Lawful) :
    (∀ (treasury supply : UInt64) (amounts : List UInt64), 0 < supply → (∀ a ∈ amounts, 0 < a) →
      (amounts.map UInt64.toNat).sum ≤ supply.toNat →
      ∃ payments treasury' supply' payment whole,
        redeemInTurn treasury supply amounts = .ok (payments, treasury', supply') ∧
        whole.toNat = (amounts.map UInt64.toNat).sum ∧
        calculateRedeemPayment treasury whole supply = .ok payment ∧
        (payments.map UInt64.toNat).sum ≤ payment.toNat ∧
        payment.toNat ≤ (payments.map UInt64.toNat).sum + (amounts.length - 1) ∧ supply' = supply - whole) ∧
    ∀ (w w' : World V) (es : List Event) (a : Auction), w.auction = some a → 0 < w.fractions →
      Run (Undisturbed v a.paymentTreasury) w es w' →
        ((redemptions es).map Prod.snd).sum ≤
          (w.pool a.paymentTreasury).pay ((redemptions es).map Prod.fst).sum ∧
        (w.pool a.paymentTreasury).pay ((redemptions es).map Prod.fst).sum ≤
          ((redemptions es).map Prod.snd).sum + ((redemptions es).length - 1) ∧
        w'.fractions + ((redemptions es).map Prod.fst).sum = w.fractions := by
  constructor
  · intro treasury supply amounts hsupply hpos hsum
    obtain ⟨payments, treasury', supply', es, hturn, hrun, hfst, hsnd⟩ :=
      @redeemInTurn_run amounts treasury supply hpos hsum
    have hs : 0 < supply.toNat := UInt64.lt_iff_toNat_lt.mp hsupply
    have hwhole : (UInt64.ofNat (amounts.map UInt64.toNat).sum).toNat = (amounts.map UInt64.toNat).sum :=
      FixedPoint.toNat_narrow_of_lt (lt_of_le_of_lt hsum (FixedPoint.toNat_lt supply))
    obtain ⟨payment, hpay, hpayment, -⟩ := calculateRedeemPayment_total (t := treasury) hs
      (hwhole.trans_le hsum)
    have hle := Pool.run_split_le (by exact hs) hrun
    have hge := Pool.run_split_ge (by exact hs) hrun
    have hleft := (Pool.run_totals hrun).2
    have hlength : es.length = amounts.length := by
      rw [← List.length_map (f := Prod.fst), hfst, List.length_map]
    rw [hfst, hsnd] at hle hge
    rw [hfst] at hleft
    rw [hlength] at hge
    rw [hwhole] at hpayment
    refine ⟨payments, treasury', supply', payment, _, hturn, hwhole, hpay, ?_, ?_, ?_⟩
    · rw [hpayment]
      exact hle
    · rw [hpayment]
      exact hge
    · rw [← UInt64.toNat_inj, FixedPoint.toNat_sub_of_le (hwhole.trans_le hsum), hwhole]
      dsimp only at hleft
      omega
  · intro w w' es a ha hpos h
    have hrun := pool_run hT hV ha h
    exact ⟨Pool.run_split_le hpos hrun, Pool.run_split_ge hpos hrun, (Pool.run_totals hrun).2⟩

theorem split_redemption_three : redeemInTurn 7 5 [1, 1, 1] = .ok ([1, 1, 1], 4, 2) ∧
    calculateRedeemPayment 7 3 5 = .ok 4 ∧
    ∃ payments treasury' supply' payment whole,
      redeemInTurn 7 5 [1, 1, 1] = .ok (payments, treasury', supply') ∧
      whole.toNat = ([1, 1, 1].map UInt64.toNat).sum ∧ calculateRedeemPayment 7 whole 5 = .ok payment ∧
      (payments.map UInt64.toNat).sum ≤ payment.toNat ∧
      payment.toNat ≤ (payments.map UInt64.toNat).sum + 2 ∧ supply' = 5 - whole :=
  ⟨by decide +kernel, by decide +kernel,
    (split_redemption (v := vaultKey) TokenLedger.program_lawful SampleVault.lawful).1 7 5 [1, 1, 1] (by decide)
      (by simp) (by decide)⟩

end FractionAuction.AuctionProgram
