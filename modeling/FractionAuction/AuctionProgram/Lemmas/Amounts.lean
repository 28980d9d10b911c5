import FractionAuction.AuctionProgram.Lemmas.Redemption

/-!
# Amounts

The four prices are quotients that are narrowed without a check. Two of them always fit a word, the others exactly
where their arguments are small enough.
-/

namespace FractionAuction.AuctionProgram

open Guard FixedPoint Lts

/-! ## Exact quotients -/

/-- The call returns the quotient `x * y / d` over the integers. Where there is none, or it is not a word, it returns
an overflow. -/
structure ExactOrFails (r : Except ProgramError UInt64) (x y d : ℕ) : Prop where
  ok v : r = .ok v ↔ d ≠ 0 ∧ v.toNat = x * y / d
  error e : r = .error e → e = overflow

theorem mulDiv_exactOrFails {x y d : UInt64} :
    ExactOrFails (okOr (mulDiv x y d) overflow) x.toNat y.toNat d.toNat ↔
      d.toNat = 0 ∨ x.toNat * y.toNat / d.toNat < 2 ^ 64 := by
  constructor
  · intro h
    by_cases h0 : d.toNat = 0
    · exact .inl h0
    · have hok : okOr (mulDiv x y d) overflow = .ok (narrow (x.toNat * y.toNat / d.toNat)) :=
        okOr_ok_iff.mpr (mulDiv_eq_some.mpr ⟨h0, rfl⟩)
      exact .inr (toNat_narrow_iff.mp ((h.ok _).mp hok).2)
  · intro h
    refine ⟨fun v => ?_, fun e he => okOr_error he⟩
    rw [okOr_ok_iff, mulDiv_eq_some]
    refine and_congr_right fun h0 => ?_
    have hfits := h.resolve_left h0
    rw [← UInt64.toNat_inj, toNat_narrow_of_lt hfits]

theorem mulDiv_exact_of_le {x y d : UInt64} (h : y ≤ d) :
    ExactOrFails (okOr (mulDiv x y d) overflow) x.toNat y.toNat d.toNat :=
  mulDiv_exactOrFails.mpr
    (.inr (lt_of_le_of_lt (mulDiv_fits (UInt64.le_iff_toNat_le.mp h)) (toNat_lt x)))

theorem startingBid_exact_iff {r f : UInt64} (hf : f ≤ maxFacilitatorFee) :
    ExactOrFails (calculateMinimumStartingBid r f) r.toNat 1000000000 (1000000000 - f.toNat) ↔
      f = maxFacilitatorFee ∨ r.toNat * 1000000000 < 2 ^ 64 * (1000000000 - f.toNat) := by
  have hle := UInt64.le_iff_toNat_le.mp hf
  rw [maxFee_toNat] at hle
  have hsub : (maxFacilitatorFee - f).toNat = 1000000000 - f.toNat := toNat_sub_of_le hle
  have hiff := mulDiv_exactOrFails (x := r) (y := maxFacilitatorFee) (d := maxFacilitatorFee - f)
  rw [hsub, maxFee_toNat] at hiff
  rw [calculateMinimumStartingBid, hiff]
  rcases Nat.eq_or_lt_of_le hle with heq | hlt
  · exact iff_of_true (.inl (by omega)) (.inl (UInt64.toNat_inj.mp heq))
  · have hne : f ≠ maxFacilitatorFee := by
      rintro rfl
      exact absurd hlt (lt_irrefl _)
    rw [or_iff_right (by omega), or_iff_right hne, Nat.div_lt_iff_lt_mul (by omega)]

theorem bidIncrease_exact_iff {t i : UInt64} :
    ExactOrFails (calculateMinimumBidIncrease t i) t.toNat i.toNat 1000000000 ↔
      t.toNat * i.toNat < 2 ^ 64 * 1000000000 := by
  have hiff := mulDiv_exactOrFails (x := t) (y := i) (d := maxBidIncrement)
  rw [maxIncrement_toNat] at hiff
  rw [calculateMinimumBidIncrease, hiff, or_iff_right (by decide), Nat.div_lt_iff_lt_mul (by decide)]

/-! ## Redeeming in turn -/

/-- The given amounts redeemed one after another with nothing in between: what is paid for each, and what is left of
the treasury and of the supply. -/
def redeemInTurn (treasury supply : UInt64) : List UInt64 → Except ProgramError (List UInt64 × UInt64 × UInt64)
  | [] => .ok ([], treasury, supply)
  | amount :: amounts => do
      let payment ← calculateRedeemPayment treasury amount supply
      let (payments, treasury, supply) ← redeemInTurn (treasury - payment) (supply - amount) amounts
      return (payment :: payments, treasury, supply)

/-- As long as there are enough shares it succeeds, and is a run of the pool. -/
theorem redeemInTurn_run {amounts : List UInt64} {treasury supply : UInt64} (hpos : ∀ a ∈ amounts, 0 < a)
    (hsum : (amounts.map UInt64.toNat).sum ≤ supply.toNat) :
    ∃ payments treasury' supply' es, redeemInTurn treasury supply amounts = .ok (payments, treasury', supply') ∧
      Run Pool.Redeem ⟨treasury.toNat, supply.toNat⟩ es ⟨treasury'.toNat, supply'.toNat⟩ ∧
      es.map Prod.fst = amounts.map UInt64.toNat ∧ es.map Prod.snd = payments.map UInt64.toNat := by
  induction amounts generalizing treasury supply with
  | nil => exact ⟨[], treasury, supply, [], rfl, .nil, rfl, rfl⟩
  | cons a as ih =>
      rw [List.map_cons, List.sum_cons] at hsum
      have ha : 0 < a.toNat := UInt64.lt_iff_toNat_lt.mp (hpos a List.mem_cons_self)
      obtain ⟨p, hpay, hpaid, hle⟩ := calculateRedeemPayment_total (t := treasury) (a := a) (s := supply)
        (by omega) (by omega)
      have htreasury : (treasury - p).toNat = treasury.toNat - p.toNat := toNat_sub_of_le hle
      have hsupply : (supply - a).toNat = supply.toNat - a.toNat := toNat_sub_of_le (by omega)
      obtain ⟨payments, treasury', supply', es, hrest, hrun, hfst, hsnd⟩ :=
        @ih (treasury - p) (supply - a) (fun b hb => hpos b (List.mem_cons_of_mem _ hb)) (by omega)
      have hstep : Pool.Redeem ⟨treasury.toNat, supply.toNat⟩ (a.toNat, p.toNat)
          ⟨(treasury - p).toNat, (supply - a).toNat⟩ :=
        ⟨by dsimp only; omega, by dsimp only; omega, hpaid, by dsimp only; omega, by dsimp only; omega⟩
      refine ⟨p :: payments, treasury', supply', _, ?_, hrun.cons hstep, ?_, ?_⟩
      · simp only [redeemInTurn, bind_ok_iff, pure_ok_iff]
        exact ⟨_, hpay, _, hrest, rfl⟩
      · rw [List.map_cons, List.map_cons, hfst]
      · rw [List.map_cons, List.map_cons, hsnd]

end FractionAuction.AuctionProgram
