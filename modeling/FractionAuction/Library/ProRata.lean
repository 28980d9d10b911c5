import FractionAuction.Library.Lts

/-!
# A pool that is paid out in shares

A treasury against a supply of shares. Whoever hands in `a` shares is paid `treasury * a / supply`, rounded
down, and both quantities shrink. Rounding down leaves the remainder to the others, so nobody loses by coming
late, and the last share takes all that is left.
-/

@[ext]
structure Pool where
  treasury : ℕ
  supply : ℕ

namespace Pool

variable {p q r : Pool} {a : ℕ}

def pay (p : Pool) (a : ℕ) : ℕ := p.treasury * a / p.supply

/-! ## One payment -/

theorem pay_all (h : 0 < p.supply) : p.pay p.supply = p.treasury := Nat.mul_div_left _ h

theorem pay_lt (ht : 0 < p.treasury) (h : a < p.supply) : p.pay a < p.treasury := by
  refine (Nat.div_lt_iff_lt_mul (by omega)).mpr ?_
  exact (Nat.mul_lt_mul_left ht).mpr h

theorem pay_mul_le : p.pay a * p.supply ≤ p.treasury * a := Nat.div_mul_le_self _ _

/-! ## Worth of a share -/

/-- A share of `q` is worth at least as much as a share of `p`. -/
def NoWorse (p q : Pool) : Prop := p.treasury * q.supply ≤ q.treasury * p.supply

theorem NoWorse.refl (p : Pool) : NoWorse p p := le_rfl

theorem NoWorse.trans (hq : 0 < q.supply) (hpq : NoWorse p q) (hqr : NoWorse q r) : NoWorse p r := by
  refine Nat.le_of_mul_le_mul_right ?_ hq
  calc p.treasury * r.supply * q.supply = p.treasury * q.supply * r.supply := by ring
    _ ≤ q.treasury * p.supply * r.supply := Nat.mul_le_mul_right _ hpq
    _ = q.treasury * r.supply * p.supply := by ring
    _ ≤ r.treasury * q.supply * p.supply := Nat.mul_le_mul_right _ hqr
    _ = r.treasury * p.supply * q.supply := by ring

theorem NoWorse.pay_le (h : NoWorse p q) (hp : 0 < p.supply) (hq : 0 < q.supply) : p.pay a ≤ q.pay a := by
  refine (Nat.le_div_iff_mul_le hq).mpr (Nat.le_of_mul_le_mul_right ?_ hp)
  calc p.pay a * q.supply * p.supply = p.pay a * p.supply * q.supply := by ring
    _ ≤ p.treasury * a * q.supply := Nat.mul_le_mul_right _ pay_mul_le
    _ = p.treasury * q.supply * a := by ring
    _ ≤ q.treasury * p.supply * a := Nat.mul_le_mul_right _ h
    _ = q.treasury * a * p.supply := by ring

/-! ## Redemptions -/

/-- `a` shares are handed in for `pay`. -/
structure Redeem (p : Pool) (e : ℕ × ℕ) (q : Pool) : Prop where
  enough : e.1 ≤ p.supply
  some_shares : 0 < p.supply
  paid : e.2 = p.pay e.1
  treasury : q.treasury + e.2 = p.treasury
  supply : q.supply + e.1 = p.supply

variable {e : ℕ × ℕ} {es : List (ℕ × ℕ)}

theorem Redeem.noWorse (h : Redeem p e q) : NoWorse p q := by
  have hpay : e.2 * p.supply ≤ p.treasury * e.1 := h.paid ▸ pay_mul_le
  have ht : q.treasury * p.supply + e.2 * p.supply = p.treasury * p.supply := by
    rw [← Nat.add_mul, h.treasury]
  have hs : p.treasury * q.supply + p.treasury * e.1 = p.treasury * p.supply := by
    rw [← Nat.mul_add, h.supply]
  unfold NoWorse
  omega

/-- The treasury lasts exactly as long as the supply. -/
theorem Redeem.treasury_pos (h : Redeem p e q) (ht : 0 < p.treasury) :
    0 < q.treasury ↔ 0 < q.supply := by
  have hs := h.supply
  have hq := h.treasury
  constructor
  · intro hpos
    by_contra hzero
    have he : e.1 = p.supply := by omega
    have hall : e.2 = p.treasury := by rw [h.paid, he, pay_all h.some_shares]
    omega
  · intro hpos
    have hlt : p.pay e.1 < p.treasury := pay_lt ht (by omega)
    rw [← h.paid] at hlt
    omega

/-! ## Runs -/

theorem run_totals (h : Lts.Run Redeem p es q) :
    q.treasury + (es.map Prod.snd).sum = p.treasury ∧ q.supply + (es.map Prod.fst).sum = p.supply := by
  induction h with
  | nil => simp
  | snoc _ hstep ih =>
      have ht := hstep.treasury
      have hs := hstep.supply
      simp only [Lts.sum_map_snoc]
      omega

theorem run_noWorse (h : Lts.Run Redeem p es q) : NoWorse p q := by
  induction h with
  | nil => exact NoWorse.refl p
  | snoc _ hstep ih => exact ih.trans hstep.some_shares hstep.noWorse

/-- A treasury that starts out positive is positive as long as there are shares, and empty with the last. -/
theorem run_treasury_pos (ht : 0 < p.treasury) (hs : 0 < p.supply) (h : Lts.Run Redeem p es q) :
    0 < q.treasury ↔ 0 < q.supply := by
  induction h with
  | nil => exact iff_of_true ht hs
  | snoc _ hstep ih => exact hstep.treasury_pos (ih.mpr hstep.some_shares)

theorem run_pays_out (hs : 0 < p.supply) (h : Lts.Run Redeem p es q)
    (hall : (es.map Prod.fst).sum = p.supply) : (es.map Prod.snd).sum = p.treasury := by
  obtain ⟨htotal, hsupply⟩ := run_totals h
  rcases Nat.eq_zero_or_pos p.treasury with h0 | hpos
  · omega
  · have := run_treasury_pos hpos hs h
    omega

/-! ## Parts and the whole -/

/-- What all shares handed in so far are worth in `p` more than was paid for them, times the supply of `p`. -/
def excess (p : Pool) (es : List (ℕ × ℕ)) : ℤ :=
  p.treasury * (es.map Prod.fst).sum - (es.map Prod.snd).sum * p.supply

/-- A redemption keeps the excess in proportion to the shares that are left, and adds its remainder. -/
theorem excess_snoc (hrun : Lts.Run Redeem p es q) (h : Redeem q e r) :
    q.supply * p.excess (es ++ [e]) =
      (q.supply - e.1) * p.excess es + p.supply * (q.treasury * e.1 % q.supply : ℕ) := by
  obtain ⟨ht, hs⟩ := run_totals hrun
  have hpay : (q.supply : ℤ) * e.2 + (q.treasury * e.1 % q.supply : ℕ) = q.treasury * e.1 := by
    rw [h.paid, pay]
    exact_mod_cast Nat.div_add_mod (q.treasury * e.1) q.supply
  have ht : (q.treasury : ℤ) = p.treasury - (es.map Prod.snd).sum := by omega
  have hs : (q.supply : ℤ) = p.supply - (es.map Prod.fst).sum := by omega
  have hremainder := eq_sub_of_add_eq' hpay
  rw [hremainder, excess, excess, Lts.sum_map_snoc, Lts.sum_map_snoc, hs, ht]
  push_cast
  ring

/-- Each redemption adds less to the excess than the supply. -/
theorem excess_bounds (h : Lts.Run Redeem p es q) :
    0 ≤ p.excess es ∧ p.excess es ≤ es.length * ((p.supply : ℤ) - 1) := by
  induction h with
  | nil => simp [excess]
  | @snoc es e q r hrun hstep ih =>
      obtain ⟨hlow, hhigh⟩ := ih
      have hsnoc := excess_snoc hrun hstep
      have hq : (0 : ℤ) < q.supply := by exact_mod_cast hstep.some_shares
      have hle : (e.1 : ℤ) ≤ q.supply := by exact_mod_cast hstep.enough
      have hp : (0 : ℤ) < p.supply := by
        have := (run_totals hrun).2
        omega
      have hmod : ((q.treasury * e.1 % q.supply : ℕ) : ℤ) < q.supply := by
        exact_mod_cast Nat.mod_lt _ hstep.some_shares
      have hmod₀ : (0 : ℤ) ≤ (q.treasury * e.1 % q.supply : ℕ) := Int.natCast_nonneg _
      constructor
      · refine le_of_mul_le_mul_left ?_ hq
        rw [mul_zero, hsnoc]
        exact add_nonneg (mul_nonneg (sub_nonneg.mpr hle) hlow) (mul_nonneg hp.le hmod₀)
      · have hgrowth : p.excess (es ++ [e]) < p.excess es + p.supply := by
          refine lt_of_mul_lt_mul_left ?_ hq.le
          calc (q.supply : ℤ) * p.excess (es ++ [e])
              = (q.supply - e.1) * p.excess es + p.supply * (q.treasury * e.1 % q.supply : ℕ) := hsnoc
            _ ≤ q.supply * p.excess es + p.supply * (q.treasury * e.1 % q.supply : ℕ) := by
                have := mul_nonneg (Int.natCast_nonneg e.1) hlow
                linarith
            _ < q.supply * p.excess es + p.supply * q.supply := by
                have := mul_lt_mul_of_pos_left hmod hp
                linarith
            _ = q.supply * (p.excess es + p.supply) := by ring
        rw [List.length_append, List.length_singleton]
        push_cast
        linarith

/-- Shares handed in one after another are paid no more than all of them at once. -/
theorem run_split_le (hp : 0 < p.supply) (h : Lts.Run Redeem p es q) :
    (es.map Prod.snd).sum ≤ p.pay (es.map Prod.fst).sum := by
  refine (Nat.le_div_iff_mul_le hp).mpr ?_
  have := (excess_bounds h).1
  unfold excess at this
  exact_mod_cast sub_nonneg.mp this

/-- They lose less than one unit with each part but the first. -/
theorem run_split_ge (hp : 0 < p.supply) (h : Lts.Run Redeem p es q) :
    p.pay (es.map Prod.fst).sum ≤ (es.map Prod.snd).sum + (es.length - 1) := by
  have hbound := (excess_bounds h).2
  unfold excess at hbound
  unfold pay
  rcases Nat.eq_zero_or_pos es.length with h0 | hpos
  · obtain rfl := List.length_eq_zero_iff.mp h0
    simp
  · refine Nat.le_of_lt_succ ((Nat.div_lt_iff_lt_mul hp).mpr ?_)
    have hparts : (es.map Prod.snd).sum + (es.length - 1) + 1 = (es.map Prod.snd).sum + es.length := by omega
    rw [Nat.succ_eq_add_one, hparts]
    have hlen : (0 : ℤ) < es.length := by exact_mod_cast hpos
    have hlt : (p.treasury : ℤ) * (es.map Prod.fst).sum <
        ((es.map Prod.snd).sum + es.length : ℤ) * p.supply := by linarith
    exact_mod_cast hlt

end Pool
