import Mathlib

/-!
# Fixed-point arithmetic on machine words

The pattern `(x as u128).checked_mul(y as u128)`, then `checked_div(d)`, then `as u64`: the product and the
quotient are checked, the narrowing is not. A `u128` is a natural number here; the product of two 64-bit
words always fits one.
-/

namespace FixedPoint

/-- `n as u64` for a `u128`. -/
def narrow (n : ℕ) : UInt64 := UInt64.ofNat n

def checkedMul (x y : ℕ) : Option ℕ := if x * y < 2 ^ 128 then some (x * y) else none

def checkedDiv (x d : ℕ) : Option ℕ := if d = 0 then none else some (x / d)

def checkedMul64 (x y : UInt64) : Option UInt64 :=
  if x.toNat * y.toNat < 2 ^ 64 then some (x * y) else none

def checkedDiv64 (x d : UInt64) : Option UInt64 := if d = 0 then none else some (x / d)

/-- `x * y / d` through a `u128`, narrowed without a check. -/
def mulDiv (x y d : UInt64) : Option UInt64 :=
  match checkedMul x.toNat y.toNat with
  | some product =>
      match checkedDiv product d.toNat with
      | some val => some (narrow val)
      | none => none
  | none => none

/-! ## Words as integers -/

theorem toNat_narrow (n : ℕ) : (narrow n).toNat = n % 2 ^ 64 := UInt64.toNat_ofNat'

theorem toNat_narrow_of_lt {n : ℕ} (h : n < 2 ^ 64) : (narrow n).toNat = n := by
  rw [toNat_narrow, Nat.mod_eq_of_lt h]

theorem toNat_narrow_iff {n : ℕ} : (narrow n).toNat = n ↔ n < 2 ^ 64 :=
  ⟨fun h => h ▸ (narrow n).toNat_lt, toNat_narrow_of_lt⟩

theorem toNat_lt (x : UInt64) : x.toNat < 2 ^ 64 := x.toNat_lt

theorem toNat_add_of_lt {x y : UInt64} (h : x.toNat + y.toNat < 2 ^ 64) :
    (x + y).toNat = x.toNat + y.toNat := by
  rw [UInt64.toNat_add, Nat.mod_eq_of_lt h]

theorem toNat_sub_of_le {x y : UInt64} (h : y.toNat ≤ x.toNat) :
    (x - y).toNat = x.toNat - y.toNat :=
  UInt64.toNat_sub_of_le x y (UInt64.le_iff_toNat_le.mpr h)

/-- An unchecked subtraction that borrows ends far above both operands. -/
theorem toNat_sub_of_lt {x y : UInt64} (h : x.toNat < y.toNat) :
    (x - y).toNat = 2 ^ 64 + x.toNat - y.toNat := by
  have hy := toNat_lt y
  rw [UInt64.toNat_sub, Nat.mod_eq_of_lt (by omega)]
  omega

/-! ## The product and the quotient -/

theorem checkedMul64_eq_some {x y z : UInt64} :
    checkedMul64 x y = some z ↔ x.toNat * y.toNat < 2 ^ 64 ∧ z.toNat = x.toNat * y.toNat := by
  unfold checkedMul64
  split
  · rename_i h
    have hxy : (x * y).toNat = x.toNat * y.toNat := by rw [UInt64.toNat_mul, Nat.mod_eq_of_lt h]
    rw [Option.some.injEq, ← UInt64.toNat_inj, hxy]
    exact ⟨fun hz => ⟨h, hz.symm⟩, fun hz => hz.2.symm⟩
  · rename_i h
    exact ⟨nofun, fun hz => absurd hz.1 h⟩

theorem mul_lt (x y : UInt64) : x.toNat * y.toNat < 2 ^ 128 := by
  have h := Nat.mul_lt_mul'' (toNat_lt x) (toNat_lt y)
  rwa [← Nat.pow_add] at h

theorem checkedMul_words (x y : UInt64) :
    checkedMul x.toNat y.toNat = some (x.toNat * y.toNat) := if_pos (mul_lt x y)

theorem mulDiv_eq (x y d : UInt64) :
    mulDiv x y d = if d.toNat = 0 then none else some (narrow (x.toNat * y.toNat / d.toNat)) := by
  by_cases h : d.toNat = 0 <;> simp only [mulDiv, checkedMul_words, checkedDiv, h, ↓reduceIte]

theorem mulDiv_eq_some {x y d v : UInt64} :
    mulDiv x y d = some v ↔ d.toNat ≠ 0 ∧ v = narrow (x.toNat * y.toNat / d.toNat) := by
  rw [mulDiv_eq]
  split <;> simp_all [eq_comm]

theorem mulDiv_toNat {x y d v : UInt64} (h : mulDiv x y d = some v)
    (hfits : x.toNat * y.toNat / d.toNat < 2 ^ 64) : v.toNat = x.toNat * y.toNat / d.toNat := by
  obtain ⟨-, rfl⟩ := mulDiv_eq_some.mp h
  exact toNat_narrow_of_lt hfits

/-- A factor that is not above the divisor keeps the quotient below the other factor. -/
theorem mulDiv_fits {x y d : ℕ} (hy : y ≤ d) : x * y / d ≤ x :=
  Nat.div_le_of_le_mul (by rw [Nat.mul_comm d x]; exact Nat.mul_le_mul_left x hy)

theorem mulDiv_toNat_of_le {x y d v : UInt64} (h : mulDiv x y d = some v) (hy : y.toNat ≤ d.toNat) :
    v.toNat = x.toNat * y.toNat / d.toNat :=
  mulDiv_toNat h (lt_of_le_of_lt (mulDiv_fits hy) (toNat_lt x))

/-! ## Two roundings that fit together -/

/-- `r` grossed up by the rate `f / m` and rounded down still leaves `r` after the rate is taken, rounded
down, from anything at least as large. -/
theorem rate_leaves {r m f b : ℕ} (hf : f < m) (hb : r * m / (m - f) ≤ b) : r + b * f / m ≤ b := by
  have hm : 0 < m := by omega
  -- r * m < (b + 1) * (m - f)
  have hgross : r * m < (b + 1) * (m - f) := (Nat.div_lt_iff_lt_mul (by omega)).mp (by omega)
  have hfee : b * f / m * m ≤ b * f := Nat.div_mul_le_self _ _
  have hsplit : (b + 1) * (m - f) + (b + 1) * f = (b + 1) * m := by
    rw [← Nat.mul_add, Nat.sub_add_cancel (le_of_lt hf)]
  have hlt : (r + b * f / m) * m < (b + 1) * m := by
    rw [Nat.add_mul]
    have : (b + 1) * f = b * f + f := by ring
    omega
  have := Nat.lt_of_mul_lt_mul_right hlt
  omega

end FixedPoint
