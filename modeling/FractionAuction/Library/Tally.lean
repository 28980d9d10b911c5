import Mathlib

/-!
# Totals over a finite map

The sum of a quantity over the entries of an association list, and how it changes when one entry is
written. A key without an entry counts as zero.
-/

namespace AList

variable {K V : Type} (f : V → ℕ)

/-- The sum of `f` over the values of `s`. -/
def tally (s : AList fun _ : K => V) : ℕ := (s.entries.map fun e => f e.2).sum

/-- The largest value of `f` over the entries of `s`. -/
def peak (s : AList fun _ : K => V) : ℕ := (s.entries.map fun e => f e.2).foldr max 0

variable {f}

@[simp] theorem tally_empty : tally f (∅ : AList fun _ : K => V) = 0 := rfl

theorem le_peak {s : AList fun _ : K => V} {e : Sigma fun _ : K => V} (h : e ∈ s.entries) :
    f e.2 ≤ peak f s := by
  unfold peak
  generalize s.entries = es at h
  induction es with
  | nil => cases h
  | cons x xs ih =>
      rcases List.mem_cons.mp h with rfl | h
      · exact le_max_left _ _
      · exact le_trans (ih h) (le_max_right _ _)

theorem tally_mul_le {g : V → ℕ} {m c : ℕ} {s : AList fun _ : K => V}
    (h : ∀ e ∈ s.entries, f e.2 * m ≤ c * g e.2) : tally f s * m ≤ c * tally g s := by
  unfold tally
  generalize s.entries = es at h
  induction es with
  | nil => simp
  | cons e es ih =>
      simp only [List.map_cons, List.sum_cons, Nat.add_mul, Nat.mul_add]
      exact Nat.add_le_add (h e (by simp)) (ih fun x hx => h x (by simp [hx]))

variable [DecidableEq K]

variable (f) in
/-- `f` of the value at `k`, zero where there is none. -/
def valueAt (k : K) (s : AList fun _ : K => V) : ℕ := ((s.lookup k).map f).getD 0

theorem valueAt_of_lookup {k : K} {s : AList fun _ : K => V} {v : V} (h : s.lookup k = some v) :
    valueAt f k s = f v := by
  simp [valueAt, h]

theorem valueAt_of_none {k : K} {s : AList fun _ : K => V} (h : s.lookup k = none) :
    valueAt f k s = 0 := by
  simp [valueAt, h]

@[simp] theorem valueAt_insert_self (k : K) (v : V) (s : AList fun _ : K => V) :
    valueAt f k (s.insert k v) = f v := by
  simp [valueAt]

theorem valueAt_insert_ne {k l : K} (h : l ≠ k) (v : V) (s : AList fun _ : K => V) :
    valueAt f l (s.insert k v) = valueAt f l s := by
  simp [valueAt, lookup_insert_ne h]

theorem tally_insert_of_notMem {k : K} {s : AList fun _ : K => V} (h : k ∉ s) (v : V) :
    tally f (s.insert k v) = f v + tally f s := by
  rw [tally, entries_insert_of_notMem h]
  rfl

theorem erase_insert_of_notMem {k : K} {s : AList fun _ : K => V} (h : k ∉ s) (v : V) :
    (s.insert k v).erase k = s := by
  apply AList.ext
  simp only [erase, entries_insert_of_notMem h]
  exact List.kerase_cons_eq rfl

theorem erase_insert_ne {k l : K} (h : l ≠ k) {s : AList fun _ : K => V} (hk : k ∉ s) (v : V) :
    ((s.insert k v).erase l).entries = ⟨k, v⟩ :: (s.erase l).entries := by
  simp only [erase, entries_insert_of_notMem hk]
  exact List.kerase_cons_ne h

theorem tally_erase (k : K) (s : AList fun _ : K => V) :
    tally f s = valueAt f k s + tally f (s.erase k) := by
  induction s using AList.insertRec with
  | H0 => rfl
  | IH a b l ha ih =>
      by_cases hk : k = a
      · subst hk
        rw [tally_insert_of_notMem ha, valueAt_insert_self, erase_insert_of_notMem ha]
      · have he : tally f ((insert a b l).erase k) = f b + tally f (l.erase k) := by
          rw [tally, erase_insert_ne hk ha]
          rfl
        rw [tally_insert_of_notMem ha, valueAt_insert_ne hk, he, ih]
        omega

theorem tally_insert (k : K) (v : V) (s : AList fun _ : K => V) :
    tally f (s.insert k v) + valueAt f k s = tally f s + f v := by
  have h : tally f (s.insert k v) = f v + tally f (s.erase k) := by
    simp [tally, entries_insert, erase]
  have := tally_erase (f := f) k s
  omega

/-- A total depends only on what stands at each key. -/
theorem tally_congr {s t : AList fun _ : K => V} (h : ∀ k, valueAt f k s = valueAt f k t) :
    tally f s = tally f t := by
  induction s using AList.insertRec generalizing t with
  | H0 =>
      induction t using AList.insertRec with
      | H0 => rfl
      | IH a b l ha ih =>
          have hb : 0 = f b := (h a).trans (valueAt_insert_self a b l)
          have hl : ∀ k, valueAt f k (∅ : AList fun _ : K => V) = valueAt f k l := by
            intro k
            by_cases hk : k = a
            · subst hk
              rw [valueAt_of_none (lookup_eq_none.mpr ha)]
              rfl
            · rw [← valueAt_insert_ne hk b l]
              exact h k
          rw [tally_insert_of_notMem ha, ← hb, Nat.zero_add]
          exact ih hl
  | IH a b l ha ih =>
      have hl : ∀ k, valueAt f k l = valueAt f k (t.erase a) := by
        intro k
        by_cases hk : k = a
        · subst hk
          rw [valueAt_of_none (lookup_eq_none.mpr ha), valueAt_of_none (lookup_erase k t)]
        · rw [← valueAt_insert_ne hk b l, h k]
          simp [valueAt, lookup_erase_ne hk]
      have hb : f b = valueAt f a t := (valueAt_insert_self a b l).symm.trans (h a)
      rw [tally_insert_of_notMem ha, tally_erase a t, ih hl, hb]

theorem valueAt_le_tally (k : K) (s : AList fun _ : K => V) : valueAt f k s ≤ tally f s := by
  rw [tally_erase k s]
  omega

end AList
