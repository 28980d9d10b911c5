import Mathlib

/-!
# Borsh

The encoding of records of fixed size: the fields one after another, words with the low byte first, a flag or the
variant of an enumeration as one byte. A reader takes a value from the front of the input and leaves the rest.
-/

namespace Borsh

/-! ## Bytes -/

/-- Exactly `n` bytes. -/
@[ext]
structure Bytes (n : ℕ) where
  toList : List UInt8
  length_toList : toList.length = n
deriving DecidableEq

variable {n m k : ℕ} {α β : Type} {rest : List UInt8}

theorem Bytes.getElem?_behind (b : Bytes n) (k : ℕ) : (b.toList ++ rest)[n + k]? = rest[k]? := by
  rw [List.getElem?_append_right (by rw [b.length_toList]; exact Nat.le_add_right n k), b.length_toList,
    Nat.add_sub_cancel_left]

theorem Bytes.getElem?_within (b : Bytes n) (h : k < n) : (b.toList ++ rest)[k]? = b.toList[k]? :=
  List.getElem?_append_left (by rw [b.length_toList]; exact h)

/-- The `n` lowest bytes of a number, the lowest first. -/
def littleEndian : ℕ → ℕ → List UInt8
  | 0, _ => []
  | n + 1, x => UInt8.ofNat x :: littleEndian n (x / 256)

def ofLittleEndian : List UInt8 → ℕ
  | [] => 0
  | b :: bs => b.toNat + 256 * ofLittleEndian bs

theorem length_littleEndian (n x : ℕ) : (littleEndian n x).length = n := by
  induction n generalizing x with
  | zero => rfl
  | succ n ih => rw [littleEndian, List.length_cons, ih]

theorem ofLittleEndian_littleEndian (n x : ℕ) : ofLittleEndian (littleEndian n x) = x % 256 ^ n := by
  induction n generalizing x with
  | zero => rw [littleEndian, ofLittleEndian, Nat.pow_zero, Nat.mod_one]
  | succ n ih =>
      have hfirst : (UInt8.ofNat x).toNat = x % 256 := UInt8.toNat_ofNat'
      rw [littleEndian, ofLittleEndian, ih, hfirst, Nat.pow_succ', Nat.mod_mul]

/-! ## Words -/

def word (x : UInt64) : Bytes 8 := ⟨littleEndian 8 x.toNat, length_littleEndian 8 x.toNat⟩

def ofWord (b : Bytes 8) : UInt64 := UInt64.ofNat (ofLittleEndian b.toList)

@[simp] theorem ofWord_word (x : UInt64) : ofWord (word x) = x := by
  apply UInt64.toNat_inj.mp
  have hx : x.toNat < 256 ^ 8 := x.toNat_lt
  rw [ofWord, word, ofLittleEndian_littleEndian, Nat.mod_eq_of_lt hx]
  exact UInt64.toNat_ofNat_of_lt' hx

theorem word_first (x : UInt64) : ∃ b, (word x).toList[0]? = some b ∧ b.toNat = x.toNat % 256 :=
  ⟨UInt8.ofNat x.toNat, rfl, UInt8.toNat_ofNat'⟩

def flag (b : Bool) : UInt8 := if b then 1 else 0

/-! ## Readers -/

abbrev Reader (α : Type) := StateT (List UInt8) Option α

def readByte : Reader UInt8 := fun buf =>
  match buf with
  | [] => none
  | b :: rest => some (b, rest)

def readBytes (n : ℕ) : Reader (Bytes n) := fun buf =>
  if h : n ≤ buf.length then some (⟨buf.take n, List.length_take_of_le h⟩, buf.drop n) else none

def readWord : Reader UInt64 := ofWord <$> readBytes 8

/-- One of the variants of an enumeration, by its number. There is no value for any other number. -/
def readVariant (variants : List α) : Reader α := do
  let tag ← readByte
  (variants[tag.toNat]? : Option α)

def readFlag : Reader Bool := readVariant [false, true]

/-- `try_from_slice_unchecked`: what follows the value is not looked at. -/
def tryFromSliceUnchecked (r : Reader α) (buf : List UInt8) : Option α := (r.run buf).map Prod.fst

/-! ## What is written can be read -/

theorem readBytes_append (b : Bytes n) : (readBytes n).run (b.toList ++ rest) = some (b, rest) := by
  have hle : n ≤ (b.toList ++ rest).length := by
    rw [List.length_append, b.length_toList]
    exact Nat.le_add_right _ _
  have htake : (b.toList ++ rest).take n = b.toList := List.take_left' b.length_toList
  have hdrop : (b.toList ++ rest).drop n = rest := List.drop_left' b.length_toList
  simp only [readBytes, StateT.run, hle, ↓reduceDIte, htake, hdrop]

theorem readWord_bytes (b : Bytes 8) : readWord.run (b.toList ++ rest) = some (ofWord b, rest) := by
  rw [readWord, StateT.run_map, readBytes_append]
  rfl

theorem run_readVariant (variants : List α) (tag : UInt8) :
    (readVariant variants).run (tag :: rest) = variants[tag.toNat]?.map fun a => (a, rest) := by
  rw [readVariant, StateT.run_bind]
  change ((StateT.lift variants[tag.toNat]? : Reader α).run rest) = _
  cases variants[tag.toNat]? with
  | none => rfl
  | some a => rfl

theorem readVariant_cons {variants : List α} {tag : UInt8} {a : α} (h : variants[tag.toNat]? = some a) :
    (readVariant variants).run (tag :: rest) = some (a, rest) := by
  rw [run_readVariant, h]
  rfl

theorem readFlag_cons (b : Bool) : readFlag.run (flag b :: rest) = some (b, rest) := by
  cases b with
  | false => exact readVariant_cons rfl
  | true => exact readVariant_cons rfl

/-! ## What can be read -/

/-- The reader takes `n` bytes, and succeeds exactly on the inputs that are `ok`. -/
structure Takes (r : Reader α) (n : ℕ) (ok : List UInt8 → Prop) : Prop where
  leaves {buf a rest} : r.run buf = some (a, rest) → rest = buf.drop n
  accepts buf : (r.run buf).isSome ↔ ok buf

variable {r : Reader α} {f : α → Reader β} {P Q : List UInt8 → Prop}

theorem Takes.unchecked (h : Takes r n P) (buf : List UInt8) : (tryFromSliceUnchecked r buf).isSome ↔ P buf := by
  rw [tryFromSliceUnchecked, Option.isSome_map, h.accepts]

theorem Takes.pure (a : α) : Takes (pure a : Reader α) 0 fun _ => True where
  leaves h := by
    obtain ⟨-, rfl⟩ := Prod.mk.inj (Option.some.inj h)
    rfl
  accepts _ := iff_of_true rfl trivial

theorem Takes.bind (h : Takes r n P) (h' : ∀ a, Takes (f a) m Q) :
    Takes (r >>= f) (n + m) fun buf => P buf ∧ Q (buf.drop n) where
  leaves {buf b rest} hb := by
    rw [StateT.run_bind, Option.bind_eq_bind, Option.bind_eq_some_iff] at hb
    obtain ⟨⟨a, mid⟩, ha, hb⟩ := hb
    obtain rfl := h.leaves ha
    rw [(h' a).leaves hb, List.drop_drop]
  accepts buf := by
    rw [StateT.run_bind, Option.bind_eq_bind, ← h.accepts]
    cases hr : r.run buf with
    | none => simp
    | some p =>
        obtain ⟨a, mid⟩ := p
        obtain rfl := h.leaves hr
        simpa using (h' a).accepts (buf.drop n)

theorem takes_bytes (n : ℕ) : Takes (readBytes n) n fun buf => n ≤ buf.length where
  leaves {buf b rest} h := by
    simp only [readBytes, StateT.run] at h
    split at h
    · exact (Prod.mk.inj (Option.some.inj h)).2.symm
    · cases h
  accepts buf := by
    simp only [readBytes, StateT.run]
    split <;> simp_all

theorem takes_word : Takes readWord 8 fun buf => 8 ≤ buf.length where
  leaves {buf x rest} h := by
    rw [readWord, StateT.run_map] at h
    obtain ⟨⟨b, mid⟩, hb, hx⟩ := Option.map_eq_some_iff.mp h
    obtain ⟨-, rfl⟩ := Prod.mk.inj hx
    exact (takes_bytes 8).leaves hb
  accepts buf := by
    rw [readWord, StateT.run_map, ← (takes_bytes 8).accepts buf, Option.map_eq_map, Option.isSome_map]

theorem takes_variant (variants : List α) :
    Takes (readVariant variants) 1 fun buf => ∃ tag, buf[0]? = some tag ∧ tag.toNat < variants.length where
  leaves {buf a rest} h := by
    cases buf with
    | nil => cases h
    | cons tag cs =>
        rw [run_readVariant] at h
        obtain ⟨b, -, hb⟩ := Option.map_eq_some_iff.mp h
        exact (Prod.mk.inj hb).2.symm
  accepts buf := by
    cases buf with
    | nil => exact iff_of_false Bool.false_ne_true (by simp)
    | cons tag cs => simp [run_readVariant]

theorem takes_flag : Takes readFlag 1 fun buf => ∃ b, buf[0]? = some b ∧ b.toNat < 2 := takes_variant [false, true]

end Borsh
