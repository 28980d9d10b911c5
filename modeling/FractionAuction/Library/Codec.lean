import FractionAuction.Library.Borsh

/-!
# Formats

A format is a writer with a reader that takes exactly what is written. Formats of records and of enumerations are put
together from those of their parts.
-/

namespace Borsh

variable {n m : ℕ} {α β : Type} {rest : List UInt8}

/-! ## Words and their bytes -/

theorem littleEndian_ofLittleEndian (bs : List UInt8) : littleEndian bs.length (ofLittleEndian bs) = bs := by
  induction bs with
  | nil => rfl
  | cons b bs ih =>
      have hb : b.toNat < 256 := b.toNat_lt
      have hfirst : UInt8.ofNat (b.toNat + 256 * ofLittleEndian bs) = b := by
        apply UInt8.toNat_inj.mp
        rw [UInt8.toNat_ofNat', Nat.add_mul_mod_self_left, Nat.mod_eq_of_lt hb]
      have hrest : (b.toNat + 256 * ofLittleEndian bs) / 256 = ofLittleEndian bs := by omega
      rw [List.length_cons, ofLittleEndian, littleEndian, hfirst, hrest, ih]

theorem ofLittleEndian_lt (bs : List UInt8) : ofLittleEndian bs < 256 ^ bs.length := by
  induction bs with
  | nil => exact Nat.one_pos
  | cons b bs ih =>
      have hb : b.toNat < 256 := b.toNat_lt
      rw [ofLittleEndian, List.length_cons, Nat.pow_succ]
      omega

theorem Bytes.littleEndian (b : Bytes n) : littleEndian n (ofLittleEndian b.toList) = b.toList := by
  have h := littleEndian_ofLittleEndian b.toList
  rwa [b.length_toList] at h

theorem Bytes.ofLittleEndian_lt (b : Bytes n) : ofLittleEndian b.toList < 256 ^ n := by
  have h := Borsh.ofLittleEndian_lt b.toList
  rwa [b.length_toList] at h

@[simp] theorem word_ofWord (b : Bytes 8) : word (ofWord b) = b := by
  have hlt : ofLittleEndian b.toList < 2 ^ 64 := b.ofLittleEndian_lt.trans_eq (by norm_num)
  have hnat : (ofWord b).toNat = ofLittleEndian b.toList := UInt64.toNat_ofNat_of_lt' hlt
  have hbytes : (word (ofWord b)).toList = Borsh.littleEndian 8 (ofWord b).toNat := by rw [word]
  apply Bytes.ext
  rw [hbytes, hnat, b.littleEndian]

/-- A word is any eight bytes. -/
def words : Bytes 8 ≃ UInt64 where
  toFun := ofWord
  invFun := word
  left_inv := word_ofWord
  right_inv := ofWord_word

/-! ## Formats -/

theorem run_bind_iff {r : Reader α} {f : α → Reader β} {buf : List UInt8} {b : β} :
    (r >>= f).run buf = some (b, rest) ↔ ∃ a mid, r.run buf = some (a, mid) ∧ (f a).run mid = some (b, rest) := by
  rw [StateT.run_bind, Option.bind_eq_bind, Option.bind_eq_some_iff, Prod.exists]

theorem run_map_iff {r : Reader α} {f : α → β} {buf : List UInt8} {b : β} :
    (f <$> r).run buf = some (b, rest) ↔ ∃ a, r.run buf = some (a, rest) ∧ f a = b := by
  rw [StateT.run_map, Option.map_eq_map, Option.map_eq_some_iff]
  constructor
  · rintro ⟨⟨a, mid⟩, ha, hb⟩
    obtain ⟨hab, rfl⟩ := Prod.mk.inj hb
    exact ⟨a, ha, hab⟩
  · rintro ⟨a, ha, rfl⟩
    exact ⟨(a, rest), ha, rfl⟩

structure Codec (α : Type) where
  write : α → List UInt8
  read : Reader α
  read_iff {buf a rest} : read.run buf = some (a, rest) ↔ buf = write a ++ rest

namespace Codec

variable (c : Codec α) {a b : α} {buf : List UInt8}

theorem read_write (a : α) (rest : List UInt8) : c.read.run (c.write a ++ rest) = some (a, rest) := c.read_iff.mpr rfl

/-- No encoding is the beginning of another. -/
theorem write_append_inj {rest' : List UInt8} (h : c.write a ++ rest = c.write b ++ rest') : a = b ∧ rest = rest' :=
  Prod.mk.inj (Option.some.inj ((c.read_write a rest).symm.trans (c.read_iff.mpr h)))

theorem write_injective : Function.Injective c.write := fun _ _ h =>
  (c.write_append_inj (congrArg (· ++ []) h)).1

/-- The data that are read as `a` are the encoding of `a` and anything behind it. -/
theorem tryFromSliceUnchecked_iff : tryFromSliceUnchecked c.read buf = some a ↔ ∃ rest, buf = c.write a ++ rest := by
  rw [tryFromSliceUnchecked, Option.map_eq_some_iff]
  constructor
  · rintro ⟨⟨a, rest⟩, h, rfl⟩
    exact ⟨rest, c.read_iff.mp h⟩
  · rintro ⟨rest, rfl⟩
    exact ⟨(a, rest), c.read_write a rest, rfl⟩

theorem tryFromSliceUnchecked_write (a : α) : tryFromSliceUnchecked c.read (c.write a) = some a :=
  c.tryFromSliceUnchecked_iff.mpr ⟨[], (List.append_nil _).symm⟩

/-- `try_from_slice`: the value is all there is. -/
def tryFromSlice (buf : List UInt8) : Option α :=
  match c.read.run buf with
  | some (a, []) => some a
  | _ => none

theorem tryFromSlice_iff : c.tryFromSlice buf = some a ↔ buf = c.write a := by
  rw [tryFromSlice, ← List.append_nil (c.write a), ← c.read_iff]
  split
  · rename_i b hb
    simp [hb]
  · rename_i hne
    constructor
    · intro h
      cases h
    · intro h
      exact (hne a h).elim

/-! ## Formats of parts -/

def bytes (n : ℕ) : Codec (Bytes n) where
  write := Bytes.toList
  read := readBytes n
  read_iff {buf b rest} := by
    constructor
    · intro h
      simp only [readBytes, StateT.run] at h
      split at h
      · obtain ⟨rfl, rfl⟩ := Prod.mk.inj (Option.some.inj h)
        exact (List.take_append_drop n buf).symm
      · cases h
    · rintro rfl
      exact readBytes_append b

def byte : Codec UInt8 where
  write b := [b]
  read := readByte
  read_iff {buf b rest} := by
    cases buf with
    | nil => exact iff_of_false (by simp [readByte, StateT.run]) (by simp)
    | cons tag cs => simp [readByte, StateT.run]

/-- One of the variants of an enumeration. -/
def variant [DecidableEq α] (variants : List α) (hdistinct : variants.Nodup) (hall : ∀ a, a ∈ variants)
    (hfew : variants.length ≤ 256) : Codec α where
  write a := [UInt8.ofNat (variants.idxOf a)]
  read := readVariant variants
  read_iff {buf a rest} := by
    have htag (a : α) : (UInt8.ofNat (variants.idxOf a)).toNat = variants.idxOf a := by
      have hlt := List.idxOf_lt_length_of_mem (hall a)
      exact UInt8.toNat_ofNat_of_lt' (show _ < 256 by omega)
    cases buf with
    | nil => exact iff_of_false (fun h => by cases h) (by simp)
    | cons tag cs =>
        rw [run_readVariant, Option.map_eq_some_iff, List.cons_append, List.nil_append, List.cons.injEq]
        constructor
        · rintro ⟨b, hb, hpair⟩
          obtain ⟨rfl, rfl⟩ := Prod.mk.inj hpair
          obtain ⟨hlt, rfl⟩ := List.getElem?_eq_some_iff.mp hb
          rw [hdistinct.idxOf_getElem, UInt8.ofNat_toNat]
          exact ⟨rfl, rfl⟩
        · rintro ⟨rfl, rfl⟩
          refine ⟨a, ?_, rfl⟩
          rw [htag]
          exact List.getElem?_idxOf (hall a)

/-! ## Formats of the whole -/

section Combinators

variable {ι : Type} {γ : ι → Type} (d : Codec β)

def unit : Codec Unit where
  write _ := []
  read := pure ()
  read_iff {buf a rest} := by simp [StateT.run, pure, StateT.pure]

/-- The same bytes for another type. -/
def map (e : α ≃ β) : Codec β where
  write b := c.write (e.symm b)
  read := e <$> c.read
  read_iff {buf b rest} := by
    rw [run_map_iff]
    constructor
    · rintro ⟨a, ha, rfl⟩
      rw [e.symm_apply_apply]
      exact c.read_iff.mp ha
    · rintro rfl
      exact ⟨e.symm b, c.read_write _ _, e.apply_symm_apply b⟩

/-- The first part tells how the second is written. -/
def sigma (tag : Codec ι) (payload : ∀ i, Codec (γ i)) : Codec (Σ i, γ i) where
  write a := tag.write a.1 ++ (payload a.1).write a.2
  read := do
    let i ← tag.read
    let x ← (payload i).read
    return ⟨i, x⟩
  read_iff {buf a rest} := by
    simp only [run_bind_iff, StateT.run_pure]
    constructor
    · rintro ⟨i, mid, hi, x, mid', hx, hpair⟩
      obtain ⟨rfl, rfl⟩ := Prod.mk.inj (Option.some.inj hpair)
      rw [tag.read_iff.mp hi, (payload i).read_iff.mp hx, List.append_assoc]
    · rintro rfl
      refine ⟨a.1, (payload a.1).write a.2 ++ rest, ?_, a.2, rest, (payload a.1).read_write a.2 rest, rfl⟩
      rw [List.append_assoc]
      exact tag.read_write a.1 _

def both : Codec (α × β) := (c.sigma fun _ => d).map (Equiv.sigmaEquivProd α β)

/-- A fixed mark, then the value. With another mark there is no value. -/
def marked (mark : Bytes n) : Codec α where
  write a := mark.toList ++ c.write a
  read := do
    let b ← readBytes n
    if b = mark then c.read else failure
  read_iff {buf a rest} := by
    rw [run_bind_iff]
    constructor
    · rintro ⟨b, mid, hb, hread⟩
      split at hread
      · rename_i hmark
        rw [(bytes n).read_iff.mp hb, c.read_iff.mp hread, hmark, List.append_assoc]
        rfl
      · cases hread
    · rintro rfl
      refine ⟨mark, c.write a ++ rest, ?_, ?_⟩
      · rw [List.append_assoc]
        exact readBytes_append mark
      · rw [if_pos rfl]
        exact c.read_write a rest

end Combinators

/-! ## Sizes -/

/-- Every encoding has `n` bytes. -/
def Sized (n : ℕ) : Prop := ∀ a, (c.write a).length = n

variable {c} {d : Codec β}

theorem sized_bytes (n : ℕ) : (bytes n).Sized n := Bytes.length_toList

theorem sized_byte : byte.Sized 1 := fun _ => rfl

theorem sized_variant [DecidableEq α] {variants : List α} {hdistinct : variants.Nodup} {hall : ∀ a, a ∈ variants}
    {hfew : variants.length ≤ 256} : (variant variants hdistinct hall hfew).Sized 1 := fun _ => rfl

theorem Sized.map (h : c.Sized n) (e : α ≃ β) : (c.map e).Sized n := fun b => h (e.symm b)

theorem Sized.both (hc : c.Sized n) (hd : d.Sized m) : (c.both d).Sized (n + m) := fun a => by
  rw [Codec.both, Codec.map, Codec.sigma, List.length_append]
  exact congrArg₂ (· + ·) (hc _) (hd _)

theorem Sized.marked (h : c.Sized n) (mark : Bytes m) : (c.marked mark).Sized (m + n) := fun a => by
  rw [Codec.marked, List.length_append, mark.length_toList, h]

/-- Data with one mark are not read under another. -/
theorem marked_disjoint {mark mark' : Bytes n} (hne : mark ≠ mark') (b : β) (rest : List UInt8) :
    tryFromSliceUnchecked (c.marked mark).read ((d.marked mark').write b ++ rest) = none := by
  cases hread : tryFromSliceUnchecked (c.marked mark).read ((d.marked mark').write b ++ rest) with
  | none => rfl
  | some a =>
      obtain ⟨rest', hrest⟩ := (c.marked mark).tryFromSliceUnchecked_iff.mp hread
      rw [Codec.marked, Codec.marked, List.append_assoc, List.append_assoc] at hrest
      have hmark := ((bytes n).write_append_inj hrest).1
      exact (hne hmark.symm).elim

/-! ## What is accepted -/

section Accepts

variable {P Q : List UInt8 → Prop}

theorem takes_byte : Takes byte.read 1 fun buf => 1 ≤ buf.length where
  leaves {buf b rest} h := by
    obtain rfl : buf = [b] ++ rest := byte.read_iff.mp h
    rfl
  accepts buf := by
    cases buf with
    | nil => exact iff_of_false Bool.false_ne_true (by simp)
    | cons b cs => exact iff_of_true rfl (by simp)

theorem takes_map (h : Takes c.read n P) (e : α ≃ β) : Takes (c.map e).read n P where
  leaves {buf b rest} hb := by
    obtain ⟨a, ha, -⟩ := run_map_iff.mp hb
    exact h.leaves ha
  accepts buf := by
    rw [Codec.map, StateT.run_map, Option.map_eq_map, Option.isSome_map, h.accepts]

theorem takes_both (hc : Takes c.read n P) (hd : Takes d.read m Q) :
    Takes (c.both d).read (n + m) fun buf => P buf ∧ Q (buf.drop n) := by
  have htakes := hc.bind fun i => hd.bind fun x => Takes.pure (⟨i, x⟩ : Σ _ : α, β)
  simp only [and_true, Nat.add_zero] at htakes
  exact takes_map (c := c.sigma fun _ => d) htakes _

end Accepts

/-! ## Words and flags -/

def word : Codec UInt64 := (bytes 8).map words

theorem sized_word : word.Sized 8 := (sized_bytes 8).map words

def flag : Codec Bool := variant [false, true] (by decide) (by decide) (by decide)

theorem sized_flag : flag.Sized 1 := sized_variant

theorem write_flag (b : Bool) : flag.write b = [Borsh.flag b] := by
  cases b with
  | false => rfl
  | true => rfl

end Codec

end Borsh
