import FractionAuction.Library.Codec
import FractionAuction.Library.Lts

/-!
# Records kept as bytes

A program keeps its records in the data of accounts. A transaction reads records, works on them in memory, and at its
end writes those back whose accounts it declared.
-/

namespace AccountStore

open Borsh Lts

/-- The types of a program's accounts. What is written for one type is not read as another. -/
structure Schema (ι : Type) where
  Record : ι → Type
  format (t : ι) : Codec (Record t)
  size : ι → ℕ
  sized (t : ι) : (format t).Sized (size t)
  apart {t u : ι} (r : Record t) : u ≠ t → tryFromSliceUnchecked (format u).read ((format t).write r) = none

namespace Schema

variable {ι : Type} (S : Schema ι) {t : ι}

/-- A record with its type. -/
abbrev Content := Σ t, S.Record t

def write (x : S.Content) : List UInt8 := (S.format x.1).write x.2

/-! ## Data of one account -/

section Data

/-- A new account has room for its record and is all zero. -/
def allocate (t : ι) : List UInt8 := List.replicate (S.size t) 0

/-- What follows the record is not looked at. -/
def tryDeserialize (t : ι) (data : List UInt8) : Option (S.Record t) := tryFromSliceUnchecked (S.format t).read data

/-- The front of the data is written over. That fails where they are too short. -/
def trySerialize (data : List UInt8) (x : S.Content) : Option (List UInt8) :=
  if (S.write x).length ≤ data.length then some (S.write x ++ data.drop (S.write x).length) else none

variable {S} {data : List UInt8}

theorem length_write (x : S.Content) : (S.write x).length = S.size x.1 := S.sized x.1 x.2

/-- The room is used up, so nothing is left of what was there before. -/
theorem trySerialize_of_length {x : S.Content} (h : data.length = S.size x.1) :
    S.trySerialize data x = some (S.write x) := by
  have hall : data.drop (S.write x).length = [] := by rw [length_write, ← h, List.drop_length]
  rw [trySerialize, if_pos (by rw [length_write, h]), hall, List.append_nil]

/-- However often an account is written, what was written last is there. -/
theorem trySerialize_run (h : data.length = S.size t) (records : List (S.Record t)) (record : S.Record t) :
    (records ++ [record]).foldlM (fun data r => S.trySerialize data ⟨t, r⟩) data = some (S.write ⟨t, record⟩) := by
  induction records generalizing data with
  | nil => simp [trySerialize_of_length (x := ⟨t, record⟩) h]
  | cons first records ih =>
      rw [List.cons_append, List.foldlM_cons, trySerialize_of_length h, Option.bind_eq_bind, Option.bind_some]
      exact ih (length_write (S := S) ⟨t, first⟩)

/-- What is written for a record is read as that record, and as nothing else. -/
theorem tryDeserialize_write (x y : S.Content) : S.tryDeserialize y.1 (S.write x) = some y.2 ↔ y = x := by
  obtain ⟨t, r⟩ := x
  obtain ⟨u, r'⟩ := y
  by_cases ht : u = t
  · subst ht
    rw [tryDeserialize, write, Codec.tryFromSliceUnchecked_write, Option.some.injEq, Sigma.mk.injEq]
    constructor
    · rintro rfl
      exact ⟨rfl, HEq.rfl⟩
    · rintro ⟨-, h⟩
      exact (eq_of_heq h).symm
  · constructor
    · intro h
      rw [tryDeserialize, write, S.apart r ht] at h
      cases h
    · intro h
      exact (ht (congrArg Sigma.fst h)).elim

/-- Data of the size of a record are read as the record only if they are what is written for it. -/
theorem eq_write_of_tryDeserialize {r : S.Record t} (hdata : data.length = S.size t)
    (h : S.tryDeserialize t data = some r) : data = S.write ⟨t, r⟩ := by
  obtain ⟨rest, rfl⟩ := (S.format t).tryFromSliceUnchecked_iff.mp h
  rw [List.length_append, S.sized] at hdata
  have hrest : rest = [] := List.eq_nil_of_length_eq_zero (by omega)
  rw [hrest, List.append_nil]
  rfl

end Data

/-! ## The end of a transaction -/

/-- How a transaction declares an account. -/
inductive Access (ι : Type) where
  | init (t : ι)
  | initIfNeeded (t : ι)
  | mutable
  | close

variable {K : Type} [DecidableEq K]

abbrev Store (K : Type) := K → Option (List UInt8)

/-- The record in memory is written to the account. -/
def save (after : K → Option S.Content) (s : Store K) (k : K) : Option (Store K) := do
  let data ← s k
  let x ← after k
  let written ← S.trySerialize data x
  return Function.update s k (some written)

/-- What becomes of a declared account, with the records in memory as they are `after` the transaction. -/
def exit (after : K → Option S.Content) (s : Store K) : K × Access ι → Option (Store K)
  | (k, .init t) => if (s k).isNone then S.save after (Function.update s k (some (S.allocate t))) k else none
  | (k, .initIfNeeded t) =>
      S.save after (if (s k).isNone then Function.update s k (some (S.allocate t)) else s) k
  | (k, .mutable) => S.save after s k
  | (k, .close) => (s k).map fun _ => Function.update s k none

/-! ## Nothing is lost -/

/-- The declaration fits what happens to the record. -/
def Access.Fits (before after : Option S.Content) : Access ι → Prop
  | .init t => before = none ∧ ∃ r, after = some ⟨t, r⟩
  | .initIfNeeded t => (∀ x ∈ before, x.1 = t) ∧ ∃ r, after = some ⟨t, r⟩
  | .mutable => ∃ t r r', before = some ⟨t, r⟩ ∧ after = some ⟨t, r'⟩
  | .close => before.isSome ∧ after = none

/-- Every account whose record changes is declared, once, and as it should be. -/
structure Declared (before after : K → Option S.Content) (accesses : List (K × Access ι)) : Prop where
  distinct : (accesses.map Prod.fst).Nodup
  fits x : x ∈ accesses → x.2.Fits S (before x.1) (after x.1)
  rest k : k ∉ accesses.map Prod.fst → after k = before k

/-- The records as they are stored. -/
def encode (records : K → Option S.Content) : Store K := fun k => (records k).map S.write

variable {S} {before after : K → Option S.Content} {s : Store K} {k : K} {accesses : List (K × Access ι)}

theorem save_of_size {t : ι} {r : S.Record t} {data : List UInt8} (hs : s k = some data)
    (hdata : data.length = S.size t) (hafter : after k = some ⟨t, r⟩) :
    S.save after s k = some (Function.update s k (S.encode after k)) := by
  rw [save, hs, hafter, encode, hafter, Option.bind_eq_bind, Option.bind_some, Option.bind_eq_bind, Option.bind_some,
    trySerialize_of_length (x := ⟨t, r⟩) hdata]
  rfl

theorem save_allocated {t : ι} {r : S.Record t} (hafter : after k = some ⟨t, r⟩) :
    S.save after (Function.update s k (some (S.allocate t))) k = some (Function.update s k (S.encode after k)) := by
  have hsize : (S.allocate t).length = S.size t := List.length_replicate
  rw [save_of_size (Function.update_self k _ s) hsize hafter, Function.update_idem]

/-- An account that is declared as it should be is written, and holds the record. -/
theorem exit_of_fits {a : Access ι} (hs : s k = S.encode before k) (h : a.Fits S (before k) (after k)) :
    S.exit after s (k, a) = some (Function.update s k (S.encode after k)) := by
  cases a with
  | init t =>
      obtain ⟨hbefore, r, hafter⟩ := h
      have hfree : (s k).isNone = true := by rw [hs, encode, hbefore]; rfl
      rw [exit, if_pos hfree]
      exact save_allocated hafter
  | initIfNeeded t =>
      obtain ⟨htype, r, hafter⟩ := h
      rw [exit]
      cases hbefore : before k with
      | none =>
          have hfree : (s k).isNone = true := by rw [hs, encode, hbefore]; rfl
          rw [if_pos hfree]
          exact save_allocated hafter
      | some x =>
          have hused : s k = some (S.write x) := by rw [hs, encode, hbefore]; rfl
          have hsize : (S.write x).length = S.size t := by rw [length_write, htype x hbefore]
          rw [if_neg (by rw [hused]; exact Bool.false_ne_true)]
          exact save_of_size hused hsize hafter
  | mutable =>
      obtain ⟨t, r, r', hbefore, hafter⟩ := h
      have hused : s k = some (S.write ⟨t, r⟩) := by rw [hs, encode, hbefore]; rfl
      exact save_of_size hused (length_write (S := S) ⟨t, r⟩) hafter
  | close =>
      obtain ⟨hbefore, hafter⟩ := h
      obtain ⟨x, hx⟩ := Option.isSome_iff_exists.mp hbefore
      have hused : s k = some (S.write x) := by rw [hs, encode, hx]; rfl
      rw [exit, hused, encode, hafter]
      rfl

theorem exit_all (hdistinct : (accesses.map Prod.fst).Nodup)
    (hfits : ∀ x ∈ accesses, x.2.Fits S (before x.1) (after x.1))
    (hs : ∀ k ∈ accesses.map Prod.fst, s k = S.encode before k) :
    accesses.foldlM (S.exit after) s =
      some fun k => if k ∈ accesses.map Prod.fst then S.encode after k else s k := by
  induction accesses generalizing s with
  | nil => simp
  | cons x accesses ih =>
      obtain ⟨k, a⟩ := x
      rw [List.map_cons, List.nodup_cons] at hdistinct
      obtain ⟨hnew, hdistinct⟩ := hdistinct
      have hother {l : K} (hl : l ∈ accesses.map Prod.fst) : l ≠ k := by
        rintro rfl
        exact hnew hl
      rw [List.foldlM_cons, exit_of_fits (hs k (by simp)) (hfits (k, a) (by simp)), Option.bind_eq_bind,
        Option.bind_some, ih hdistinct (fun x hx => hfits x (by simp [hx])) fun l hl => by
          rw [Function.update_of_ne (hother hl)]
          exact hs l (List.mem_cons_of_mem k hl)]
      congr 1
      funext l
      by_cases hl : l = k
      · subst hl
        simp [hnew]
      · have hmem : l ∈ ((k, a) :: accesses).map Prod.fst ↔ l ∈ accesses.map Prod.fst := by
          rw [List.map_cons, List.mem_cons, or_iff_right hl]
        rw [Function.update_of_ne hl]
        exact (if_congr hmem rfl rfl).symm

/-- At the end of the transaction the accounts hold the records in memory. -/
theorem Declared.exit (h : S.Declared before after accesses) :
    accesses.foldlM (S.exit after) (S.encode before) = some (S.encode after) := by
  rw [exit_all h.distinct h.fits fun _ _ => rfl]
  congr 1
  funext k
  split
  · rfl
  · rename_i hk
    rw [encode, encode, h.rest k hk]

omit [DecidableEq K] in
/-- Read as whatever type, a stored account shows its record. -/
theorem read_encode {records : K → Option S.Content} (x : S.Content) :
    (S.encode records k).bind (S.tryDeserialize x.1) = some x.2 ↔ records k = some x := by
  rw [encode]
  cases records k with
  | none => simp
  | some y => rw [Option.map_some, Option.bind_some, tryDeserialize_write, Option.some.injEq, eq_comm]

/-! ## Runs -/

variable (S)

/-- The steps of a system whose records are kept in a store: they happen in memory, and what they declare is
written back. -/
def Stored {σ ε : Type*} (records : σ → K → Option S.Content) (accesses : σ → ε → List (K × Access ι))
    (step : σ → ε → σ → Prop) (c : σ × Store K) (e : ε) (c' : σ × Store K) : Prop :=
  step c.1 e c'.1 ∧ (accesses c.1 e).foldlM (S.exit (records c'.1)) c.2 = some c'.2

variable {S} {σ ε : Type*} {records : σ → K → Option S.Content} {declare : σ → ε → List (K × Access ι)}
  {step : σ → ε → σ → Prop} {Inv : σ → Prop} {c c' : σ} {es : List ε}

/-- If all changes are declared, every run can be kept in a store. -/
theorem stored_of_run (hinv : ∀ c e c', Inv c → step c e c' → Inv c')
    (hdeclared : ∀ c e c', Inv c → step c e c' → S.Declared (records c) (records c') (declare c e)) (h₀ : Inv c)
    (h : Run step c es c') :
    Run (S.Stored records declare step) (c, S.encode (records c)) es (c', S.encode (records c')) := by
  induction h with
  | nil => exact .nil
  | snoc hrun hstep ih =>
      have h₁ := hrun.invariant hinv h₀
      exact ih.snoc ⟨hstep, (hdeclared _ _ _ h₁ hstep).exit⟩

/-- Then the store holds the records all the time. -/
theorem encode_of_stored (hinv : ∀ c e c', Inv c → step c e c' → Inv c')
    (hdeclared : ∀ c e c', Inv c → step c e c' → S.Declared (records c) (records c') (declare c e)) (h₀ : Inv c)
    {s : Store K} {d : σ × Store K} (hs : s = S.encode (records c))
    (h : Run (S.Stored records declare step) (c, s) es d) : d.2 = S.encode (records d.1) := by
  have hboth : Inv d.1 ∧ d.2 = S.encode (records d.1) := by
    induction h with
    | nil => exact ⟨h₀, hs⟩
    | snoc _ hstep ih =>
        obtain ⟨hinv₁, hstore⟩ := ih
        obtain ⟨hmemory, hexit⟩ := hstep
        rw [hstore, (hdeclared _ _ _ hinv₁ hmemory).exit] at hexit
        exact ⟨hinv _ _ _ hinv₁ hmemory, (Option.some.inj hexit).symm⟩
  exact hboth.2

end Schema

end AccountStore
