import Mathlib

/-!
# Runs of a labelled transition system

A system is a relation `step s e t`: from state `s` the event `e` leads to state `t`. A run is a finite
sequence of such steps, together with the list of its events in order.
-/

namespace Lts

variable {σ τ ε δ : Type*}

/-- The events `es`, in this order, lead from `s` to the last state. -/
inductive Run (step : σ → ε → σ → Prop) (s : σ) : List ε → σ → Prop
  | nil : Run step s [] s
  | snoc {es e t u} : Run step s es t → step t e u → Run step s (es ++ [e]) u

theorem sum_map_snoc (f : ε → ℕ) (es : List ε) (e : ε) :
    ((es ++ [e]).map f).sum = (es.map f).sum + f e := by
  rw [List.map_append, List.sum_append, List.map_singleton, List.sum_singleton]

/-- The steps of `step` that meet a condition on the state before and on the event. -/
def restrict (step : σ → ε → σ → Prop) (ok : σ → ε → Prop) (s : σ) (e : ε) (t : σ) : Prop :=
  step s e t ∧ ok s e

/-- The run of `es` from `s` to `t` takes the step `e` from `u` to `u'`, with `before` behind it and `after`
still to come. -/
structure Passage (step : σ → ε → σ → Prop) (s : σ) (es : List ε) (t : σ) (before : List ε) (u : σ) (e : ε)
    (u' : σ) (after : List ε) : Prop where
  events : es = before ++ e :: after
  reached : Run step s before u
  taken : step u e u'
  rest : Run step u' after t

namespace Run

variable {step : σ → ε → σ → Prop} {s t u : σ} {es fs : List ε} {e : ε}

theorem single (h : step s e t) : Run step s [e] t := .snoc .nil h

theorem append (h : Run step s es t) (h' : Run step t fs u) : Run step s (es ++ fs) u := by
  induction h' with
  | nil => simpa using h
  | snoc _ hstep ih => rw [← List.append_assoc]; exact .snoc ih hstep

theorem cons (h' : Run step t es u) (h : step s e t) : Run step s (e :: es) u :=
  (single h).append h'

theorem nil_eq (h : Run step s [] t) : t = s := by
  generalize hes : [] = es at h
  cases h with
  | nil => rfl
  | snoc _ _ => simp at hes

theorem last (h : Run step s (es ++ [e]) u) : ∃ t, Run step s es t ∧ step t e u := by
  generalize hfs : es ++ [e] = fs at h
  cases h with
  | nil => simp at hfs
  | snoc h hstep =>
      obtain ⟨rfl, he⟩ := List.append_inj' hfs rfl
      obtain rfl : e = _ := by simpa using he
      exact ⟨_, h, hstep⟩

/-- A run passes through a state after each prefix of its events. -/
theorem split (h : Run step s (es ++ fs) u) : ∃ t, Run step s es t ∧ Run step t fs u := by
  induction fs using List.reverseRecOn generalizing u with
  | nil => exact ⟨u, by simpa using h, .nil⟩
  | append_singleton fs e ih =>
      rw [← List.append_assoc] at h
      obtain ⟨v, hv, hstep⟩ := h.last
      obtain ⟨t, ht, hfs⟩ := ih hv
      exact ⟨t, ht, hfs.snoc hstep⟩

theorem head (h : Run step s (e :: es) u) : ∃ t, step s e t ∧ Run step t es u := by
  have h' : Run step s ([] ++ [e] ++ es) u := h
  obtain ⟨t, ht, hes⟩ := h'.split
  obtain ⟨s', hs', hstep⟩ := ht.last
  exact ⟨t, hs'.nil_eq ▸ hstep, hes⟩

theorem step_of_single (h : Run step s [e] u) : step s e u := by
  obtain ⟨t, hstep, hnil⟩ := h.head
  exact hnil.nil_eq ▸ hstep

theorem passage {before after : List ε} (h : Run step s (before ++ e :: after) u) :
    ∃ v w, Passage step s (before ++ e :: after) u before v e w after := by
  obtain ⟨v, hv, hrest⟩ := h.split
  obtain ⟨w, hw, hafter⟩ := hrest.head
  exact ⟨v, w, rfl, hv, hw, hafter⟩

theorem of_mem (h : Run step s es u) (he : e ∈ es) :
    ∃ before v w after, Passage step s es u before v e w after := by
  obtain ⟨before, after, rfl⟩ := List.append_of_mem he
  obtain ⟨v, w, hp⟩ := h.passage
  exact ⟨before, v, w, after, hp⟩

/-- Only the events that occur have to be steps of the other system. -/
theorem mono_mem {step' : σ → ε → σ → Prop} (hsub : ∀ s e t, e ∈ es → step s e t → step' s e t)
    (h : Run step s es t) : Run step' s es t := by
  induction h with
  | nil => exact .nil
  | snoc _ hstep ih =>
      have hbefore := ih fun s e t hmem => hsub s e t (List.mem_append_left _ hmem)
      exact hbefore.snoc (hsub _ _ _ (List.mem_append_right _ (List.mem_singleton_self _)) hstep)

theorem mono {step' : σ → ε → σ → Prop} (hsub : ∀ s e t, step s e t → step' s e t)
    (h : Run step s es t) : Run step' s es t :=
  h.mono_mem fun s e t _ => hsub s e t

theorem of_restrict {ok : σ → ε → Prop} (h : Run (restrict step ok) s es t) : Run step s es t :=
  h.mono fun _ _ _ h => h.1

/-- A run computed by a function whose results are steps. -/
theorem of_exec {f : σ → ε → Option σ} (hf : ∀ s e t, f s e = some t → step s e t)
    (h : es.foldlM f s = some t) : Run step s es t := by
  induction es generalizing s with
  | nil =>
      obtain rfl : s = t := by simpa using h
      exact .nil
  | cons e es ih =>
      rw [List.foldlM_cons, Option.bind_eq_bind, Option.bind_eq_some_iff] at h
      obtain ⟨v, hv, hes⟩ := h
      exact (ih hes).cons (hf _ _ _ hv)

/-! ## Rules of proof -/

theorem invariant {Inv : σ → Prop} (hstep : ∀ s e t, Inv s → step s e t → Inv t) (hs : Inv s)
    (h : Run step s es t) : Inv t := by
  induction h with
  | nil => exact hs
  | snoc _ hst ih => exact hstep _ _ _ ih hst

/-- A reflexive and transitive relation that every step respects relates the two ends of a run. -/
theorem relates {R : σ → σ → Prop} (hrefl : ∀ s, R s s) (htrans : ∀ s t u, R s t → R t u → R s u)
    (hstep : ∀ s e t, step s e t → R s t) (h : Run step s es t) : R s t := by
  induction h with
  | nil => exact hrefl _
  | snoc _ hst ih => exact htrans _ _ _ ih (hstep _ _ _ hst)

/-- An invariant about the events so far and the present state. -/
theorem invariant_trace {Inv : List ε → σ → Prop}
    (hstep : ∀ es s e t, Inv es s → step s e t → Inv (es ++ [e]) t) (hs : Inv [] s)
    (h : Run step s es t) : Inv es t := by
  induction h with
  | nil => exact hs
  | snoc _ hst ih => exact hstep _ _ _ _ ih hst

/-- Forward simulation: every concrete step is matched by the abstract events `f e`, so every concrete run
is matched by an abstract one. -/
theorem simulate {astep : τ → δ → τ → Prop} {R : σ → τ → Prop} (f : ε → List δ)
    (hstep : ∀ s e t a, R s a → step s e t → ∃ b, Run astep a (f e) b ∧ R t b) {a : τ} (hs : R s a)
    (h : Run step s es t) : ∃ b, Run astep a (es.flatMap f) b ∧ R t b := by
  induction h with
  | nil => exact ⟨a, .nil, hs⟩
  | snoc _ hst ih =>
      obtain ⟨b, hb, hR⟩ := ih
      obtain ⟨c, hc, hR'⟩ := hstep _ _ _ _ hR hst
      exact ⟨c, by simpa using hb.append hc, hR'⟩

/-- A part of a system: every step of the whole is a step of the part, as the part sees it. -/
theorem project {astep : τ → δ → τ → Prop} {view : σ → τ} {Sees : ε → δ → Prop}
    (hstep : ∀ s e t, step s e t → ∃ d, Sees e d ∧ astep (view s) d (view t)) (h : Run step s es t) :
    ∃ ds, List.Forall₂ Sees es ds ∧ Run astep (view s) ds (view t) := by
  induction h with
  | nil => exact ⟨[], .nil, .nil⟩
  | snoc _ hst ih =>
      obtain ⟨ds, hsees, hrun⟩ := ih
      obtain ⟨d, hd, hstep'⟩ := hstep _ _ _ hst
      exact ⟨ds ++ [d], List.rel_append hsees (.cons hd .nil), hrun.snoc hstep'⟩

/-- Tasks that can be done in turn: while `Inv` holds of those left, there is a step that does the first. -/
theorem schedule {α : Type*} {Inv : List α → σ → Prop} {Does : α → ε → Prop}
    (hstep : ∀ x xs s, Inv (x :: xs) s → ∃ e t, Does x e ∧ step s e t ∧ Inv xs t) {xs : List α}
    (hs : Inv xs s) : ∃ es t, List.Forall₂ Does xs es ∧ Run step s es t ∧ Inv [] t := by
  induction xs generalizing s with
  | nil => exact ⟨[], s, .nil, .nil, hs⟩
  | cons x xs ih =>
      obtain ⟨e, u, hdoes, hst, hu⟩ := hstep _ _ _ hs
      obtain ⟨es, t, hall, hrun, ht⟩ := ih hu
      exact ⟨e :: es, t, .cons hdoes hall, hrun.cons hst, ht⟩

end Run

end Lts
