import FractionAuction.Library.Lts
import FractionAuction.PriceTracker.Instructions

/-!
# Runs of the price tracker
-/

namespace FractionAuction.PriceTracker

variable {T : TokenProgram Pubkey}

inductive Event where
  | initUserInfo (ctx : InitUserInfo)
  | setMinPrice (ctx : SetMinPrice) (minPrice : UInt64)
  | addVote (ctx : AddVotes) (votes price : UInt64)
  | removeVote (ctx : RemoveVotes) (votes : UInt64)
  /-- Transactions of other programs. -/
  | outside

/-- What other transactions leave alone: without its signature no account of the store authority is closed,
handed on or debited. Mints, burns and all other accounts are free. -/
def Outside (pa : Pubkey) (L L' : T.Ledger) : Prop :=
  ∀ k m, T.Holds L k m (.storeAuthority pa) →
    T.Holds L' k m (.storeAuthority pa) ∧ T.balance L k ≤ T.balance L' k

/-- A successful instruction; one that fails changes nothing and is no step. -/
inductive Step (pa : Pubkey) : World T → Event → World T → Prop
  | initUserInfo {w ctx w'} : InitUserInfo.handler w ctx = .ok w' → Step pa w (.initUserInfo ctx) w'
  | setMinPrice {w ctx m w'} : SetMinPrice.handler w ctx m = .ok w' → Step pa w (.setMinPrice ctx m) w'
  | addVote {w ctx v p w'} : addVote pa w ctx v p = .ok w' → Step pa w (.addVote ctx v p) w'
  | removeVote {w ctx v w'} : removeVote pa w ctx v = .ok w' → Step pa w (.removeVote ctx v) w'
  | outside {w L} : Outside pa w.ledger L → Step pa w .outside { w with ledger := L }

/-- The instruction an event stands for, run. Nothing happens outside. -/
def World.perform (pa : Pubkey) (w : World T) : Event → Except Error (World T)
  | .initUserInfo ctx => ctx.handler w
  | .setMinPrice ctx m => ctx.handler w m
  | .addVote ctx v p => PriceTracker.addVote pa w ctx v p
  | .removeVote ctx v => PriceTracker.removeVote pa w ctx v
  | .outside => .ok w

theorem Outside.refl {pa : Pubkey} (L : T.Ledger) : Outside pa L L := fun _ _ h => ⟨h, le_rfl⟩

theorem Step.of_perform {pa : Pubkey} {w w' : World T} {e : Event} (h : w.perform pa e = .ok w') :
    Step pa w e w' := by
  cases e with
  | initUserInfo ctx => exact .initUserInfo h
  | setMinPrice ctx m => exact .setMinPrice h
  | addVote ctx v p => exact .addVote h
  | removeVote ctx v => exact .removeVote h
  | outside =>
      obtain rfl : w = w' := by simpa [World.perform] using h
      exact .outside (Outside.refl _)

/-- `w` is the state right after `initialize`. -/
def Initial (pa : Pubkey) (w : World T) : Prop :=
  ∃ ledger ctx minPrice, Initialize.handler pa ledger ctx minPrice = .ok w

/-! ## Runs that are computed -/

section Replay

variable (pa : Pubkey) (ok : World T → Event → Prop) [∀ w e, Decidable (ok w e)]

/-- The successful steps that meet a condition, as a function. -/
def World.attempt (w : World T) (e : Event) : Option (World T) :=
  if ok w e then (w.perform pa e).toOption else none

theorem restrict_of_attempt {w w' : World T} {e : Event} (h : w.attempt pa ok e = some w') :
    Lts.restrict (Step pa) ok w e w' := by
  unfold World.attempt at h
  split at h
  · exact ⟨.of_perform (Guard.toOption_some_iff.mp h), ‹_›⟩
  · cases h

/-- `initialize`, then the events one after another. -/
def replay (ledger : Option T.Ledger) (ctx : Initialize) (minPrice : UInt64) (es : List Event) :
    Option (World T) :=
  ledger.bind fun L => (ctx.handler pa L minPrice).toOption.bind fun w => es.foldlM (World.attempt pa ok) w

theorem run_of_replay {ledger : Option T.Ledger} {ctx : Initialize} {minPrice : UInt64} {es : List Event}
    {P : World T → Prop} [DecidablePred P] (h : (replay pa ok ledger ctx minPrice es).any P = true) :
    ∃ w₀ w, Initial pa w₀ ∧ Lts.Run (Lts.restrict (Step pa) ok) w₀ es w ∧ P w := by
  rw [Option.any_eq_true] at h
  obtain ⟨w, hw, hP⟩ := h
  simp only [replay, Option.bind_eq_some_iff, Guard.toOption_some_iff] at hw
  obtain ⟨L, -, w₀, hinit, hrun⟩ := hw
  exact ⟨w₀, w, ⟨L, ctx, minPrice, hinit⟩,
    Lts.Run.of_exec (fun _ _ _ => restrict_of_attempt pa ok) hrun, of_decide_eq_true hP⟩

end Replay

end FractionAuction.PriceTracker
