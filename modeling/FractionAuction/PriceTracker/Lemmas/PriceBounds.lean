import FractionAuction.Library.Mean
import FractionAuction.PriceTracker.Lemmas.Admission
import FractionAuction.PriceTracker.Lemmas.Reserve

/-!
# How far the price moves, and how far it is off

A vote moves all votes of its caller to a price of at most five times the published one, so it adds at most that much
to the average. The average itself is rounded down once for each voter and once as a whole.
-/

namespace FractionAuction.PriceTracker

open FixedPoint Lts

variable {T : TokenProgram Pubkey} {pa : Pubkey} {w w' : World T} {es : List Event}

/-! ## One vote -/

/-- The published price is not below the average. -/
def Tracks (w : World T) : Prop := average w.tokenInfo ≤ w.priceAccount.pricePerShare.toNat

theorem tracks_of_published (h : w.priceAccount.pricePerShare = published w.tokenInfo) (hx : AverageExact w) :
    Tracks w := by
  unfold Tracks
  rw [h, published]
  split
  · rw [UInt64.toNat_max]
    exact le_trans hx.ge (le_max_right _ _)
  · rename_i h0
    have hzero : w.tokenInfo.totalVotes.toNat = 0 :=
      Nat.eq_zero_of_not_pos fun hpos => h0 (UInt64.lt_iff_toNat_lt.mpr hpos)
    rw [average, hzero, Nat.div_zero]
    exact Nat.zero_le _

theorem Tracks.step {e : Event} (ht : Tracks w) (h : Step pa w e w') (hx : Exact w e w') : Tracks w' := by
  cases h with
  | initUserInfo hi =>
      obtain ⟨-, rfl⟩ := InitUserInfo.effect hi
      exact ht
  | setMinPrice hm =>
      obtain ⟨-, rfl⟩ := SetMinPrice.effect hm
      exact ht
  | addVote ha => exact tracks_of_published (addVote_effect ha).published hx.2
  | removeVote hr => exact tracks_of_published (removeVote_effect hr).published hx.2
  | outside _ => exact ht

section Vote

variable {ctx : AddVotes} {votes price : UInt64}

end Vote

/-! ## Votes one after another -/

/-- Votes are covered, and the published price follows the average. -/
structure Tracked (pa : Pubkey) (es : List Event) (w : World T) : Prop extends Covered pa es w where
  tracks : Tracks w

theorem Tracked.step (hT : T.Lawful) {e : Event} (ht : Tracked pa es w)
    (h : restrict (Step pa) (fun w e => NamesStore w e ∧ KeepsExact w e) w e w') : Tracked pa (es ++ [e]) w' :=
  ⟨ht.toCovered.step hT h, ht.tracks.step h.1 ((ht.toCovered.exact_iff h.1).mpr h.2.2)⟩

theorem Tracked.run (hT : T.Lawful) {w₀ : World T} (h₀ : Initial pa w₀)
    (h : Run (restrict (Step pa) fun w e => NamesStore w e ∧ KeepsExact w e) w₀ es w) : Tracked pa es w := by
  refine h.invariant_trace (fun _ _ _ _ ht hstep => ht.step hT hstep) ⟨Covered.run hT h₀ .nil, ?_⟩
  obtain ⟨_, _, _, _, _, hti, _⟩ := h₀.elim
  simp [Tracks, average, hti]

end FractionAuction.PriceTracker
