import FractionAuction.AuctionProgram.Lemmas.Custody

/-!
# The closing time

`start` and `place_bid` add a period from the settings to the present time, without a check. The closing time moves
later exactly where the sum fits a word.
-/

namespace FractionAuction.AuctionProgram

open FixedPoint Lts

variable {T : TokenProgram Pubkey} {V : VaultProgram T} {v : Pubkey} {w w' u : World V} {e : Event}
  {es : List Event}

/-! ## Adding to the present time -/

theorem now_le_iff {c : Clock} {d : UInt64} :
    c.val ≤ (getCurrentTimestamp c + d).toNat ↔ c.val + d.toNat < 2 ^ 64 := by
  have hd := toNat_lt d
  have hc := c.isLt
  rw [UInt64.toNat_add, getCurrentTimestamp_toNat]
  constructor
  · intro h
    by_contra hge
    rw [Nat.mod_eq_sub_mod (by omega), Nat.mod_eq_of_lt (by omega)] at h
    omega
  · intro hlt
    rw [Nat.mod_eq_of_lt hlt]
    exact Nat.le_add_right _ _

/-- A bid leaves the soft-close period, and the time that was left, exactly if the period fits. -/
theorem extend_iff {c : Clock} {closing period : UInt64} (hopen : getCurrentTimestamp c < closing) :
    closing ≤ PlaceBid.extend closing (getCurrentTimestamp c) period ∧
      c.val + period.toNat ≤ (PlaceBid.extend closing (getCurrentTimestamp c) period).toNat ↔
      c.val + period.toNat < 2 ^ 64 := by
  have hlt := UInt64.lt_iff_toNat_lt.mp hopen
  have hleft := toNat_sub_of_le (le_of_lt hlt)
  have hclosing := toNat_lt closing
  rw [getCurrentTimestamp_toNat] at hlt hleft
  unfold PlaceBid.extend
  split
  · rename_i hshort
    rw [UInt64.lt_iff_toNat_lt, hleft] at hshort
    constructor
    · rintro ⟨-, h⟩
      exact now_le_iff.mp (by omega)
    · intro hfits
      have hsum : (getCurrentTimestamp c + period).toNat = c.val + period.toNat := by
        rw [← getCurrentTimestamp_toNat c] at hfits ⊢
        exact toNat_add_of_lt hfits
      rw [UInt64.le_iff_toNat_le, hsum]
      omega
  · rename_i hlong
    have hlong := UInt64.le_iff_toNat_le.mp (UInt64.not_lt.mp hlong)
    rw [hleft] at hlong
    constructor
    · rintro -
      omega
    · intro _
      exact ⟨UInt64.le_refl _, by omega⟩

/-! ## Calls that set the closing time -/

/-- The period that a call adds to the present time, zero for a call that adds none. -/
def Event.period (w : World V) : Event → UInt64
  | .start ctx _ _ => ((w.settings ctx.settings).map Settings.duration).getD 0
  | .placeBid _ _ => ((w.auction.bind fun a => w.settings a.settings).map Settings.softClosePeriod).getD 0
  | _ => 0

/-- The present time and the period fit a word together. -/
def PeriodFits (w : World V) (e : Event) : Prop := w.clock.val + (e.period w).toNat < 2 ^ 64

instance (w : World V) (e : Event) : Decidable (PeriodFits w e) := Nat.decLt _ _

/-- An auction closes after its start. A bid moves the closing time later, if at all, and leaves the soft-close
period. -/
def ClosesLater (w : World V) : Event → World V → Prop
  | .start _ _ _, w' => ∃ a, w'.auction = some a ∧ w.clock.val ≤ a.endTimestamp.toNat
  | .placeBid _ _, w' => ∃ a s a', w.auction = some a ∧ w.settings a.settings = some s ∧ w'.auction = some a' ∧
      a.endTimestamp ≤ a'.endTimestamp ∧ w.clock.val + s.softClosePeriod.toNat ≤ a'.endTimestamp.toNat
  | _, _ => True

theorem Step.closesLater_iff (h : Step v w e w') : ClosesLater w e w' ↔ PeriodFits w e := by
  cases h with
  | start hs =>
      obtain ⟨s, vault, L, he, rfl⟩ := start_effect hs
      simp only [ClosesLater, PeriodFits, Event.period, he.settings, Option.some.injEq, Option.map_some,
        Option.getD_some, exists_eq_left']
      exact now_le_iff
  | placeBid hb =>
      obtain ⟨a, s, top, L, he, rfl⟩ := placeBid_effect hb
      simp only [ClosesLater, PeriodFits, Event.period, he.auction, he.settings, Option.some.injEq, Option.map_some,
        Option.bind_some, Option.getD_some, exists_and_left, exists_eq_left']
      exact extend_iff he.not_ended
  | init _ | setOwner _ | createSettings _ | withdrawBid _ | endAuction _ | claim _ | redeem _ | tick _ | outside _ =>
      exact iff_of_true trivial (lt_trans w.clock.isLt (by decide))

/-! ## Runs -/

/-- The auction stays, and its closing time only moves later. -/
def StaysOpen (w w' : World V) : Prop :=
  ∀ a, w.auction = some a → ∃ a', w'.auction = some a' ∧ a.endTimestamp ≤ a'.endTimestamp

theorem StaysOpen.of_eq (h : w'.auction = w.auction) : StaysOpen w w' :=
  fun a ha => ⟨a, h.trans ha, UInt64.le_refl _⟩

theorem StaysOpen.trans (h : StaysOpen w u) (h' : StaysOpen u w') : StaysOpen w w' := by
  intro a ha
  obtain ⟨b, hb, hab⟩ := h a ha
  obtain ⟨d, hd, hbd⟩ := h' b hb
  exact ⟨d, hd, UInt64.le_trans hab hbd⟩

theorem staysOpen_of_step (h : restrict (Step v) PeriodFits w e w') : StaysOpen w w' := by
  obtain ⟨hstep, hfits⟩ := h
  have hlater := hstep.closesLater_iff.mpr hfits
  cases hstep with
  | init hi =>
      obtain rfl := Init.effect hi
      exact .of_eq rfl
  | setOwner ho =>
      obtain rfl := SetAuthority.effect ho
      exact .of_eq rfl
  | createSettings hs =>
      obtain ⟨-, -, rfl⟩ := CreateSettings.effect hs
      exact .of_eq rfl
  | start hs =>
      obtain ⟨_, _, _, he, -⟩ := start_effect hs
      intro a ha
      cases he.fresh.symm.trans ha
  | placeBid hb =>
      obtain ⟨a, s, a', ha, -, ha', hle, -⟩ := hlater
      intro b hb
      obtain rfl : a = b := Option.some.inj (ha.symm.trans hb)
      exact ⟨a', ha', hle⟩
  | withdrawBid hw =>
      obtain ⟨_, _, _, _, rfl⟩ := withdrawBid_effect hw
      exact .of_eq rfl
  | endAuction hend =>
      obtain ⟨a, _, _, he, rfl⟩ := endAuction_effect hend
      intro b hb
      obtain rfl : a = b := Option.some.inj (he.auction.symm.trans hb)
      exact ⟨_, rfl, UInt64.le_refl _⟩
  | claim hc =>
      obtain ⟨_, _, _, _, rfl⟩ := claim_effect hc
      exact .of_eq rfl
  | redeem hr =>
      obtain ⟨_, _, _, _, rfl⟩ := redeem_effect hr
      exact .of_eq rfl
  | tick _ => exact .of_eq rfl
  | outside ho => exact .of_eq ho.auction

theorem staysOpen_of_run (h : Run (restrict (Step v) PeriodFits) w es w') : StaysOpen w w' :=
  h.relates (fun _ => .of_eq rfl) (fun _ _ _ => .trans) fun _ _ _ => staysOpen_of_step

end FractionAuction.AuctionProgram
