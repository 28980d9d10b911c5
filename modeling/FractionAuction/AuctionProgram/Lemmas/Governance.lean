import FractionAuction.AuctionProgram.Lemmas.Effects

/-!
# The owner and the settings

Who owns the program, and what its settings are, can be read off the transactions that have been made.
-/

namespace FractionAuction.AuctionProgram

open Guard Lts

variable {T : TokenProgram Pubkey} {V : VaultProgram T} {v : Pubkey} {w₀ w w' : World V} {e : Event}
  {es : List Event}

/-! ## The owner -/

/-- The owner after the transaction, if `owner` was the one before. -/
def Event.owner (owner : Option Pubkey) : Event → Option Pubkey
  | .init ctx => some ctx.signer.key
  | .setOwner _ newOwner => some newOwner
  | _ => owner

def ownerAfter (es : List Event) : Option Pubkey := es.foldl Event.owner none

theorem ownerAfter_snoc : ownerAfter (es ++ [e]) = e.owner (ownerAfter es) :=
  List.foldl_concat Event.owner none e es

def World.owner (w : World V) : Option Pubkey := w.authority.map Authority.owner

/-- Who has to sign as the owner. -/
def Event.signedBy : Event → Option Pubkey
  | .setOwner ctx _ => some ctx.owner.key
  | .createSettings ctx _ _ _ _ => some ctx.owner.key
  | _ => none

theorem Step.owner (h : Step v w e w') : w'.owner = e.owner w.owner := by
  cases h with
  | init hi =>
      obtain rfl := Init.effect hi
      rfl
  | setOwner ho =>
      obtain rfl := SetAuthority.effect ho
      rfl
  | createSettings hs =>
      obtain ⟨-, -, rfl⟩ := CreateSettings.effect hs
      rfl
  | start hs =>
      obtain ⟨_, _, _, _, rfl⟩ := start_effect hs
      rfl
  | placeBid hb =>
      obtain ⟨_, _, _, _, _, rfl⟩ := placeBid_effect hb
      rfl
  | withdrawBid hw =>
      obtain ⟨_, _, _, _, rfl⟩ := withdrawBid_effect hw
      rfl
  | endAuction hend =>
      obtain ⟨_, _, _, _, rfl⟩ := endAuction_effect hend
      rfl
  | claim hc =>
      obtain ⟨_, _, _, _, rfl⟩ := claim_effect hc
      rfl
  | redeem hr =>
      obtain ⟨_, _, _, _, rfl⟩ := redeem_effect hr
      rfl
  | tick _ => rfl
  | outside ho => exact congrArg (Option.map Authority.owner) ho.authority

theorem owner_of_run (h₀ : Genesis w₀) (h : Run (Step v) w₀ es w) : w.owner = ownerAfter es := by
  induction h with
  | nil => simp [World.owner, h₀.authority, ownerAfter]
  | snoc _ hstep ih => rw [hstep.owner, ownerAfter_snoc, ih]

/-- The owner signs. -/
theorem Step.signed (h : Step v w e w') {k : Pubkey} (hk : e.signedBy = some k) : w.owner = some k := by
  cases h with
  | setOwner ho =>
      obtain rfl := Option.some.inj hk
      simp only [SetAuthority.handler, World.loadAuthority, bind_ok_iff, okOr_ok_iff, ensure_ok_iff] at ho
      obtain ⟨a, ha, _, howner, -⟩ := ho
      rw [World.owner, ha, Option.map_some, howner]
  | createSettings hs =>
      obtain rfl := Option.some.inj hk
      simp only [CreateSettings.handler, World.loadAuthority, bind_ok_iff, okOr_ok_iff, ensure_ok_iff] at hs
      obtain ⟨a, ha, _, -, _, howner, -⟩ := hs
      rw [World.owner, ha, Option.map_some, howner]
  | init _ | start _ | placeBid _ | withdrawBid _ | endAuction _ | claim _ | redeem _ | tick _ | outside _ => cases hk

/-- There was no owner before. -/
theorem Step.first {ctx : Init} (h : Step v w (.init ctx) w') : w.owner = none := by
  cases h with
  | init hi =>
      simp only [Init.handler, bind_ok_iff, ensure_ok_iff, Option.isNone_iff_eq_none] at hi
      obtain ⟨_, hnone, -⟩ := hi
      rw [World.owner, hnone, Option.map_none]

/-- The fee is paid to the owner. -/
theorem Step.fee_receiver {ctx : End} {f : UInt64} (h : Step v w (.endAuction ctx f) w') :
    ∃ a o, w.auction = some a ∧ w.owner = some o ∧ T.Holds w.ledger ctx.feeTokenAccount a.paymentMint o := by
  cases h with
  | endAuction hend =>
      obtain ⟨a, _, _, he, -⟩ := endAuction_effect hend
      obtain ⟨authority, hauthority, hholds⟩ := he.owner
      exact ⟨a, authority.owner, he.auction, by rw [World.owner, hauthority, Option.map_some], hholds⟩

/-! ## The settings -/

/-- The settings that the transaction makes at `k`. -/
def Event.settles (k : Pubkey) (s : Settings) : Event → Prop
  | .createSettings ctx duration softClosePeriod bidIncrement facilitatorFee =>
      ctx.settings = k ∧ s = ⟨duration, softClosePeriod, bidIncrement, facilitatorFee⟩
  | _ => False

theorem Step.settings (h : Step v w e w') (k : Pubkey) (s : Settings) :
    w'.settings k = some s ↔ w.settings k = some s ∨ e.settles k s := by
  cases h with
  | createSettings hs =>
      obtain ⟨hnone, -, rfl⟩ := CreateSettings.effect hs
      rw [update_eq_some]
      constructor
      · rintro (⟨hk, hs⟩ | ⟨-, hs⟩)
        · exact .inr ⟨hk.symm, (Option.some.inj hs).symm⟩
        · exact .inl hs
      · rintro (hs | ⟨hk, rfl⟩)
        · refine .inr ⟨?_, hs⟩
          rintro rfl
          cases hnone.symm.trans hs
        · exact .inl ⟨hk.symm, rfl⟩
  | init hi =>
      obtain rfl := Init.effect hi
      exact (or_iff_left id).symm
  | setOwner ho =>
      obtain rfl := SetAuthority.effect ho
      exact (or_iff_left id).symm
  | start hs =>
      obtain ⟨_, _, _, _, rfl⟩ := start_effect hs
      exact (or_iff_left id).symm
  | placeBid hb =>
      obtain ⟨_, _, _, _, _, rfl⟩ := placeBid_effect hb
      exact (or_iff_left id).symm
  | withdrawBid hw =>
      obtain ⟨_, _, _, _, rfl⟩ := withdrawBid_effect hw
      exact (or_iff_left id).symm
  | endAuction hend =>
      obtain ⟨_, _, _, _, rfl⟩ := endAuction_effect hend
      exact (or_iff_left id).symm
  | claim hc =>
      obtain ⟨_, _, _, _, rfl⟩ := claim_effect hc
      exact (or_iff_left id).symm
  | redeem hr =>
      obtain ⟨_, _, _, _, rfl⟩ := redeem_effect hr
      exact (or_iff_left id).symm
  | tick _ => exact (or_iff_left id).symm
  | outside ho =>
      rw [ho.settings]
      exact (or_iff_left id).symm

theorem settings_of_run (h₀ : Genesis w₀) (h : Run (Step v) w₀ es w) (k : Pubkey) (s : Settings) :
    w.settings k = some s ↔ ∃ e ∈ es, e.settles k s := by
  induction h with
  | nil => simp [h₀.settings]
  | snoc _ hstep ih =>
      rw [hstep.settings, ih]
      simp [List.mem_append, or_and_right, exists_or]

/-- A rate above the whole is refused. -/
theorem Step.rate {k : Pubkey} {s : Settings} (h : Step v w e w') (hs : e.settles k s) :
    s.facilitatorFee ≤ maxFacilitatorFee := by
  cases h with
  | createSettings hc =>
      obtain ⟨-, hf, -⟩ := CreateSettings.effect hc
      obtain ⟨-, rfl⟩ := hs
      exact hf
  | init _ | setOwner _ | start _ | placeBid _ | withdrawBid _ | endAuction _ | claim _ | redeem _ | tick _
  | outside _ => exact hs.elim

end FractionAuction.AuctionProgram
