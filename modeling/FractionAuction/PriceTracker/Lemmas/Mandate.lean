import FractionAuction.PriceTracker.Lemmas.Majority

/-!
# The mandate

As long as no fractions are minted, a flag that allows to combine stands for votes over half of the recorded mint.
-/

namespace FractionAuction.PriceTracker

open FixedPoint Lts

variable {T : TokenProgram Pubkey} {pa : Pubkey} {w w' : World T} {es : List Event} {e : Event}

/-- A flag that is set has the votes for it. -/
def Mandated (w : World T) : Prop :=
  w.priceAccount.allowedToCombine = true → MoreThanHalf w.ledger w.tokenInfo.mint w.tokenInfo.totalVotes

theorem Mandated.step (hT : T.Lawful) (hm : Mandated w) (hb : Backed pa es w)
    (h : restrict (Step pa) NamesStore w e w')
    (hsupply : T.outstanding w'.ledger w.tokenInfo.mint ≤ T.outstanding w.ledger w.tokenInfo.mint) :
    Mandated w' := by
  obtain ⟨hstep, hnames⟩ := h
  cases hstep with
  | initUserInfo hi =>
      obtain ⟨-, rfl⟩ := InitUserInfo.effect hi
      exact hm
  | setMinPrice hmin =>
      obtain ⟨-, rfl⟩ := SetMinPrice.effect hmin
      exact hm
  | addVote ha =>
      have he := addVote_effect ha
      intro hflag
      rcases (hb.allowed_add hT he hnames).mp hflag with hmore | hbefore
      · exact hmore
      · exact hb.more_add hT he hnames (hm hbefore)
  | removeVote hr =>
      intro hflag
      exact ((hb.allowed_remove hT (removeVote_effect hr) hnames).mp hflag).1
  | outside _ => exact fun hflag => (hm hflag).mono hsupply le_rfl

theorem Mandated.initial (h : Initial pa w) : Mandated w := by
  obtain ⟨_, _, _, _, hp, _⟩ := h.elim
  intro hflag
  rw [hp] at hflag
  cases hflag

end FractionAuction.PriceTracker
