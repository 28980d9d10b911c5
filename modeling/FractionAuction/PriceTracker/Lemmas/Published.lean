import FractionAuction.PriceTracker.Lemmas.Reserve

/-!
# The published price of a vault that may be combined

The vote instructions publish a price; `set_min_price` changes what it should be and publishes nothing.
-/

namespace FractionAuction.PriceTracker

open FixedPoint Lts

variable {T : TokenProgram Pubkey} {pa : Pubkey} {w w' : World T} {es : List Event}

/-- The weighted average of the given totals fits a word. -/
def AverageFits (reserveTotal totalVotes : UInt64) : Prop :=
  reserveTotal.toNat * 1000000000 / totalVotes.toNat < 2 ^ 64

/-- A call that leaves a published price current: a new minimum only while the vault may not be combined, or
one that makes no difference to the price, and votes only where the narrowing of the average is exact. -/
def KeepsPrice (w : World T) : Event → Prop
  | .setMinPrice _ m =>
      w.priceAccount.allowedToCombine = false ∨ m = w.tokenInfo.minPrice ∨
        m.toNat ≤ average w.tokenInfo ∧ w.tokenInfo.minPrice.toNat ≤ average w.tokenInfo
  | .addVote ctx votes price =>
      AverageFits
        (w.tokenInfo.reserveTotal - narrow (w.user ctx.signer.key).value
          + narrow (share ((w.user ctx.signer.key).votes + votes) price))
        (w.tokenInfo.totalVotes + votes)
  | .removeVote ctx votes =>
      AverageFits
        (w.tokenInfo.reserveTotal - narrow (share votes (w.user ctx.signer.key).price))
        (w.tokenInfo.totalVotes - votes)
  | _ => True

instance (w : World T) (e : Event) : Decidable (KeepsPrice w e) :=
  match e with
  | .setMinPrice _ _ => inferInstanceAs (Decidable (_ ∨ _))
  | .addVote _ _ _ | .removeVote _ _ => Nat.decLt _ _
  | .initUserInfo _ | .outside => inferInstanceAs (Decidable True)

/-- What the price account says of a vault that may be combined. -/
def Current (w : World T) : Prop :=
  w.priceAccount.allowedToCombine = true →
    w.priceAccount.pricePerShare.toNat = max w.tokenInfo.minPrice.toNat (average w.tokenInfo)

/-- A price just published is current where its average fits. Without votes the average is zero and the price
is the minimum. -/
theorem current_of_published (h : w.priceAccount.pricePerShare = published w.tokenInfo)
    (hfits : average w.tokenInfo < 2 ^ 64) : Current w := by
  intro _
  rw [h]
  rcases Nat.eq_zero_or_pos w.tokenInfo.totalVotes.toNat with h0 | hpos
  · have hno : ¬ w.tokenInfo.totalVotes > 0 := fun hgt => (UInt64.lt_iff_toNat_lt.mp hgt).ne' h0
    rw [published, if_neg hno, average, h0, Nat.div_zero, Nat.max_zero]
  · exact published_toNat hpos hfits

theorem Current.setMinPrice (hc : Current w) {ctx : SetMinPrice} {m : UInt64}
    (h : ctx.handler w m = .ok w') (hk : KeepsPrice w (.setMinPrice ctx m)) : Current w' := by
  obtain ⟨-, rfl⟩ := SetMinPrice.effect h
  intro ha
  have ha' : w.priceAccount.allowedToCombine = true := ha
  change w.priceAccount.pricePerShare.toNat = max m.toNat (average w.tokenInfo)
  rw [hc ha]
  rcases hk with hno | rfl | ⟨hm, hmin⟩
  · rw [ha'] at hno
    cases hno
  · rfl
  · rw [max_eq_right hm, max_eq_right hmin]

theorem Current.step {e : Event} (hc : Current w) (h : restrict (Step pa) KeepsPrice w e w') :
    Current w' := by
  obtain ⟨hstep, hk⟩ := h
  cases hstep with
  | initUserInfo hi =>
      obtain ⟨-, rfl⟩ := InitUserInfo.effect hi
      exact hc
  | setMinPrice hm => exact hc.setMinPrice hm hk
  | addVote ha =>
      have he := addVote_effect ha
      refine current_of_published he.published ?_
      rw [he.tokenInfo]
      exact hk
  | removeVote hr =>
      have he := removeVote_effect hr
      refine current_of_published he.published ?_
      rw [he.tokenInfo]
      exact hk
  | outside _ => exact hc

theorem Current.run {w₀ : World T} (h₀ : Initial pa w₀) (h : Run (restrict (Step pa) KeepsPrice) w₀ es w) :
    Current w := by
  refine h.invariant (fun _ _ _ hc hstep => hc.step hstep) fun ha => ?_
  obtain ⟨_, _, _, _, hp, _⟩ := h₀.elim
  rw [hp] at ha
  cases ha

end FractionAuction.PriceTracker
