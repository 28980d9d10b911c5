import FractionAuction.PriceTracker.Lemmas.Custody

/-!
# Unchecked arithmetic

The vote instructions add, subtract and narrow without a check. While the values of all votes are covered by the
reserve total, nothing is ever subtracted that was not added before, and only new values and averages can be too
large.
-/

namespace FractionAuction.PriceTracker

open FixedPoint Lts

variable {T : TokenProgram Pubkey} {pa : Pubkey} {w w' : World T} {es : List Event}

/-! ## The value of the votes -/

/-- The value of a user's votes at their price, over the integers. -/
def UserInfo.value (i : UserInfo) : ℕ := share i.votes i.price

/-- The users' values are covered by the reserve total. -/
structure Covered (pa : Pubkey) (es : List Event) (w : World T) : Prop extends Backed pa es w where
  covered : w.users.tally UserInfo.value ≤ w.tokenInfo.reserveTotal.toNat

theorem Covered.user_le (h : Covered pa es w) (u : Pubkey) :
    (w.user u).value ≤ w.tokenInfo.reserveTotal.toNat := by
  have := AList.valueAt_le_tally (f := UserInfo.value) u w.users
  rw [World.valueAt_user rfl] at this
  exact le_trans this h.covered

theorem share_split {left removed votes price : UInt64} (h : left.toNat + removed.toNat = votes.toNat) :
    share removed price + share left price ≤ share votes price := by
  refine le_trans (Nat.div_add_div_le_add_div) ?_
  rw [← Nat.add_mul, Nat.add_comm removed.toNat, h]
  exact le_rfl

/-! ## Exact calls -/

/-- Every `+=`, `-=` and `as u64` on the totals and votes in `add_vote` yields the integer result. -/
structure AddVotes.Exact (w : World T) (ctx : AddVotes) (votes price : UInt64) (w' : World T) : Prop where
  old : (narrow (w.user ctx.signer.key).value).toNat = (w.user ctx.signer.key).value
  taken : (w.tokenInfo.reserveTotal - narrow (w.user ctx.signer.key).value).toNat
    + (w.user ctx.signer.key).value = w.tokenInfo.reserveTotal.toNat
  counted : ((w.user ctx.signer.key).votes + votes).toNat = (w.user ctx.signer.key).votes.toNat + votes.toNat
  new : (narrow (share ((w.user ctx.signer.key).votes + votes) price)).toNat =
    share ((w.user ctx.signer.key).votes + votes) price
  reserve : w'.tokenInfo.reserveTotal.toNat =
    (w.tokenInfo.reserveTotal - narrow (w.user ctx.signer.key).value).toNat
      + share ((w.user ctx.signer.key).votes + votes) price
  total : w'.tokenInfo.totalVotes.toNat = w.tokenInfo.totalVotes.toNat + votes.toNat

/-- The same for `remove_vote`. -/
structure RemoveVotes.Exact (w : World T) (ctx : RemoveVotes) (votes : UInt64) (w' : World T) : Prop where
  counted : ((w.user ctx.signer.key).votes - votes).toNat + votes.toNat = (w.user ctx.signer.key).votes.toNat
  total : w'.tokenInfo.totalVotes.toNat + votes.toNat = w.tokenInfo.totalVotes.toNat
  removed : (narrow (share votes (w.user ctx.signer.key).price)).toNat = share votes (w.user ctx.signer.key).price
  reserve : w'.tokenInfo.reserveTotal.toNat + share votes (w.user ctx.signer.key).price =
    w.tokenInfo.reserveTotal.toNat

/-- The average that a vote call narrows fits a word. -/
def AverageExact (w : World T) : Prop := (narrow (average w.tokenInfo)).toNat = average w.tokenInfo

/-- All unchecked arithmetic of a call is exact. -/
def Exact (w : World T) : Event → World T → Prop
  | .addVote ctx votes price, w' => AddVotes.Exact w ctx votes price w' ∧ AverageExact w'
  | .removeVote ctx votes, w' => RemoveVotes.Exact w ctx votes w' ∧ AverageExact w'
  | _, _ => True

/-! ## When a call is exact -/

/-- The reserve total with the value of one user's votes replaced by that of `votes` more at `price`. -/
def reserveWith (w : World T) (u : Pubkey) (votes price : UInt64) : ℕ :=
  w.tokenInfo.reserveTotal.toNat - (w.user u).value
    + ((w.user u).votes.toNat + votes.toNat) * price.toNat / 1000000000

theorem AddVotes.Exact.reserve_with {ctx : AddVotes} {votes price : UInt64}
    (hx : AddVotes.Exact w ctx votes price w') :
    w'.tokenInfo.reserveTotal.toNat = reserveWith w ctx.signer.key votes price := by
  have htaken := hx.taken
  rw [hx.reserve, reserveWith, share, hx.counted]
  omega

/-- A call whose new total of votes, new reserve total and new average fit 64 bits. -/
def KeepsExact (w : World T) : Event → Prop
  | .addVote ctx votes price =>
      w.tokenInfo.totalVotes.toNat + votes.toNat < 2 ^ 64 ∧
        reserveWith w ctx.signer.key votes price < 2 ^ 64 ∧
        reserveWith w ctx.signer.key votes price * 1000000000
          / (w.tokenInfo.totalVotes.toNat + votes.toNat) < 2 ^ 64
  | .removeVote ctx votes =>
      (w.tokenInfo.reserveTotal.toNat - share votes (w.user ctx.signer.key).price) * 1000000000
        / (w.tokenInfo.totalVotes.toNat - votes.toNat) < 2 ^ 64
  | _ => True

instance (w : World T) (e : Event) : Decidable (KeepsExact w e) :=
  match e with
  | .addVote _ _ _ => inferInstanceAs (Decidable (_ < _ ∧ _ < _ ∧ _ < _))
  | .removeVote _ _ => Nat.decLt _ _
  | .initUserInfo _ | .setMinPrice _ _ | .outside => inferInstanceAs (Decidable True)

section Votes

variable {ctx : VoteAccounts} {votes price : UInt64}

theorem Covered.addVote_exact_iff (hc : Covered pa es w) (h : AddVotes.Effect pa w ctx votes price w') :
    AddVotes.Exact w ctx votes price w' ↔ w.tokenInfo.totalVotes.toNat + votes.toNat < 2 ^ 64 ∧
      reserveWith w ctx.signer.key votes price < 2 ^ 64 := by
  constructor
  · intro hx
    rw [← hx.total, ← hx.reserve_with]
    exact ⟨toNat_lt _, toNat_lt _⟩
  · rintro ⟨htotal, hfits⟩
    have hvotes := hc.toBacked.user_le ctx.signer.key
    have hvalue := hc.user_le ctx.signer.key
    have hlt := toNat_lt w.tokenInfo.reserveTotal
    have huser : ((w.user ctx.signer.key).votes + votes).toNat =
        (w.user ctx.signer.key).votes.toNat + votes.toNat := toNat_add_of_lt (by omega)
    have hold : (narrow (w.user ctx.signer.key).value).toNat = (w.user ctx.signer.key).value :=
      toNat_narrow_of_lt (by omega)
    have htaken : (w.tokenInfo.reserveTotal - narrow (w.user ctx.signer.key).value).toNat =
        w.tokenInfo.reserveTotal.toNat - (w.user ctx.signer.key).value := by
      rw [toNat_sub_of_le (by omega), hold]
    rw [reserveWith, ← huser] at hfits
    change _ + share ((w.user ctx.signer.key).votes + votes) price < 2 ^ 64 at hfits
    have hnew : (narrow (share ((w.user ctx.signer.key).votes + votes) price)).toNat =
        share ((w.user ctx.signer.key).votes + votes) price := toNat_narrow_of_lt (by omega)
    have hreserve : w'.tokenInfo.reserveTotal = w.tokenInfo.reserveTotal
        - narrow (w.user ctx.signer.key).value
        + narrow (share ((w.user ctx.signer.key).votes + votes) price) := by
      rw [h.tokenInfo]
      rfl
    exact {
      old := hold
      taken := by omega
      counted := huser
      new := hnew
      reserve := by rw [hreserve, toNat_add_of_lt (by omega), hnew]
      total := by rw [h.tokenInfo]; exact toNat_add_of_lt htotal }

theorem Covered.removeVote_exact (hc : Covered pa es w) (h : RemoveVotes.Effect pa w ctx votes w') :
    RemoveVotes.Exact w ctx votes w' := by
  have henough := UInt64.le_iff_toNat_le.mp h.enough
  have huser := h.user_remove
  have hvalue := hc.user_le ctx.signer.key
  have hlt := toNat_lt w.tokenInfo.reserveTotal
  obtain ⟨hle, htotal⟩ := hc.total_remove h
  have hsplit : share votes (w.user ctx.signer.key).price
      + share ((w.user ctx.signer.key).votes - votes) (w.user ctx.signer.key).price ≤
        (w.user ctx.signer.key).value := share_split (by omega)
  have hremoved : (narrow (share votes (w.user ctx.signer.key).price)).toNat =
      share votes (w.user ctx.signer.key).price := toNat_narrow_of_lt (by omega)
  have hreserve : w'.tokenInfo.reserveTotal.toNat =
      w.tokenInfo.reserveTotal.toNat - share votes (w.user ctx.signer.key).price := by
    rw [h.tokenInfo, toNat_sub_of_le (by omega), hremoved]
  exact {
    counted := by omega
    total := by omega
    removed := hremoved
    reserve := by omega }

theorem Covered.exact_iff (hc : Covered pa es w) {e : Event} (h : Step pa w e w') :
    Exact w e w' ↔ KeepsExact w e := by
  cases h with
  | addVote ha =>
      have hiff := hc.addVote_exact_iff (addVote_effect ha)
      rw [Exact, KeepsExact, AverageExact, toNat_narrow_iff, hiff, and_assoc]
      refine and_congr_right fun htotal => and_congr_right fun hfits => ?_
      have hx := hiff.mpr ⟨htotal, hfits⟩
      rw [average, hx.reserve_with, hx.total]
  | removeVote hr =>
      have hx := hc.removeVote_exact (removeVote_effect hr)
      rw [Exact, KeepsExact, AverageExact, toNat_narrow_iff, and_iff_right hx, average, ← hx.reserve, ← hx.total,
        Nat.add_sub_cancel, Nat.add_sub_cancel]
  | initUserInfo _ | setMinPrice _ | outside _ => exact iff_of_true trivial trivial

end Votes

/-! ## Runs of exact calls -/

theorem Covered.addVote (hT : T.Lawful) {ctx : AddVotes} {votes price : UInt64} (hc : Covered pa es w)
    (h : AddVotes.Effect pa w ctx votes price w') (hs : ctx.store = w.tokenInfo.store)
    (hx : AddVotes.Exact w ctx votes price w') : Covered pa (es ++ [.addVote ctx votes price]) w' := by
  refine ⟨hc.toBacked.addVote hT h hs, ?_⟩
  have htally := World.tally_users (f := UserInfo.value) rfl h.users
  have hnew : UserInfo.value ⟨price, (w.user ctx.signer.key).votes + votes⟩ =
      share ((w.user ctx.signer.key).votes + votes) price := rfl
  have hreserve := hx.reserve
  have htaken := hx.taken
  have := hc.covered
  omega

theorem Covered.removeVote (hT : T.Lawful) {ctx : RemoveVotes} {votes : UInt64} (hc : Covered pa es w)
    (h : RemoveVotes.Effect pa w ctx votes w') (hs : ctx.store = w.tokenInfo.store) :
    Covered pa (es ++ [.removeVote ctx votes]) w' := by
  refine ⟨hc.toBacked.removeVote hT h hs, ?_⟩
  have htally := World.tally_users (f := UserInfo.value) rfl h.users
  have hx := hc.removeVote_exact h
  have hsplit : share votes (w.user ctx.signer.key).price
      + UserInfo.value ⟨(w.user ctx.signer.key).price, (w.user ctx.signer.key).votes - votes⟩ ≤
        (w.user ctx.signer.key).value := share_split hx.counted
  have hreserve := hx.reserve
  have := hc.covered
  omega

theorem Covered.step (hT : T.Lawful) {e : Event} (hc : Covered pa es w)
    (h : restrict (Step pa) (fun w e => NamesStore w e ∧ KeepsExact w e) w e w') :
    Covered pa (es ++ [e]) w' := by
  obtain ⟨hstep, hs, hk⟩ := h
  have hx := (hc.exact_iff hstep).mpr hk
  have hb : Backed pa (es ++ [e]) w' := hc.toBacked.step hT ⟨hstep, hs⟩
  cases hstep with
  | initUserInfo hi =>
      have htally := tally_of_init (f := UserInfo.value) rfl hi
      obtain ⟨-, rfl⟩ := InitUserInfo.effect hi
      exact ⟨hb, by rw [htally]; exact hc.covered⟩
  | setMinPrice hm =>
      obtain ⟨-, rfl⟩ := SetMinPrice.effect hm
      exact ⟨hb, hc.covered⟩
  | addVote ha => exact hc.addVote hT (addVote_effect ha) hs hx.1
  | removeVote hr => exact hc.removeVote hT (removeVote_effect hr) hs
  | outside _ => exact ⟨hb, hc.covered⟩

theorem Covered.run (hT : T.Lawful) {w₀ : World T} (h₀ : Initial pa w₀)
    (h : Run (restrict (Step pa) fun w e => NamesStore w e ∧ KeepsExact w e) w₀ es w) : Covered pa es w := by
  refine h.invariant_trace (fun _ _ _ _ hc hstep => hc.step hT hstep) ⟨Backed.initial hT h₀, ?_⟩
  obtain ⟨_, _, _, _, _, hti, hu⟩ := h₀.elim
  simp [hti, hu]

end FractionAuction.PriceTracker
