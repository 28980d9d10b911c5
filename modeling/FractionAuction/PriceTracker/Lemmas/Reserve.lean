import FractionAuction.PriceTracker.Lemmas.Exact

/-!
# The reserve total and the published price

`add_vote` replaces the value of all of a user's votes, `remove_vote` takes away the value of the removed
ones. The reserve total is the sum of the users' values as long as no removal loses a remainder and the sum
fits a word.
-/

namespace FractionAuction.PriceTracker

open FixedPoint Lts

variable {T : TokenProgram Pubkey} {pa : Pubkey} {w w' : World T} {es : List Event}

/-! ## The highest price -/

def UserInfo.bid (i : UserInfo) : ℕ := if i.votes = 0 then 0 else i.price.toNat

def World.highestPrice (w : World T) : ℕ := w.users.peak UserInfo.bid

theorem share_mul_le (v p : UInt64) : share v p * 1000000000 ≤ v.toNat * p.toNat :=
  Nat.div_mul_le_self _ _

/-- Values rounded down average to no more than the highest price. -/
theorem value_le_highest (w : World T) :
    w.users.tally UserInfo.value * 1000000000 ≤ w.highestPrice * w.users.tally fun i => i.votes.toNat := by
  apply AList.tally_mul_le
  intro e he
  refine le_trans (share_mul_le _ _) ?_
  rw [Nat.mul_comm]
  by_cases h0 : e.2.votes = 0
  · simp [h0]
  · have hle : UserInfo.bid e.2 ≤ w.highestPrice := AList.le_peak he
    rw [UserInfo.bid, if_neg h0] at hle
    exact Nat.mul_le_mul_right _ hle

theorem bid_lt (w : World T) : w.highestPrice < 2 ^ 64 := by
  unfold World.highestPrice AList.peak
  induction w.users.entries with
  | nil => simp
  | cons e es ih =>
      simp only [List.map_cons, List.foldr_cons, max_lt_iff]
      refine ⟨?_, ih⟩
      unfold UserInfo.bid
      split
      · simp
      · exact toNat_lt _

/-! ## Calls that keep the sum -/

/-- A call that neither loses a remainder nor leaves the words: the remainders of the removed and of the
remaining votes do not make up another unit of value, and the value of all votes fits 64 bits. -/
def KeepsRemainders (w : World T) : Event → Prop
  | .addVote ctx votes price =>
      w.tokenInfo.reserveTotal.toNat - (w.user ctx.signer.key).value
        + ((w.user ctx.signer.key).votes.toNat + votes.toNat) * price.toNat / 1000000000 < 2 ^ 64
  | .removeVote ctx votes =>
      votes.toNat * (w.user ctx.signer.key).price.toNat % 1000000000
        + ((w.user ctx.signer.key).votes.toNat - votes.toNat) * (w.user ctx.signer.key).price.toNat
          % 1000000000 < 1000000000
  | _ => True

instance (w : World T) (e : Event) : Decidable (KeepsRemainders w e) :=
  match e with
  | .addVote _ _ _ | .removeVote _ _ => Nat.decLt _ _
  | .initUserInfo _ | .setMinPrice _ _ | .outside => inferInstanceAs (Decidable True)

theorem div_split {a b m : ℕ} (h : a % m + b % m < m) : a / m + b / m = (a + b) / m := by
  have hm : 0 < m := by omega
  rw [Nat.add_div hm, if_neg (by omega), Nat.add_zero]

/-- The reserve total is the users' total. -/
structure Reserved (pa : Pubkey) (es : List Event) (w : World T) : Prop extends Backed pa es w where
  reserve : w.tokenInfo.reserveTotal.toNat = w.users.tally UserInfo.value

theorem Reserved.covered (h : Reserved pa es w) : Covered pa es w := ⟨h.toBacked, h.reserve.ge⟩

section Votes

variable (hT : T.Lawful) {ctx : VoteAccounts} {votes price : UInt64}
include hT

theorem Reserved.addVote (hr : Reserved pa es w) (h : AddVotes.Effect pa w ctx votes price w')
    (hs : ctx.store = w.tokenInfo.store) (hk : KeepsRemainders w (.addVote ctx votes price)) :
    Reserved pa (es ++ [.addVote ctx votes price]) w' := by
  refine ⟨hr.toBacked.addVote hT h hs, ?_⟩
  have hx := (hr.covered.addVote_exact_iff h).mpr ⟨hr.add_fits hT h hs, hk⟩
  have htally := World.tally_users (f := UserInfo.value) rfl h.users
  have hnew : UserInfo.value ⟨price, (w.user ctx.signer.key).votes + votes⟩ =
      share ((w.user ctx.signer.key).votes + votes) price := rfl
  have htaken := hx.taken
  have hreserve := hx.reserve
  have := hr.reserve
  omega

theorem Reserved.removeVote (hr : Reserved pa es w) (h : RemoveVotes.Effect pa w ctx votes w')
    (hs : ctx.store = w.tokenInfo.store) (hk : KeepsRemainders w (.removeVote ctx votes)) :
    Reserved pa (es ++ [.removeVote ctx votes]) w' := by
  refine ⟨hr.toBacked.removeVote hT h hs, ?_⟩
  have henough := UInt64.le_iff_toNat_le.mp h.enough
  have hx := hr.covered.removeVote_exact h
  have htally := World.tally_users (f := UserInfo.value) rfl h.users
  -- the removed and the remaining value make up the old one
  have hsplit : share votes (w.user ctx.signer.key).price
      + UserInfo.value ⟨(w.user ctx.signer.key).price, (w.user ctx.signer.key).votes - votes⟩ =
        (w.user ctx.signer.key).value := by
    simp only [UserInfo.value, share, h.user_remove]
    rw [div_split hk, ← Nat.add_mul, Nat.add_sub_cancel' henough]
  have hreserve := hx.reserve
  have := hr.reserve
  omega

end Votes

theorem Reserved.step (hT : T.Lawful) {e : Event} (hr : Reserved pa es w)
    (h : restrict (Step pa) (fun w e => NamesStore w e ∧ KeepsRemainders w e) w e w') :
    Reserved pa (es ++ [e]) w' := by
  obtain ⟨hstep, hnames, hkeeps⟩ := h
  have hb : Backed pa (es ++ [e]) w' := hr.toBacked.step hT ⟨hstep, hnames⟩
  cases hstep with
  | initUserInfo hi =>
      have htally := tally_of_init (f := UserInfo.value) rfl hi
      obtain ⟨-, rfl⟩ := InitUserInfo.effect hi
      exact ⟨hb, by rw [htally]; exact hr.reserve⟩
  | setMinPrice hm =>
      obtain ⟨-, rfl⟩ := SetMinPrice.effect hm
      exact ⟨hb, hr.reserve⟩
  | addVote ha => exact hr.addVote hT (addVote_effect ha) hnames hkeeps
  | removeVote hrm => exact hr.removeVote hT (removeVote_effect hrm) hnames hkeeps
  | outside _ => exact ⟨hb, hr.reserve⟩

theorem Reserved.run (hT : T.Lawful) {w₀ : World T} (h₀ : Initial pa w₀)
    (h : Run (restrict (Step pa) fun w e => NamesStore w e ∧ KeepsRemainders w e) w₀ es w) :
    Reserved pa es w := by
  refine h.invariant_trace (fun _ _ _ _ hr hstep => hr.step hT hstep) ⟨Backed.initial hT h₀, ?_⟩
  obtain ⟨_, _, _, _, _, hti, hu⟩ := h₀.elim
  simp [hti, hu]

/-! ## The published price -/

def Event.IsVote : Event → Prop
  | .addVote _ _ _ => True
  | .removeVote _ _ => True
  | _ => False

theorem published_of_vote {e : Event} (h : Step pa w e w') (hv : e.IsVote) :
    w'.priceAccount.pricePerShare = published w'.tokenInfo := by
  cases h with
  | addVote ha => exact (addVote_effect ha).published
  | removeVote hr => exact (removeVote_effect hr).published
  | initUserInfo _ | setMinPrice _ | outside _ => exact hv.elim

theorem published_toNat {tokenInfo : TokenInfo} (hpos : 0 < tokenInfo.totalVotes.toNat)
    (hfits : average tokenInfo < 2 ^ 64) :
    (published tokenInfo).toNat = max tokenInfo.minPrice.toNat (average tokenInfo) := by
  have hvotes : tokenInfo.totalVotes > 0 := UInt64.lt_iff_toNat_lt.mpr hpos
  rw [published, if_pos hvotes, UInt64.toNat_max, toNat_narrow_of_lt hfits]

theorem Reserved.average_le (hr : Reserved pa es w) : average w.tokenInfo ≤ w.highestPrice := by
  have hv := value_le_highest w
  rw [← hr.reserve, ← hr.total] at hv
  exact Nat.div_le_of_le_mul (by rwa [Nat.mul_comm _ w.highestPrice])

theorem Reserved.published_le (hr : Reserved pa es w) (hpos : 0 < w.tokenInfo.totalVotes.toNat) :
    (published w.tokenInfo).toNat ≤ max w.tokenInfo.minPrice.toNat w.highestPrice := by
  have hle := hr.average_le
  rw [published_toNat hpos (lt_of_le_of_lt hle (bid_lt w))]
  exact max_le_max_left _ hle

end FractionAuction.PriceTracker
