import FractionAuction.Library.Latch
import FractionAuction.PriceTracker.Lemmas.Majority

/-!
# The order of two votes

What a vote call adds to the totals and to the balances depends on the voter's own record only, so the calls of two
users add the same in either order. The flag is a latch on the total of votes.
-/

namespace FractionAuction.PriceTracker

open FixedPoint Lts

variable {T : TokenProgram Pubkey} {pa u u₁ u₂ : Pubkey} {w w' w₁ w₁₂ w₂ w₂₁ : World T} {es : List Event}
  {e e₁ e₂ : Event}

/-! ## States that cannot be told apart -/

/-- The same accounts of the program, and the same token accounts and mints. -/
structure World.Same (w w' : World T) : Prop where
  priceAccount : w.priceAccount = w'.priceAccount
  tokenInfo : w.tokenInfo = w'.tokenInfo
  users : ∀ u, w.users.lookup u = w'.users.lookup u
  account : T.account w.ledger = T.account w'.ledger
  supply : T.supply w.ledger = T.supply w'.ledger

/-! ## What a vote call adds -/

def Event.voter : Event → Option Pubkey
  | .addVote ctx _ _ => some ctx.signer.key
  | .removeVote ctx _ => some ctx.signer.key
  | _ => none

def Event.recast (i : UserInfo) : Event → UserInfo
  | .addVote _ votes price => ⟨price, i.votes + votes⟩
  | .removeVote _ votes => ⟨i.price, i.votes - votes⟩
  | _ => i

/-- What the call adds to the reserve total, as a word. -/
def Event.worth (i : UserInfo) : Event → UInt64
  | .addVote _ votes price => narrow (share (i.votes + votes) price) - narrow i.value
  | .removeVote _ votes => - narrow (share votes i.price)
  | _ => 0

/-- What the call adds to the total of votes, as a word. -/
def Event.count : Event → UInt64
  | .addVote _ votes _ => votes
  | .removeVote _ votes => - votes
  | _ => 0

/-- The tokens that the call brings to the account at `k`. -/
def Event.inflow (k : Pubkey) : Event → ℤ
  | .addVote ctx votes _ =>
      (if k = ctx.store then votes.toNat else 0 : ℕ) - (if k = ctx.userTokenAccount then votes.toNat else 0 : ℕ)
  | .removeVote ctx votes =>
      (if k = ctx.userTokenAccount then votes.toNat else 0 : ℕ) - (if k = ctx.store then votes.toNat else 0 : ℕ)
  | _ => 0

/-- The step from `w` to `w'` is the vote call `e` of `u`. -/
structure Casts (u : Pubkey) (w : World T) (e : Event) (w' : World T) : Prop where
  reserve : w'.tokenInfo.reserveTotal = w.tokenInfo.reserveTotal + e.worth (w.user u)
  total : w'.tokenInfo.totalVotes = w.tokenInfo.totalVotes + e.count
  settings : ∃ r t, w'.tokenInfo = { w.tokenInfo with reserveTotal := r, totalVotes := t }
  users : w'.users = w.users.insert u (e.recast (w.user u))
  published : w'.priceAccount.pricePerShare = published w'.tokenInfo
  key : w'.priceAccount.key = w.priceAccount.key
  priceMint : w'.priceAccount.priceMint = w.priceAccount.priceMint
  balance : ∀ k, (T.balance w'.ledger k : ℤ) = T.balance w.ledger k + e.inflow k
  holds : ∀ k m o, T.Holds w'.ledger k m o ↔ T.Holds w.ledger k m o
  supply : T.supply w'.ledger = T.supply w.ledger

section Casts

variable (hT : T.Lawful) {ctx : VoteAccounts} {votes price : UInt64}
include hT

theorem AddVotes.Effect.balance (h : AddVotes.Effect pa w ctx votes price w') (k : Pubkey) :
    T.balance w'.ledger k + (if k = ctx.userTokenAccount then votes.toNat else 0) =
      T.balance w.ledger k + (if k = ctx.store then votes.toNat else 0) := by
  have hne : ctx.userTokenAccount ≠ ctx.store := h.payer.ne h.store (ctx.signer.key_ne rfl)
  have hd := h.deposit
  unfold AddVotes.deposit at hd
  split at hd
  · exact hT.transfer_balance (Guard.okOr_ok_iff.mp hd) hne k
  · rename_i h0
    obtain rfl : votes = 0 := by
      apply UInt64.toNat_inj.mp
      exact Nat.eq_zero_of_not_pos fun hpos => h0 (UInt64.lt_iff_toNat_lt.mpr hpos)
    rw [← Guard.pure_ok_iff.mp hd]
    simp

theorem RemoveVotes.Effect.balance (h : RemoveVotes.Effect pa w ctx votes w') (k : Pubkey) :
    T.balance w'.ledger k + (if k = ctx.store then votes.toNat else 0) =
      T.balance w.ledger k + (if k = ctx.userTokenAccount then votes.toNat else 0) :=
  hT.transfer_balance h.withdrawal (h.payee.ne h.store (ctx.signer.key_ne rfl)).symm k

theorem Step.casts (h : Step pa w e w') (hv : e.voter = some u) : Casts u w e w' := by
  obtain ⟨hkey, hmint⟩ := h.price_frame
  cases h with
  | addVote ha =>
      cases hv
      have he := addVote_effect ha
      exact {
        reserve := by
          rw [he.tokenInfo, Event.worth, UserInfo.value]
          grind
        total := by rw [he.tokenInfo]; rfl
        settings := ⟨_, _, he.tokenInfo⟩
        users := he.users
        published := he.published
        key := hkey
        priceMint := hmint
        balance := fun k => by
          have := he.balance hT k
          simp only [Event.inflow]
          omega
        holds := fun k m o => he.holds hT
        supply := he.supply hT }
  | removeVote hr =>
      cases hv
      have he := removeVote_effect hr
      exact {
        reserve := by rw [he.tokenInfo]; exact UInt64.sub_eq_add_neg _ _
        total := by rw [he.tokenInfo]; exact UInt64.sub_eq_add_neg _ _
        settings := ⟨_, _, he.tokenInfo⟩
        users := he.users
        published := he.published
        key := hkey
        priceMint := hmint
        balance := fun k => by
          have := he.balance hT k
          simp only [Event.inflow]
          omega
        holds := fun k m o => he.holds hT
        supply := he.supply hT }
  | initUserInfo _ => cases hv
  | setMinPrice _ => cases hv
  | outside _ => cases hv

end Casts

/-! ## Two calls -/

theorem Casts.user_other (h : Casts u₁ w e w') (hne : u₂ ≠ u₁) : w'.user u₂ = w.user u₂ :=
  World.user_insert_ne h.users hne

section Orders

variable (h₁ : Casts u₁ w e₁ w₁) (h₁₂ : Casts u₂ w₁ e₂ w₁₂) (h₂ : Casts u₂ w e₂ w₂) (h₂₁ : Casts u₁ w₂ e₁ w₂₁)
  (hne : u₁ ≠ u₂)
include h₁ h₁₂ h₂ h₂₁ hne

theorem Casts.tokenInfo_comm : w₁₂.tokenInfo = w₂₁.tokenInfo := by
  have hreserve : w₁₂.tokenInfo.reserveTotal = w₂₁.tokenInfo.reserveTotal := by
    rw [h₁₂.reserve, h₁.reserve, h₂₁.reserve, h₂.reserve, h₁.user_other hne.symm, h₂.user_other hne]
    ac_rfl
  have htotal : w₁₂.tokenInfo.totalVotes = w₂₁.tokenInfo.totalVotes := by
    rw [h₁₂.total, h₁.total, h₂₁.total, h₂.total]
    ac_rfl
  obtain ⟨_, _, hs₁⟩ := h₁.settings
  obtain ⟨_, _, hs₁₂⟩ := h₁₂.settings
  obtain ⟨_, _, hs₂⟩ := h₂.settings
  obtain ⟨_, _, hs₂₁⟩ := h₂₁.settings
  rw [hs₁₂, hs₂₁] at hreserve htotal
  rw [hs₁₂, hs₂₁, hs₁, hs₂]
  simp only at hreserve htotal ⊢
  rw [hreserve, htotal]

theorem Casts.users_comm (k : Pubkey) : w₁₂.users.lookup k = w₂₁.users.lookup k := by
  rw [h₁₂.users, h₁.users, h₂₁.users, h₂.users, h₁.user_other hne.symm, h₂.user_other hne]
  by_cases hk₁ : k = u₁
  · subst hk₁
    rw [AList.lookup_insert_ne hne, AList.lookup_insert, AList.lookup_insert]
  · by_cases hk₂ : k = u₂
    · subst hk₂
      rw [AList.lookup_insert, AList.lookup_insert_ne hk₁, AList.lookup_insert]
    · rw [AList.lookup_insert_ne hk₂, AList.lookup_insert_ne hk₁, AList.lookup_insert_ne hk₁,
        AList.lookup_insert_ne hk₂]

omit hne in
theorem Casts.account_comm : T.account w₁₂.ledger = T.account w₂₁.ledger := by
  funext k
  apply TokenProgram.account_ext
  · intro m o
    rw [h₁₂.holds, h₁.holds, h₂₁.holds, h₂.holds]
  · have hb₁ := h₁.balance k
    have hb₁₂ := h₁₂.balance k
    have hb₂ := h₂.balance k
    have hb₂₁ := h₂₁.balance k
    omega

/-- All but the flag is the same in either order, and from any state. -/
theorem Casts.same (hflag : w₁₂.priceAccount.allowedToCombine = w₂₁.priceAccount.allowedToCombine) :
    World.Same w₁₂ w₂₁ := by
  have hinfo := Casts.tokenInfo_comm h₁ h₁₂ h₂ h₂₁ hne
  have hprice : w₁₂.priceAccount.pricePerShare = w₂₁.priceAccount.pricePerShare := by
    rw [h₁₂.published, h₂₁.published, hinfo]
  have hkey : w₁₂.priceAccount.key = w₂₁.priceAccount.key := by rw [h₁₂.key, h₁.key, h₂₁.key, h₂.key]
  have hmint : w₁₂.priceAccount.priceMint = w₂₁.priceAccount.priceMint := by
    rw [h₁₂.priceMint, h₁.priceMint, h₂₁.priceMint, h₂.priceMint]
  exact {
    priceAccount := by
      cases hp : w₁₂.priceAccount
      cases hp' : w₂₁.priceAccount
      simp_all
    tokenInfo := hinfo
    users := Casts.users_comm h₁ h₁₂ h₂ h₂₁ hne
    account := Casts.account_comm h₁ h₁₂ h₂ h₂₁
    supply := by rw [h₁₂.supply, h₁.supply, h₂₁.supply, h₂.supply] }

end Orders

/-! ## The flag -/

/-- More than half of the supply of `mint`, as a set of integers. -/
def High (ledger : T.Ledger) (mint : Pubkey) (votes : ℤ) : Prop := (T.outstanding ledger mint / 2 : ℕ) < votes

theorem high_mono {ledger : T.Ledger} {mint : Pubkey} : Monotone (High (T := T) ledger mint) :=
  fun _ _ hle h => lt_of_lt_of_le h hle

def Event.rise : Event → ℤ
  | .addVote _ votes _ => votes.toNat
  | .removeVote _ votes => - votes.toNat
  | _ => 0

/-- A vote call counts the votes exactly and moves the flag as a latch. -/
theorem Backed.latch (hT : T.Lawful) (hb : Backed pa es w) (h : restrict (Step pa) NamesStore w e w')
    (hv : e.voter = some u) :
    (w'.tokenInfo.totalVotes.toNat : ℤ) = w.tokenInfo.totalVotes.toNat + e.rise ∧
    (w'.priceAccount.allowedToCombine = true ↔ Latch.next (High w.ledger w.tokenInfo.mint)
      w.tokenInfo.totalVotes.toNat (w.priceAccount.allowedToCombine = true) e.rise) := by
  obtain ⟨hstep, hs⟩ := h
  cases hstep with
  | @addVote ctx votes price _ ha =>
      have he := addVote_effect ha
      have htotal := hb.total_add hT he hs
      have hrise : (0 : ℤ) ≤ votes.toNat := Int.natCast_nonneg _
      constructor
      · rw [htotal, Event.rise]
        exact Nat.cast_add _ _
      · rw [he.allowed_iff, Event.rise, Latch.next_up hrise, hb.names_mint hs he.store, MoreThanHalf, High, htotal,
          or_comm]
        norm_cast
  | @removeVote ctx votes _ hr =>
      have he := removeVote_effect hr
      obtain ⟨hle, htotal⟩ := hb.total_remove he
      have hpos : 0 < votes.toNat := by
        apply Nat.pos_of_ne_zero
        intro h0
        exact he.some_votes (UInt64.toNat_inj.mp h0)
      have hrise : -(votes.toNat : ℤ) < 0 := by omega
      have hcast : ((w.tokenInfo.totalVotes.toNat - votes.toNat : ℕ) : ℤ) =
          w.tokenInfo.totalVotes.toNat + -(votes.toNat : ℤ) := by omega
      constructor
      · rw [htotal, Event.rise, hcast]
      · rw [he.allowed_iff, Event.rise, Latch.next_down hrise, hb.names_mint hs he.store, MoreThanHalf, High, htotal,
          ← hcast, and_comm]
        norm_cast
  | initUserInfo _ => cases hv
  | setMinPrice _ => cases hv
  | outside _ => cases hv

theorem Backed.latch_twice (hT : T.Lawful) (hb : Backed pa es w) (h₁ : restrict (Step pa) NamesStore w e₁ w₁)
    (h₁₂ : restrict (Step pa) NamesStore w₁ e₂ w₁₂) (hv₁ : e₁.voter = some u₁) (hv₂ : e₂.voter = some u₂) :
    w₁₂.priceAccount.allowedToCombine = true ↔
      Latch.next (High w.ledger w.tokenInfo.mint) (w.tokenInfo.totalVotes.toNat + e₁.rise)
        (Latch.next (High w.ledger w.tokenInfo.mint) w.tokenInfo.totalVotes.toNat
          (w.priceAccount.allowedToCombine = true) e₁.rise) e₂.rise := by
  have hcasts := h₁.1.casts hT hv₁
  obtain ⟨_, _, hinfo⟩ := hcasts.settings
  have hhigh : High w₁.ledger w₁.tokenInfo.mint = High w.ledger w.tokenInfo.mint := by
    funext n
    rw [High, High, TokenProgram.outstanding, TokenProgram.outstanding, hcasts.supply, hinfo]
  obtain ⟨htotal, hflag⟩ := hb.latch hT h₁ hv₁
  obtain ⟨-, hflag'⟩ := (hb.step hT h₁).latch hT h₁₂ hv₂
  rw [hflag', hhigh, htotal, hflag]

theorem Backed.votes_comm (hT : T.Lawful) (hb : Backed pa es w)
    (h₁ : restrict (Step pa) NamesStore w e₁ w₁) (h₁₂ : restrict (Step pa) NamesStore w₁ e₂ w₁₂)
    (h₂ : restrict (Step pa) NamesStore w e₂ w₂) (h₂₁ : restrict (Step pa) NamesStore w₂ e₁ w₂₁)
    (hv₁ : e₁.voter = some u₁) (hv₂ : e₂.voter = some u₂) (hne : u₁ ≠ u₂) : World.Same w₁₂ w₂₁ := by
  refine Casts.same (h₁.1.casts hT hv₁) (h₁₂.1.casts hT hv₂) (h₂.1.casts hT hv₂) (h₂₁.1.casts hT hv₁) hne ?_
  apply Bool.eq_iff_iff.mpr
  rw [hb.latch_twice hT h₁ h₁₂ hv₁ hv₂, hb.latch_twice hT h₂ h₂₁ hv₂ hv₁]
  exact Latch.next_comm high_mono

end FractionAuction.PriceTracker
