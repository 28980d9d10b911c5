import FractionAuction.PriceTracker.Lemmas.Custody

/-!
# When a vote is accepted

A user with tokens can vote exactly if some price passes the minimum and the bounds around the published price.
-/

namespace FractionAuction.PriceTracker

open Guard FixedPoint Lts

variable {T : TokenProgram Pubkey} {pa : Pubkey} {w w' : World T} {es : List Event}

/-! ## The recorded store -/

/-- The recorded store is an account of the recorded mint in the name of the store authority. -/
def Recorded (pa : Pubkey) (w : World T) : Prop :=
  T.Holds w.ledger w.tokenInfo.store w.tokenInfo.mint (.storeAuthority pa)

theorem Recorded.step (hT : T.Lawful) {e : Event} (hr : Recorded pa w) (h : Step pa w e w') : Recorded pa w' := by
  cases h with
  | initUserInfo hi =>
      obtain ⟨-, rfl⟩ := InitUserInfo.effect hi
      exact hr
  | setMinPrice hm =>
      obtain ⟨-, rfl⟩ := SetMinPrice.effect hm
      exact hr
  | addVote ha =>
      have he := addVote_effect ha
      rw [Recorded, he.holds hT, he.tokenInfo]
      exact hr
  | removeVote hv =>
      have he := removeVote_effect hv
      rw [Recorded, he.holds hT, he.tokenInfo]
      exact hr
  | outside ho => exact (ho _ _ hr).1

theorem Recorded.run (hT : T.Lawful) {w₀ : World T} (h₀ : Initial pa w₀) (h : Run (Step pa) w₀ es w) :
    Recorded pa w := by
  refine h.invariant (fun _ _ _ hr hstep => hr.step hT hstep) ?_
  obtain ⟨ledger, ctx, minPrice, hl, -, hti, -⟩ := h₀.elim
  rw [Recorded, hti]
  exact ⟨0, hT.initializeAccount_self hl⟩

/-! ## The checks of add_vote -/

theorem VoteAccounts.check_of {ledger : T.Ledger} {ctx : VoteAccounts} {a : TokenAccount Pubkey} {supply : UInt64}
    (hstore : T.Holds ledger ctx.store ctx.storeMint (.storeAuthority pa))
    (ha : T.account ledger ctx.userTokenAccount = some a) (howner : a.owner = ctx.signer.key)
    (hmint : a.mint = ctx.storeMint) (hsupply : T.supply ledger ctx.storeMint = some supply) :
    ∃ c, ctx.load ledger = .ok c ∧ ctx.check pa c = .ok () ∧ c.userTokenAccount = a := by
  obtain ⟨n, hn⟩ := hstore
  simp only [VoteAccounts.load, VoteAccounts.check, bind_ok_iff, okOr_ok_iff, ensure_ok_iff, pure_ok_iff]
  exact ⟨_, ⟨_, hn, a, ha, supply, hsupply, rfl⟩, ⟨(), rfl, (), rfl, (), howner, hmint⟩, rfl⟩

theorem AddVotes.checkPrice_ok {tokenInfo : TokenInfo} {priceAccount : ExternalPriceAccount} {price : UInt64} :
    AddVotes.checkPrice tokenInfo priceAccount price = .ok () ↔ (0 < tokenInfo.totalVotes.toNat →
      priceAccount.pricePerShare.toNat / 5 ≤ price.toNat ∧ priceAccount.pricePerShare.toNat * 5 < 2 ^ 64 ∧
        price.toNat ≤ priceAccount.pricePerShare.toNat * 5) := by
  have hdiv : (priceAccount.pricePerShare / 5).toNat = priceAccount.pricePerShare.toNat / 5 := UInt64.toNat_div _ _
  unfold AddVotes.checkPrice
  split
  · rename_i hvotes
    have hpos : 0 < tokenInfo.totalVotes.toNat := UInt64.lt_iff_toNat_lt.mp hvotes
    simp only [bind_ok_iff, okOr_ok_iff, failIf_ok_iff, checkedDiv64, checkedMul64_eq_some, gt_iff_lt, UInt64.not_lt]
    constructor
    · rintro ⟨low, hlow, _, hle, high, ⟨hfits, hhigh⟩, hge⟩ -
      obtain rfl : priceAccount.pricePerShare / 5 = low := Option.some.inj hlow
      rw [UInt64.le_iff_toNat_le, hdiv] at hle
      rw [UInt64.le_iff_toNat_le, hhigh] at hge
      exact ⟨hle, hfits, hge⟩
    · intro h
      obtain ⟨hle, hfits, hge⟩ := h hpos
      have hhigh : (priceAccount.pricePerShare * 5).toNat = priceAccount.pricePerShare.toNat * 5 := by
        rw [UInt64.toNat_mul]
        exact Nat.mod_eq_of_lt hfits
      refine ⟨_, rfl, (), ?_, _, ⟨hfits, hhigh⟩, ?_⟩
      · rw [UInt64.le_iff_toNat_le, hdiv]
        exact hle
      · rw [UInt64.le_iff_toNat_le, hhigh]
        exact hge
  · rename_i hvotes
    exact iff_of_true rfl fun hpos => (hvotes (UInt64.lt_iff_toNat_lt.mpr hpos)).elim

theorem addVote_of_checks {ctx : AddVotes} {c : VoteContext} {votes price : UInt64} {L : T.Ledger}
    (hload : ctx.load w.ledger = .ok c) (hcheck : ctx.check pa c = .ok ())
    (hfunds : votes ≤ c.userTokenAccount.amount) (hmin : w.tokenInfo.minPrice ≤ price)
    (hbounds : AddVotes.checkPrice w.tokenInfo w.priceAccount price = .ok ())
    (hdeposit : AddVotes.deposit ctx votes w.ledger = .ok L) : ∃ w', addVote pa w ctx votes price = .ok w' := by
  simp only [addVote, AddVotes.handler, bind_ok_iff, failIf_ok_iff, contribution_ok, halfSupply_ok,
    pricePerShare_ok, pure_ok_iff]
  exact ⟨_, c, hload, (), hcheck, (), UInt64.not_lt.mpr hfunds, (), UInt64.not_lt.mpr hmin, (), hbounds, L, hdeposit, _, rfl,
    _, rfl, _, rfl, _, rfl, rfl⟩

/-! ## Who can vote -/

/-- The caller names the recorded mint and store and an account of its own with at least the votes, which are not
none. -/
structure AddVotes.Ready (w : World T) (ctx : AddVotes) (votes : UInt64) : Prop where
  store : ctx.store = w.tokenInfo.store
  mint : ctx.storeMint = w.tokenInfo.mint
  funds : ∃ a, T.account w.ledger ctx.userTokenAccount = some a ∧ a.owner = ctx.signer.key ∧
    a.mint = w.tokenInfo.mint ∧ votes ≤ a.amount
  some_votes : 0 < votes

/-- Some price is at least the minimum and at most five times the published price, unless nobody has voted. -/
def BoundsMeet (w : World T) : Prop :=
  w.tokenInfo.totalVotes = 0 ∨ w.priceAccount.pricePerShare.toNat * 5 < 2 ^ 64 ∧
    w.tokenInfo.minPrice.toNat ≤ w.priceAccount.pricePerShare.toNat * 5

instance (w : World T) : Decidable (BoundsMeet w) := inferInstanceAs (Decidable (_ ∨ _ ∧ _ ≤ _))

theorem AddVotes.Effect.boundsMeet {ctx : AddVotes} {votes price : UInt64}
    (h : AddVotes.Effect pa w ctx votes price w') : BoundsMeet w := by
  rcases Nat.eq_zero_or_pos w.tokenInfo.totalVotes.toNat with h0 | hpos
  · exact .inl (UInt64.toNat_inj.mp h0)
  · obtain ⟨-, hfits, hle⟩ := AddVotes.checkPrice_ok.mp h.bounds hpos
    exact .inr ⟨hfits, le_trans (UInt64.le_iff_toNat_le.mp h.minimum) hle⟩

/-- The larger of the minimum and a fifth of the published price passes all checks. -/
theorem BoundsMeet.price (h : BoundsMeet w) :
    ∃ price, w.tokenInfo.minPrice ≤ price ∧ AddVotes.checkPrice w.tokenInfo w.priceAccount price = .ok () := by
  refine ⟨max w.tokenInfo.minPrice (w.priceAccount.pricePerShare / 5), ?_, AddVotes.checkPrice_ok.mpr ?_⟩
  · rw [UInt64.le_iff_toNat_le, UInt64.toNat_max]
    exact le_max_left _ _
  · intro hpos
    have hdiv : (w.priceAccount.pricePerShare / 5).toNat = w.priceAccount.pricePerShare.toNat / 5 :=
      UInt64.toNat_div _ _
    rcases h with h0 | ⟨hfits, hmin⟩
    · rw [h0] at hpos
      exact absurd hpos (Nat.lt_irrefl 0)
    · rw [UInt64.toNat_max, hdiv]
      refine ⟨le_max_right _ _, hfits, max_le hmin ?_⟩
      omega

theorem AddVotes.Ready.accepted_iff (hT : T.Lawful) (hM : T.Minted) (hrec : Recorded pa w) {ctx : AddVotes}
    {votes : UInt64} (hr : ctx.Ready w votes) :
    (∃ price w', addVote pa w ctx votes price = .ok w') ↔ BoundsMeet w := by
  constructor
  · rintro ⟨price, w', h⟩
    exact (addVote_effect h).boundsMeet
  · intro hb
    obtain ⟨price, hmin, hbounds⟩ := hb.price
    obtain ⟨a, ha, howner, hmint, hfunds⟩ := hr.funds
    have hamount : 0 < a.amount := UInt64.lt_of_lt_of_le hr.some_votes hfunds
    obtain ⟨supply, hsupply⟩ := hM _ _ _ ha hamount
    have hstore : T.Holds w.ledger ctx.store ctx.storeMint (.storeAuthority pa) := by
      rw [hr.store, hr.mint]
      exact hrec
    obtain ⟨c, hload, hcheck, rfl⟩ := VoteAccounts.check_of hstore ha howner (hmint.trans hr.mint.symm)
      (by rw [hr.mint, ← hmint]; exact hsupply)
    obtain ⟨n, hn⟩ := hstore
    obtain ⟨L, hL⟩ := hT.transfer_total ha hn (hr.mint.trans hmint.symm) hfunds
    refine ⟨price, addVote_of_checks hload hcheck hfunds hmin hbounds (L := L) ?_⟩
    rw [AddVotes.deposit, if_pos hr.some_votes, okOr_ok_iff, ← howner]
    exact hL

end FractionAuction.PriceTracker
