import FractionAuction.PriceTracker.Lemmas.Reserve

/-!
# Half of the fractions

`add_vote` may only set the flag that allows to combine, `remove_vote` may only clear it, and both look at the
supply of the mint that the caller names.
-/

namespace FractionAuction.PriceTracker

open FixedPoint Lts

variable {T : TokenProgram Pubkey} {pa : Pubkey} {w₀ w w' : World T} {es : List Event} {e : Event}

/-! ## The flag after a call -/

/-- `votes` are more than half of the supply of `mint`. -/
def MoreThanHalf (ledger : T.Ledger) (mint : Pubkey) (votes : UInt64) : Prop :=
  T.outstanding ledger mint / 2 < votes.toNat

instance (ledger : T.Ledger) (mint : Pubkey) (votes : UInt64) : Decidable (MoreThanHalf ledger mint votes) :=
  Nat.decLt _ _

theorem moreThanHalf_iff {ledger : T.Ledger} {mint : Pubkey} {supply votes : UInt64}
    (h : T.supply ledger mint = some supply) : MoreThanHalf ledger mint votes ↔ votes > supply / 2 := by
  rw [MoreThanHalf, TokenProgram.outstanding_of_supply h, gt_iff_lt, UInt64.lt_iff_toNat_lt, UInt64.toNat_div]
  rfl

theorem moreThanHalf_congr {L L' : T.Ledger} (h : T.supply L' = T.supply L) {mint : Pubkey} {votes : UInt64} :
    MoreThanHalf L' mint votes ↔ MoreThanHalf L mint votes := by
  rw [MoreThanHalf, MoreThanHalf, TokenProgram.outstanding, TokenProgram.outstanding, h]

theorem MoreThanHalf.mono {L L' : T.Ledger} {mint : Pubkey} {votes votes' : UInt64} (h : MoreThanHalf L mint votes)
    (hsupply : T.outstanding L' mint ≤ T.outstanding L mint) (hvotes : votes.toNat ≤ votes'.toNat) :
    MoreThanHalf L' mint votes' :=
  lt_of_le_of_lt (Nat.div_le_div_right hsupply) (lt_of_lt_of_le h hvotes)

section Votes

variable {ctx : VoteAccounts} {votes price : UInt64}

theorem AddVotes.Effect.supply (hT : T.Lawful) (h : AddVotes.Effect pa w ctx votes price w') :
    T.supply w'.ledger = T.supply w.ledger := by
  have hd := h.deposit
  unfold AddVotes.deposit at hd
  split at hd
  · exact hT.transfer_supply (Guard.okOr_ok_iff.mp hd)
  · rw [Guard.pure_ok_iff.mp hd]

theorem RemoveVotes.Effect.supply (hT : T.Lawful) (h : RemoveVotes.Effect pa w ctx votes w') :
    T.supply w'.ledger = T.supply w.ledger :=
  hT.transfer_supply h.withdrawal

theorem AddVotes.Effect.allowed_iff (h : AddVotes.Effect pa w ctx votes price w') :
    w'.priceAccount.allowedToCombine = true ↔ MoreThanHalf w.ledger ctx.storeMint w'.tokenInfo.totalVotes ∨
      w.priceAccount.allowedToCombine = true := by
  obtain ⟨supply, hsupply, hflag⟩ := h.allowed
  rw [hflag, moreThanHalf_iff hsupply]
  split <;> simp_all

theorem RemoveVotes.Effect.allowed_iff (h : RemoveVotes.Effect pa w ctx votes w') :
    w'.priceAccount.allowedToCombine = true ↔ MoreThanHalf w.ledger ctx.storeMint w'.tokenInfo.totalVotes ∧
      w.priceAccount.allowedToCombine = true := by
  obtain ⟨supply, hsupply, hflag⟩ := h.allowed
  rw [hflag, moreThanHalf_iff hsupply]
  split <;> simp_all

/-- A store in the name of the store authority fixes the mint that a vote names. -/
theorem Backed.names_mint (hb : Backed pa es w) (hs : ctx.store = w.tokenInfo.store)
    (hstore : T.Holds w.ledger ctx.store ctx.storeMint (.storeAuthority pa)) :
    ctx.storeMint = w.tokenInfo.mint := by
  rw [hs] at hstore
  exact (hstore.unique hb.store).1

theorem Backed.allowed_add (hT : T.Lawful) (hb : Backed pa es w) (h : AddVotes.Effect pa w ctx votes price w')
    (hs : ctx.store = w.tokenInfo.store) : w'.priceAccount.allowedToCombine = true ↔
      MoreThanHalf w'.ledger w'.tokenInfo.mint w'.tokenInfo.totalVotes ∨
        w.priceAccount.allowedToCombine = true := by
  have hmint : w'.tokenInfo.mint = w.tokenInfo.mint := by rw [h.tokenInfo]
  rw [h.allowed_iff, moreThanHalf_congr (h.supply hT), hmint, hb.names_mint hs h.store]

theorem Backed.allowed_remove (hT : T.Lawful) (hb : Backed pa es w) (h : RemoveVotes.Effect pa w ctx votes w')
    (hs : ctx.store = w.tokenInfo.store) : w'.priceAccount.allowedToCombine = true ↔
      MoreThanHalf w'.ledger w'.tokenInfo.mint w'.tokenInfo.totalVotes ∧
        w.priceAccount.allowedToCombine = true := by
  have hmint : w'.tokenInfo.mint = w.tokenInfo.mint := by rw [h.tokenInfo]
  rw [h.allowed_iff, moreThanHalf_congr (h.supply hT), hmint, hb.names_mint hs h.store]

theorem Backed.more_add (hT : T.Lawful) (hb : Backed pa es w) (h : AddVotes.Effect pa w ctx votes price w')
    (hs : ctx.store = w.tokenInfo.store) (hmore : MoreThanHalf w.ledger w.tokenInfo.mint w.tokenInfo.totalVotes) :
    MoreThanHalf w'.ledger w'.tokenInfo.mint w'.tokenInfo.totalVotes := by
  have hmint : w'.tokenInfo.mint = w.tokenInfo.mint := by rw [h.tokenInfo]
  have htotal := hb.total_add hT h hs
  rw [hmint, moreThanHalf_congr (h.supply hT)]
  exact hmore.mono le_rfl (by omega)

theorem Backed.more_remove (hT : T.Lawful) (hb : Backed pa es w) (h : RemoveVotes.Effect pa w ctx votes w')
    (hmore : MoreThanHalf w'.ledger w'.tokenInfo.mint w'.tokenInfo.totalVotes) :
    MoreThanHalf w.ledger w.tokenInfo.mint w.tokenInfo.totalVotes := by
  have hmint : w'.tokenInfo.mint = w.tokenInfo.mint := by rw [h.tokenInfo]
  have htotal := (hb.total_remove h).2
  rw [hmint, moreThanHalf_congr (h.supply hT)] at hmore
  exact hmore.mono le_rfl (by omega)

end Votes

/-! ## The flag and the majority -/

/-- The vault may be combined exactly if more than half of the recorded mint is voted. -/
def ShowsMajority (w : World T) : Prop :=
  w.priceAccount.allowedToCombine = true ↔ MoreThanHalf w.ledger w.tokenInfo.mint w.tokenInfo.totalVotes

/-- Whatever other programs mint or burn, the votes stay on their side of half the recorded mint. -/
def KeepsSide (w : World T) (e : Event) (w' : World T) : Prop :=
  e = .outside → (MoreThanHalf w'.ledger w.tokenInfo.mint w.tokenInfo.totalVotes ↔
    MoreThanHalf w.ledger w.tokenInfo.mint w.tokenInfo.totalVotes)

/-- The steps that meet both conditions: votes name the recorded store, and nothing outside carries them across half. -/
def Steady (pa : Pubkey) (w : World T) (e : Event) (w' : World T) : Prop :=
  restrict (Step pa) NamesStore w e w' ∧ KeepsSide w e w'

/-- A call tests one side of half only. The flag it finds settles the other: votes that are added keep a majority, and
votes that are removed do not make one. -/
theorem ShowsMajority.step_iff (hT : T.Lawful) (hs : ShowsMajority w) (hb : Backed pa es w)
    (h : restrict (Step pa) NamesStore w e w') : ShowsMajority w' ↔ KeepsSide w e w' := by
  obtain ⟨hstep, hnames⟩ := h
  cases hstep with
  | initUserInfo hi =>
      obtain ⟨-, rfl⟩ := InitUserInfo.effect hi
      exact iff_of_true hs nofun
  | setMinPrice hm =>
      obtain ⟨-, rfl⟩ := SetMinPrice.effect hm
      exact iff_of_true hs nofun
  | addVote ha =>
      have he := addVote_effect ha
      have hkeep : w.priceAccount.allowedToCombine = true →
          MoreThanHalf w'.ledger w'.tokenInfo.mint w'.tokenInfo.totalVotes :=
        fun hbefore => hb.more_add hT he hnames (hs.mp hbefore)
      have hflag := hb.allowed_add hT he hnames
      rw [or_iff_left_of_imp hkeep] at hflag
      exact iff_of_true hflag nofun
  | removeVote hr =>
      have he := removeVote_effect hr
      have hkeep : MoreThanHalf w'.ledger w'.tokenInfo.mint w'.tokenInfo.totalVotes →
          w.priceAccount.allowedToCombine = true :=
        fun hafter => hs.mpr (hb.more_remove hT he hafter)
      have hflag := hb.allowed_remove hT he hnames
      rw [and_iff_left_of_imp hkeep] at hflag
      exact iff_of_true hflag nofun
  | @outside L _ =>
      constructor
      · exact fun hs' _ => hs'.symm.trans hs
      · exact fun hk => hs.trans (hk rfl).symm

theorem ShowsMajority.initial (h : Initial pa w) : ShowsMajority w := by
  obtain ⟨_, _, _, _, hp, hti, _⟩ := h.elim
  simp [ShowsMajority, MoreThanHalf, hp, hti]

theorem ShowsMajority.run (hT : T.Lawful) (h₀ : Initial pa w₀) (h : Run (Steady pa) w₀ es w) : ShowsMajority w := by
  have hstep (es : List Event) (u : World T) (e u') : Backed pa es u ∧ ShowsMajority u → Steady pa u e u' →
      Backed pa (es ++ [e]) u' ∧ ShowsMajority u' := by
    rintro ⟨hb, hs⟩ ⟨hnames, hkeeps⟩
    exact ⟨hb.step hT hnames, (hs.step_iff hT hb hnames).mpr hkeeps⟩
  exact (h.invariant_trace hstep ⟨.initial hT h₀, .initial h₀⟩).2

/-- Without other programs, votes that name the recorded store make a steady run. -/
theorem Steady.of_votes (hout : Event.outside ∉ es) (h : Run (restrict (Step pa) NamesStore) w es w') :
    Run (Steady pa) w es w' :=
  h.mono_mem fun _ _ _ hmem hstep => ⟨hstep, fun he => absurd (he ▸ hmem) hout⟩

end FractionAuction.PriceTracker
