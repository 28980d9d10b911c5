import FractionAuction.PriceTracker.Lemmas.Effects

/-!
# Votes and the tokens behind them

As long as every vote names the recorded store, each vote that is counted is a token in that store.
-/

namespace FractionAuction.PriceTracker

open FixedPoint Lts

variable {T : TokenProgram Pubkey} {pa : Pubkey} {w w' : World T}

/-! ## Users -/

theorem World.valueAt_user {f : UserInfo → ℕ} (hf : f ⟨0, 0⟩ = 0) (w : World T) (u : Pubkey) :
    w.users.valueAt f u = f (w.user u) := by
  unfold World.user
  cases h : w.users.lookup u with
  | none => rw [AList.valueAt_of_none h]; exact hf.symm
  | some i => rw [AList.valueAt_of_lookup h]; rfl

theorem World.user_insert_self {u : Pubkey} {i : UserInfo} (h : w'.users = w.users.insert u i) :
    w'.user u = i := by
  simp [World.user, h]

theorem World.user_insert_ne {u v : Pubkey} {i : UserInfo} (h : w'.users = w.users.insert u i)
    (hne : v ≠ u) : w'.user v = w.user v := by
  simp [World.user, h, AList.lookup_insert_ne hne]

/-- What one user's record contributes to a total, before and after it is written. -/
theorem World.tally_users {f : UserInfo → ℕ} (hf : f ⟨0, 0⟩ = 0) {u : Pubkey} {i : UserInfo}
    (h : w'.users = w.users.insert u i) :
    w'.users.tally f + f (w.user u) = w.users.tally f + f i := by
  rw [h, ← World.valueAt_user hf w u]
  exact AList.tally_insert u i w.users

/-! ## The two transfers -/

section Transfers

variable (hT : T.Lawful) {ctx : VoteAccounts} {votes price : UInt64}
include hT

theorem AddVotes.Effect.holds (h : AddVotes.Effect pa w ctx votes price w') {k m o : Pubkey} :
    T.Holds w'.ledger k m o ↔ T.Holds w.ledger k m o := by
  have hd := h.deposit
  unfold AddVotes.deposit at hd
  split at hd
  · exact hT.transfer_holds (Guard.okOr_ok_iff.mp hd)
  · rw [Guard.pure_ok_iff.mp hd]

theorem AddVotes.Effect.balance_store (h : AddVotes.Effect pa w ctx votes price w') :
    T.balance w'.ledger ctx.store = T.balance w.ledger ctx.store + votes.toNat := by
  have hne : ctx.userTokenAccount ≠ ctx.store := h.payer.ne h.store (ctx.signer.key_ne rfl)
  have hd := h.deposit
  unfold AddVotes.deposit at hd
  split at hd
  · exact hT.transfer_balance_destination (Guard.okOr_ok_iff.mp hd) hne
  · rename_i h0
    have : votes.toNat = 0 := by
      have := fun hpos => h0 (UInt64.lt_iff_toNat_lt.mpr hpos)
      simpa using this
    rw [← Guard.pure_ok_iff.mp hd, this, Nat.add_zero]

theorem RemoveVotes.Effect.holds (h : RemoveVotes.Effect pa w ctx votes w') {k m o : Pubkey} :
    T.Holds w'.ledger k m o ↔ T.Holds w.ledger k m o :=
  hT.transfer_holds h.withdrawal

theorem RemoveVotes.Effect.balance_store (h : RemoveVotes.Effect pa w ctx votes w') :
    T.balance w'.ledger ctx.store + votes.toNat = T.balance w.ledger ctx.store :=
  hT.transfer_balance_source h.withdrawal (h.payee.ne h.store (ctx.signer.key_ne rfl)).symm

end Transfers

/-! ## Custody -/

def Event.putIn (store u : Pubkey) : Event → ℕ
  | .addVote ctx votes _ => if ctx.store = store ∧ ctx.signer.key = u then votes.toNat else 0
  | _ => 0

def Event.takenOut (store u : Pubkey) : Event → ℕ
  | .removeVote ctx votes => if ctx.store = store ∧ ctx.signer.key = u then votes.toNat else 0
  | _ => 0

/-- The votes are counted, there is a token in the recorded store for each, and nobody took more from it
than they had put in. -/
structure Custody (pa : Pubkey) (es : List Event) (w : World T) : Prop where
  total : w.tokenInfo.totalVotes.toNat = w.users.tally fun i => i.votes.toNat
  store : T.Holds w.ledger w.tokenInfo.store w.tokenInfo.mint (.storeAuthority pa)
  backed : w.tokenInfo.totalVotes.toNat ≤ T.balance w.ledger w.tokenInfo.store
  taken : ∀ u, (es.map (Event.takenOut w.tokenInfo.store u)).sum ≤
    (es.map (Event.putIn w.tokenInfo.store u)).sum

/-- A vote call names the store that the price account recorded. -/
def NamesStore (w : World T) : Event → Prop
  | .addVote ctx _ _ => ctx.store = w.tokenInfo.store
  | .removeVote ctx _ => ctx.store = w.tokenInfo.store
  | _ => True

instance (w : World T) (e : Event) : Decidable (NamesStore w e) :=
  match e with
  | .addVote ctx _ _ => inferInstanceAs (Decidable (ctx.store = w.tokenInfo.store))
  | .removeVote ctx _ => inferInstanceAs (Decidable (ctx.store = w.tokenInfo.store))
  | .initUserInfo _ | .setMinPrice _ _ | .outside => inferInstanceAs (Decidable True)

/-- `Custody` made inductive: a user's votes are what they put in and did not take out. -/
structure Backed (pa : Pubkey) (es : List Event) (w : World T) : Prop where
  total : w.tokenInfo.totalVotes.toNat = w.users.tally fun i => i.votes.toNat
  store : T.Holds w.ledger w.tokenInfo.store w.tokenInfo.mint (.storeAuthority pa)
  backed : w.tokenInfo.totalVotes.toNat ≤ T.balance w.ledger w.tokenInfo.store
  votes : ∀ u, (w.user u).votes.toNat + (es.map (Event.takenOut w.tokenInfo.store u)).sum =
    (es.map (Event.putIn w.tokenInfo.store u)).sum

variable {es : List Event}

theorem Backed.custody (h : Backed pa es w) : Custody pa es w where
  total := h.total
  store := h.store
  backed := h.backed
  taken u := by
    have := h.votes u
    omega

theorem Backed.user_le (h : Backed pa es w) (u : Pubkey) :
    (w.user u).votes.toNat ≤ w.tokenInfo.totalVotes.toNat := by
  have := AList.valueAt_le_tally (f := fun i : UserInfo => i.votes.toNat) u w.users
  rw [World.valueAt_user rfl] at this
  rwa [h.total]

theorem Backed.initial (hT : T.Lawful) (h : Initial pa w) : Backed pa [] w := by
  obtain ⟨ledger, ctx, minPrice, hl, -, hti, hu⟩ := h.elim
  have hself := hT.initializeAccount_self hl
  exact {
    total := by simp [hti, hu]
    store := by rw [hti]; exact ⟨0, hself⟩
    backed := by simp [hti]
    votes := fun u => by simp [World.user, hu] }

/-- The books of all users, after an event that writes the record of one and is about nobody else. -/
theorem Backed.votes_of_user {e : Event} {k : Pubkey} {i : UserInfo} (hb : Backed pa es w)
    (husers : w'.users = w.users.insert k i) (hstore : w'.tokenInfo.store = w.tokenInfo.store)
    (hvotes : i.votes.toNat + e.takenOut w.tokenInfo.store k =
      (w.user k).votes.toNat + e.putIn w.tokenInfo.store k)
    (hother : ∀ u, u ≠ k → e.takenOut w.tokenInfo.store u = 0 ∧ e.putIn w.tokenInfo.store u = 0) (u : Pubkey) :
    (w'.user u).votes.toNat + ((es ++ [e]).map (Event.takenOut w'.tokenInfo.store u)).sum =
      ((es ++ [e]).map (Event.putIn w'.tokenInfo.store u)).sum := by
  have hu := hb.votes u
  rw [sum_map_snoc, sum_map_snoc, hstore]
  by_cases hk : u = k
  · subst hk
    rw [World.user_insert_self husers]
    omega
  · obtain ⟨htaken, hput⟩ := hother u hk
    rw [World.user_insert_ne husers hk, htaken, hput]
    exact hu

section Votes

variable (hT : T.Lawful) {ctx : VoteAccounts} {votes price : UInt64}
include hT

/-- Nothing overflows while the store can hold the votes. -/
theorem Backed.add_fits (hb : Backed pa es w) (h : AddVotes.Effect pa w ctx votes price w')
    (hs : ctx.store = w.tokenInfo.store) :
    w.tokenInfo.totalVotes.toNat + votes.toNat < 2 ^ 64 := by
  have hbal := h.balance_store hT
  have hlt : T.balance w'.ledger ctx.store < 2 ^ 64 := TokenProgram.balance_lt
  have := hb.backed
  rw [← hs] at this
  omega

theorem Backed.total_add (hb : Backed pa es w) (h : AddVotes.Effect pa w ctx votes price w')
    (hs : ctx.store = w.tokenInfo.store) :
    w'.tokenInfo.totalVotes.toNat = w.tokenInfo.totalVotes.toNat + votes.toNat := by
  rw [h.tokenInfo]
  exact toNat_add_of_lt (hb.add_fits hT h hs)

theorem Backed.user_add (hb : Backed pa es w) (h : AddVotes.Effect pa w ctx votes price w')
    (hs : ctx.store = w.tokenInfo.store) : ((w.user ctx.signer.key).votes + votes).toNat =
      (w.user ctx.signer.key).votes.toNat + votes.toNat := by
  have hfits := hb.add_fits hT h hs
  have hle := hb.user_le ctx.signer.key
  exact toNat_add_of_lt (by omega)

theorem Backed.addVote (hb : Backed pa es w) (h : AddVotes.Effect pa w ctx votes price w')
    (hs : ctx.store = w.tokenInfo.store) : Backed pa (es ++ [.addVote ctx votes price]) w' := by
  have huser := hb.user_add hT h hs
  have htally := World.tally_users (f := fun i => i.votes.toNat) rfl h.users
  dsimp only at htally
  have htotal := hb.total_add hT h hs
  have hstore : w'.tokenInfo.store = w.tokenInfo.store := by rw [h.tokenInfo]
  have hbal := h.balance_store hT
  constructor
  case total =>
    have := hb.total
    omega
  case store => rw [h.holds hT, h.tokenInfo]; exact hb.store
  case backed =>
    have := hb.backed
    rw [hstore, ← hs, hbal, htotal]
    rw [← hs] at this
    omega
  case votes =>
    apply hb.votes_of_user h.users hstore
    · rw [huser]
      simp only [Event.takenOut, Event.putIn, hs, and_self, ↓reduceIte]
      omega
    · intro u hne
      simp [Event.takenOut, Event.putIn, Ne.symm hne]

omit hT in
theorem Backed.total_remove (hb : Backed pa es w) (h : RemoveVotes.Effect pa w ctx votes w') :
    votes.toNat ≤ w.tokenInfo.totalVotes.toNat ∧
      w'.tokenInfo.totalVotes.toNat = w.tokenInfo.totalVotes.toNat - votes.toNat := by
  have hle := le_trans (UInt64.le_iff_toNat_le.mp h.enough) (hb.user_le ctx.signer.key)
  rw [h.tokenInfo]
  exact ⟨hle, toNat_sub_of_le hle⟩

omit hT in
theorem RemoveVotes.Effect.user_remove (h : RemoveVotes.Effect pa w ctx votes w') :
    ((w.user ctx.signer.key).votes - votes).toNat = (w.user ctx.signer.key).votes.toNat - votes.toNat :=
  toNat_sub_of_le (UInt64.le_iff_toNat_le.mp h.enough)

theorem Backed.removeVote (hb : Backed pa es w) (h : RemoveVotes.Effect pa w ctx votes w')
    (hs : ctx.store = w.tokenInfo.store) : Backed pa (es ++ [.removeVote ctx votes]) w' := by
  have henough := UInt64.le_iff_toNat_le.mp h.enough
  have huser := h.user_remove
  have htally := World.tally_users (f := fun i => i.votes.toNat) rfl h.users
  dsimp only at htally
  obtain ⟨hle, htotal⟩ := hb.total_remove h
  have hstore : w'.tokenInfo.store = w.tokenInfo.store := by rw [h.tokenInfo]
  have hbal := h.balance_store hT
  constructor
  case total =>
    have := hb.total
    omega
  case store => rw [h.holds hT, h.tokenInfo]; exact hb.store
  case backed =>
    have := hb.backed
    rw [← hs] at this
    rw [hstore, ← hs]
    omega
  case votes =>
    apply hb.votes_of_user h.users hstore
    · rw [huser]
      simp only [Event.takenOut, Event.putIn, hs, and_self, ↓reduceIte]
      omega
    · intro u hne
      simp [Event.takenOut, Event.putIn, Ne.symm hne]

end Votes

theorem Backed.congr {e : Event} (hb : Backed pa es w) (hput : ∀ s u, e.putIn s u = 0)
    (htake : ∀ s u, e.takenOut s u = 0) (hti : w'.tokenInfo.totalVotes = w.tokenInfo.totalVotes)
    (hstore : w'.tokenInfo.store = w.tokenInfo.store) (hmint : w'.tokenInfo.mint = w.tokenInfo.mint)
    (htally : (w'.users.tally fun i => i.votes.toNat) = w.users.tally fun i => i.votes.toNat)
    (huser : ∀ u, (w'.user u).votes = (w.user u).votes) (hl : Outside pa w.ledger w'.ledger) :
    Backed pa (es ++ [e]) w' where
  total := by rw [hti, htally, hb.total]
  store := by rw [hstore, hmint]; exact (hl _ _ hb.store).1
  backed := by
    rw [hti, hstore]
    exact le_trans hb.backed (hl _ _ hb.store).2
  votes u := by simpa [hstore, hput, htake, huser] using hb.votes u

theorem user_of_init {ctx : InitUserInfo} (h : ctx.handler w = .ok w') (u : Pubkey) :
    w'.user u = w.user u := by
  obtain ⟨hnone, rfl⟩ := InitUserInfo.effect h
  by_cases hk : u = ctx.signer.key
  · subst hk; simp [World.user, hnone]
  · simp [World.user, AList.lookup_insert_ne hk]

theorem tally_of_init {f : UserInfo → ℕ} (hf : f ⟨0, 0⟩ = 0) {ctx : InitUserInfo}
    (h : ctx.handler w = .ok w') : w'.users.tally f = w.users.tally f := by
  obtain ⟨hnone, rfl⟩ := InitUserInfo.effect h
  have := AList.tally_insert (f := f) ctx.signer.key ⟨0, 0⟩ w.users
  rw [AList.valueAt_of_none hnone, hf] at this
  exact this

theorem Backed.step (hT : T.Lawful) {e : Event} (hb : Backed pa es w)
    (h : restrict (Step pa) NamesStore w e w') : Backed pa (es ++ [e]) w' := by
  obtain ⟨hstep, hnames⟩ := h
  cases hstep with
  | initUserInfo hi =>
      have huser := user_of_init hi
      have htally := tally_of_init (f := fun i => i.votes.toNat) rfl hi
      obtain ⟨-, rfl⟩ := InitUserInfo.effect hi
      exact hb.congr (fun _ _ => rfl) (fun _ _ => rfl) rfl rfl rfl htally
        (fun u => by rw [huser u]) (Outside.refl _)
  | setMinPrice hm =>
      obtain ⟨-, rfl⟩ := SetMinPrice.effect hm
      exact hb.congr (fun _ _ => rfl) (fun _ _ => rfl) rfl rfl rfl rfl (fun _ => rfl) (Outside.refl _)
  | addVote ha => exact hb.addVote hT (addVote_effect ha) hnames
  | removeVote hr => exact hb.removeVote hT (removeVote_effect hr) hnames
  | outside ho =>
      exact hb.congr (fun _ _ => rfl) (fun _ _ => rfl) rfl rfl rfl rfl (fun _ => rfl) ho

theorem Backed.run (hT : T.Lawful) {w₀ : World T} (h₀ : Initial pa w₀)
    (h : Run (restrict (Step pa) NamesStore) w₀ es w) : Backed pa es w :=
  h.invariant_trace (fun _ _ _ _ hb hstep => hb.step hT hstep) (Backed.initial hT h₀)

end FractionAuction.PriceTracker
