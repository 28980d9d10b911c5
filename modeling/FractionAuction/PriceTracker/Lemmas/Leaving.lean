import FractionAuction.PriceTracker.Lemmas.Admission
import FractionAuction.PriceTracker.Lemmas.Order

/-!
# Taking votes back

No check of `remove_vote` looks at a price, so votes with tokens behind them can be taken back at any time. The votes
of one user do not stand in the way of another's.
-/

namespace FractionAuction.PriceTracker

open Guard FixedPoint Lts

variable {T : TokenProgram Pubkey} {pa : Pubkey} {w₀ w w' : World T} {es : List Event}

/-- Some votes that their owner takes back. -/
structure Removal where
  accounts : RemoveVotes
  votes : UInt64

namespace Removal

variable {x y : Removal} {xs : List Removal}

def voter (x : Removal) : Pubkey := x.accounts.signer.key

def event (x : Removal) : Event := .removeVote x.accounts x.votes

/-- The voter names the recorded mint and store and an account of its own, and has the votes. -/
structure Ready (w : World T) (x : Removal) : Prop where
  store : x.accounts.store = w.tokenInfo.store
  mint : x.accounts.storeMint = w.tokenInfo.mint
  target : T.Holds w.ledger x.accounts.userTokenAccount w.tokenInfo.mint x.voter
  some_votes : x.votes ≠ 0
  enough : x.votes ≤ (w.user x.voter).votes

/-! ## Sums -/

def total (xs : List Removal) : ℕ := (xs.map fun x => x.votes.toNat).sum

/-- The votes of `u` among `xs`. -/
def takenBy (u : Pubkey) (xs : List Removal) : ℕ := total (xs.filter fun x => x.voter = u)

/-- What is paid into the account `k`. -/
def paidTo (k : Pubkey) (xs : List Removal) : ℕ := total (xs.filter fun x => x.accounts.userTokenAccount = k)

theorem total_cons : total (x :: xs) = x.votes.toNat + total xs := by
  rw [total, List.map_cons, List.sum_cons, total]

theorem total_filter_cons (p : Removal → Bool) :
    total ((x :: xs).filter p) = (if p x then x.votes.toNat else 0) + total (xs.filter p) := by
  rw [List.filter_cons]
  split
  · exact total_cons
  · exact (Nat.zero_add _).symm

/-! ## One call -/

/-- It is granted. -/
theorem Ready.granted (hT : T.Lawful) (hM : T.Minted) (hb : Backed pa es w) (hr : x.Ready w) :
    ∃ w', removeVote pa w x.accounts x.votes = .ok w' := by
  have hpos : 0 < x.votes.toNat := Nat.pos_of_ne_zero fun h => hr.some_votes (UInt64.toNat_inj.mp h)
  have henough := UInt64.le_iff_toNat_le.mp hr.enough
  obtain ⟨n, hn⟩ := hb.store
  obtain ⟨t, ht⟩ := hr.target
  have hfunds : x.votes.toNat ≤ n.toNat := by
    have hbacked := hb.backed
    have huser := hb.user_le x.voter
    rw [TokenProgram.balance_of_account hn] at hbacked
    exact le_trans henough (le_trans huser hbacked)
  obtain ⟨supply, hsupply⟩ := hM _ _ _ hn (UInt64.lt_iff_toNat_lt.mpr (lt_of_lt_of_le hpos hfunds))
  obtain ⟨L, hL⟩ := hT.transfer_total hn ht rfl (UInt64.le_iff_toNat_le.mpr hfunds)
  obtain ⟨i, hi⟩ : ∃ i, w.users.lookup x.voter = some i := by
    cases hi : w.users.lookup x.voter with
    | some i => exact ⟨i, rfl⟩
    | none =>
        rw [World.user, hi] at henough
        exact absurd (lt_of_lt_of_le hpos henough) (Nat.lt_irrefl 0)
  have huser : w.user x.voter = i := by simp [World.user, hi]
  have hstore : T.Holds w.ledger x.accounts.store x.accounts.storeMint (.storeAuthority pa) := by
    rw [hr.store, hr.mint]
    exact hb.store
  obtain ⟨c, hload, hcheck, -⟩ := VoteAccounts.check_of hstore ht rfl hr.mint.symm (hr.mint ▸ hsupply)
  simp only [PriceTracker.removeVote, RemoveVotes.handler, bind_ok_iff, okOr_ok_iff, failIf_ok_iff, contribution_ok,
    halfSupply_ok, pricePerShare_ok, pure_ok_iff]
  refine ⟨_, c, hload, i, hi, (), hcheck, (), hr.some_votes, (), UInt64.not_lt.mpr (huser ▸ hr.enough), _, rfl, _, rfl, _, rfl, L,
    ?_, rfl⟩
  rw [hr.store]
  exact hL

/-- Another voter can still take votes back afterwards. -/
theorem Ready.after (hT : T.Lawful) (hr : y.Ready w) (h : RemoveVotes.Effect pa w x.accounts x.votes w')
    (hne : y.voter ≠ x.voter) : y.Ready w' := by
  obtain ⟨hstore, hmint⟩ : w'.tokenInfo.store = w.tokenInfo.store ∧ w'.tokenInfo.mint = w.tokenInfo.mint := by
    rw [h.tokenInfo]
    exact ⟨rfl, rfl⟩
  refine ⟨hr.store.trans hstore.symm, hr.mint.trans hmint.symm, ?_, hr.some_votes, ?_⟩
  · rw [hmint]
    exact (h.holds hT).mpr hr.target
  · rw [World.user_insert_ne h.users hne]
    exact hr.enough

end Removal

/-! ## All of them -/

/-- Nothing is left to vote for. -/
structure Vacant (w : World T) : Prop where
  price : w.priceAccount.pricePerShare = w.tokenInfo.minPrice
  flag : w.priceAccount.allowedToCombine = false

theorem RemoveVotes.Effect.vacant {ctx : RemoveVotes} {votes : UInt64} (h : RemoveVotes.Effect pa w ctx votes w')
    (h0 : w'.tokenInfo.totalVotes = 0) : Vacant w' := by
  obtain ⟨supply, -, hallowed⟩ := h.allowed
  constructor
  · rw [h.published, PriceTracker.published, h0, if_neg (by decide)]
  · rw [hallowed, h0, if_pos (UInt64.le_iff_toNat_le.mpr (Nat.zero_le _))]

/-- What is left to do of the removals `xs`: those in `rest` can still be made, and all that has been taken back is
counted and paid. -/
structure Leaving (pa : Pubkey) (w₀ : World T) (xs rest : List Removal) (w : World T) : Prop where
  backed : ∃ es, Backed pa es w
  distinct : (rest.map Removal.voter).Nodup
  ready {x} : x ∈ rest → x.Ready w
  total : w.tokenInfo.totalVotes.toNat + Removal.total xs = w₀.tokenInfo.totalVotes.toNat + Removal.total rest
  user u : (w.user u).votes.toNat + Removal.takenBy u xs = (w₀.user u).votes.toNat + Removal.takenBy u rest
  store : w.tokenInfo.store = w₀.tokenInfo.store
  paid {k} : k ≠ w₀.tokenInfo.store →
    T.balance w.ledger k + Removal.paidTo k rest = T.balance w₀.ledger k + Removal.paidTo k xs
  vacant : xs = rest ∨ (w.tokenInfo.totalVotes = 0 → Vacant w)

theorem Leaving.next (hT : T.Lawful) (hM : T.Minted) {x : Removal} {xs rest : List Removal}
    (hl : Leaving pa w₀ xs (x :: rest) w) : ∃ e w', e = x.event ∧ restrict (Step pa) NamesStore w e w' ∧
      Leaving pa w₀ xs rest w' := by
  obtain ⟨es, hb⟩ := hl.backed
  have hr := hl.ready List.mem_cons_self
  obtain ⟨w', h⟩ := hr.granted hT hM hb
  have he := removeVote_effect h
  have hstep : restrict (Step pa) NamesStore w x.event w' := ⟨.removeVote h, hr.store⟩
  have hdistinct := hl.distinct
  rw [List.map_cons, List.nodup_cons] at hdistinct
  have hstore : w'.tokenInfo.store = w.tokenInfo.store := by rw [he.tokenInfo]
  refine ⟨_, w', rfl, hstep, {
    backed := ⟨_, hb.step hT hstep⟩
    distinct := hdistinct.2
    ready := fun {y} hy => ?ready
    total := ?total
    user := fun u => ?user
    store := hstore.trans hl.store
    paid := fun {k} hk => ?paid
    vacant := .inr he.vacant }⟩
  case ready =>
    refine (hl.ready (List.mem_cons_of_mem _ hy)).after hT he fun heq => ?_
    exact hdistinct.1 (heq ▸ List.mem_map_of_mem hy)
  case total =>
    obtain ⟨hle, htotal⟩ := hb.total_remove he
    have hprev := hl.total
    rw [Removal.total_cons] at hprev
    omega
  case user =>
    have hprev := hl.user u
    rw [Removal.takenBy, Removal.takenBy, Removal.total_filter_cons] at hprev
    rw [Removal.takenBy, Removal.takenBy]
    by_cases hu : x.voter = u
    · subst hu
      have henough := UInt64.le_iff_toNat_le.mp hr.enough
      rw [if_pos (decide_eq_true rfl)] at hprev
      have huser : (w'.user x.voter).votes = (w.user x.voter).votes - x.votes :=
        congrArg UserInfo.votes (World.user_insert_self he.users)
      rw [huser, toNat_sub_of_le henough]
      omega
    · rw [if_neg (by simpa using hu), Nat.zero_add] at hprev
      rw [World.user_insert_ne he.users (Ne.symm hu), hprev]
  case paid =>
    have hprev := hl.paid hk
    have hbalance := he.balance hT k
    rw [if_neg (by rw [hr.store, hl.store]; exact hk), Nat.add_zero] at hbalance
    rw [Removal.paidTo, Removal.paidTo, Removal.total_filter_cons] at hprev
    rw [Removal.paidTo, Removal.paidTo]
    by_cases hu : k = x.accounts.userTokenAccount
    · subst hu
      rw [if_pos rfl] at hbalance
      rw [if_pos (decide_eq_true rfl)] at hprev
      omega
    · rw [if_neg hu] at hbalance
      rw [if_neg (by simpa using Ne.symm hu)] at hprev
      omega

/-- All of them are granted, one after another. -/
theorem Backed.leave (hT : T.Lawful) (hM : T.Minted) (hb : Backed pa es w) {xs : List Removal}
    (hdistinct : (xs.map Removal.voter).Nodup) (hready : ∀ x ∈ xs, x.Ready w) :
    ∃ w', Run (restrict (Step pa) NamesStore) w (xs.map Removal.event) w' ∧ Leaving pa w xs [] w' := by
  have hstart : Leaving pa w xs xs w := {
    backed := ⟨es, hb⟩
    distinct := hdistinct
    ready := fun hx => hready _ hx
    total := rfl
    user := fun _ => rfl
    store := rfl
    paid := fun _ => rfl
    vacant := .inl rfl }
  obtain ⟨fs, w', hevents, hrun, hdone⟩ := Run.schedule (fun _ _ _ hl => hl.next hT hM) hstart
  refine ⟨w', ?_, hdone⟩
  obtain rfl : fs = xs.map Removal.event := by
    rw [← List.forall₂_eq_eq_eq, List.forall₂_map_right_iff]
    exact hevents.flip
  exact hrun

end FractionAuction.PriceTracker
