import Mathlib
import FractionAuction.Library.Tally
import FractionAuction.Library.TokenProgram

/-!
# A ledger of tokens

A token program in the sense of `TokenProgram`: accounts and mints in association lists, where the accounts
of a mint never hold more than its supply. It shows that `TokenProgram.Lawful` can be met.
-/

/-- What the account holds of the mint `m`. -/
def TokenAccount.held {K : Type} [DecidableEq K] (m : K) (a : TokenAccount K) : ℕ :=
  if a.mint = m then a.amount.toNat else 0

structure TokenLedger (K : Type) [DecidableEq K] where
  accounts : AList fun _ : K => TokenAccount K
  /-- The supply of each mint. -/
  mints : AList fun _ : K => UInt64
  backed : ∀ m, accounts.tally (TokenAccount.held m) ≤ mints.valueAt UInt64.toNat m

namespace TokenLedger

variable {K : Type} [DecidableEq K]

/-! ## Calls -/

section Calls

variable {accounts : AList fun _ : K => TokenAccount K} {bound : K → ℕ}

theorem backed_move {s d : K} {a b : TokenAccount K} {n : UInt64}
    (h : ∀ m, accounts.tally (TokenAccount.held m) ≤ bound m) (ha : accounts.lookup s = some a)
    (hb : accounts.lookup d = some b) (hsd : s ≠ d) (hm : b.mint = a.mint) (hn : n ≤ a.amount)
    (hfits : b.amount.toNat + n.toNat < 2 ^ 64) (m : K) :
    ((accounts.insert s { a with amount := a.amount - n }).insert d
      { b with amount := b.amount + n }).tally (TokenAccount.held m) ≤ bound m := by
  have hs := AList.tally_insert (f := TokenAccount.held m) s { a with amount := a.amount - n } accounts
  have hd := AList.tally_insert (f := TokenAccount.held m) d { b with amount := b.amount + n }
    (accounts.insert s { a with amount := a.amount - n })
  rw [AList.valueAt_insert_ne (Ne.symm hsd), AList.valueAt_of_lookup hb] at hd
  rw [AList.valueAt_of_lookup ha] at hs
  have hle := UInt64.le_iff_toNat_le.mp hn
  have hsub : (a.amount - n).toNat = a.amount.toNat - n.toNat := FixedPoint.toNat_sub_of_le hle
  have hadd : (b.amount + n).toNat = b.amount.toNat + n.toNat := FixedPoint.toNat_add_of_lt hfits
  have := h m
  by_cases hmint : a.mint = m
  · simp only [TokenAccount.held, hm, hmint, ↓reduceIte, hsub, hadd] at hs hd ⊢
    omega
  · simp only [TokenAccount.held, hm, hmint, ↓reduceIte] at hs hd ⊢
    omega

theorem pair_le {s d : K} {a b : TokenAccount K}
    (h : ∀ m, accounts.tally (TokenAccount.held m) ≤ bound m) (ha : accounts.lookup s = some a)
    (hb : accounts.lookup d = some b) (hsd : s ≠ d) (hm : b.mint = a.mint) :
    a.amount.toNat + b.amount.toNat ≤ bound a.mint := by
  have h₁ := AList.tally_erase (f := TokenAccount.held a.mint) s accounts
  have h₂ := AList.valueAt_le_tally (f := TokenAccount.held a.mint) d (accounts.erase s)
  rw [AList.valueAt_of_lookup ha] at h₁
  rw [AList.valueAt_of_lookup (by rw [AList.lookup_erase_ne (Ne.symm hsd)]; exact hb)] at h₂
  simp only [TokenAccount.held, hm, ↓reduceIte] at h₁ h₂
  have := h a.mint
  omega

theorem backed_insert {k : K} {a : TokenAccount K}
    (h : ∀ m, accounts.tally (TokenAccount.held m) ≤ bound m)
    (hle : ∀ m, a.held m ≤ accounts.valueAt (TokenAccount.held m) k) (m : K) :
    (accounts.insert k a).tally (TokenAccount.held m) ≤ bound m := by
  have := AList.tally_insert (f := TokenAccount.held m) k a accounts
  have := h m
  have := hle m
  omega

theorem backed_burn {mints : AList fun _ : K => UInt64} {k : K} {a : TokenAccount K} {s n : UInt64}
    (h : ∀ m, accounts.tally (TokenAccount.held m) ≤ mints.valueAt UInt64.toNat m)
    (ha : accounts.lookup k = some a) (hs : mints.lookup a.mint = some s) (hn : n ≤ a.amount) (hns : n ≤ s)
    (m : K) : (accounts.insert k { a with amount := a.amount - n }).tally (TokenAccount.held m) ≤
      (mints.insert a.mint (s - n)).valueAt UInt64.toNat m := by
  have htally := AList.tally_insert (f := TokenAccount.held m) k { a with amount := a.amount - n } accounts
  rw [AList.valueAt_of_lookup ha] at htally
  have hle := UInt64.le_iff_toNat_le.mp hn
  have hsub : (a.amount - n).toNat = a.amount.toNat - n.toNat := FixedPoint.toNat_sub_of_le hle
  have hsub' : (s - n).toNat = s.toNat - n.toNat :=
    FixedPoint.toNat_sub_of_le (UInt64.le_iff_toNat_le.mp hns)
  have hm := h m
  by_cases hmint : a.mint = m
  · subst hmint
    rw [AList.valueAt_of_lookup hs] at hm
    simp only [TokenAccount.held, ↓reduceIte, hsub] at htally
    rw [AList.valueAt_insert_self, hsub']
    omega
  · simp only [TokenAccount.held, hmint, ↓reduceIte] at htally
    rw [AList.valueAt_insert_ne (Ne.symm hmint)]
    omega

theorem backed_erase {k : K} (h : ∀ m, accounts.tally (TokenAccount.held m) ≤ bound m) (m : K) :
    (accounts.erase k).tally (TokenAccount.held m) ≤ bound m := by
  have := AList.tally_erase (f := TokenAccount.held m) k accounts
  have := h m
  omega

end Calls

theorem supply_lt (L : TokenLedger K) (m : K) : L.mints.valueAt UInt64.toNat m < 2 ^ 64 := by
  cases h : L.mints.lookup m with
  | none => simp [AList.valueAt_of_none h]
  | some n => rw [AList.valueAt_of_lookup h]; exact FixedPoint.toNat_lt n

theorem fits {L : TokenLedger K} {s d : K} {a b : TokenAccount K} {n : UInt64}
    (ha : L.accounts.lookup s = some a) (hb : L.accounts.lookup d = some b) (hsd : s ≠ d)
    (hm : b.mint = a.mint) (hn : n ≤ a.amount) : b.amount.toNat + n.toNat < 2 ^ 64 := by
  have := pair_le L.backed ha hb hsd hm
  have := supply_lt L a.mint
  have := UInt64.le_iff_toNat_le.mp hn
  omega

/-- The accounts after `n` tokens went from `s` to `d`. -/
def move (L : TokenLedger K) {s d : K} {a b : TokenAccount K} {n : UInt64}
    (ha : L.accounts.lookup s = some a) (hb : L.accounts.lookup d = some b) (hsd : s ≠ d)
    (hm : b.mint = a.mint) (hn : n ≤ a.amount) : TokenLedger K where
  accounts := (L.accounts.insert s { a with amount := a.amount - n }).insert d
    { b with amount := b.amount + n }
  mints := L.mints
  backed := backed_move L.backed ha hb hsd hm hn (fits ha hb hsd hm hn)

def transfer (s d o : K) (n : UInt64) (L : TokenLedger K) : Option (TokenLedger K) :=
  match ha : L.accounts.lookup s, hb : L.accounts.lookup d with
  | some a, some b =>
      if h : a.owner = o ∧ b.mint = a.mint ∧ n ≤ a.amount then
        if hsd : s = d then some L else some (L.move ha hb hsd h.2.1 h.2.2)
      else none
  | _, _ => none

def initializeAccount (k m o : K) (L : TokenLedger K) : Option (TokenLedger K) :=
  if h : L.accounts.lookup k = none ∧ L.mints.lookup k = none ∧ (L.mints.lookup m).isSome then
    some { L with
      accounts := L.accounts.insert k ⟨m, o, 0⟩
      backed := backed_insert L.backed fun m' => by simp [TokenAccount.held] }
  else none

def closeAccount (k o : K) (L : TokenLedger K) : Option (TokenLedger K) :=
  match L.accounts.lookup k with
  | some a =>
      if a.owner = o ∧ a.amount = 0 then
        some { L with accounts := L.accounts.erase k, backed := backed_erase L.backed }
      else none
  | none => none

def burn (k o : K) (n : UInt64) (L : TokenLedger K) : Option (TokenLedger K) :=
  match ha : L.accounts.lookup k with
  | some a =>
      match hs : L.mints.lookup a.mint with
      | some s =>
          if h : a.owner = o ∧ n ≤ a.amount ∧ n ≤ s then
            some ⟨L.accounts.insert k { a with amount := a.amount - n }, L.mints.insert a.mint (s - n),
              backed_burn L.backed ha hs h.2.1 h.2.2⟩
          else none
      | none => none
  | none => none

def program (K : Type) [DecidableEq K] : TokenProgram K where
  Ledger := TokenLedger K
  account L k := L.accounts.lookup k
  supply L m := L.mints.lookup m
  transfer := transfer
  initializeAccount := initializeAccount
  closeAccount := closeAccount

/-! ## The ledger is a lawful token program -/

theorem lookup_insert_eq_update {V : Type} (k : K) (v : V) (s : AList fun _ : K => V) :
    (fun l => (s.insert k v).lookup l) = Function.update (fun l => s.lookup l) k (some v) := by
  funext l
  by_cases h : l = k
  · subst h; simp
  · simp [h]

theorem lookup_erase_eq_update {V : Type} (k : K) (s : AList fun _ : K => V) :
    (fun l => (s.erase k).lookup l) = Function.update (fun l => s.lookup l) k none := by
  funext l
  by_cases h : l = k
  · subst h; simp
  · simp [h]

theorem transfer_eq_some {s d o : K} {n : UInt64} {L L' : TokenLedger K}
    (h : L.transfer s d o n = some L') :
    ∃ a b, L.accounts.lookup s = some a ∧ L.accounts.lookup d = some b ∧ a.owner = o ∧
      b.mint = a.mint ∧ n ≤ a.amount ∧ L'.mints = L.mints ∧ (s = d → L' = L) ∧
      (s ≠ d → b.amount.toNat + n.toNat < 2 ^ 64 ∧ L'.accounts =
        (L.accounts.insert s { a with amount := a.amount - n }).insert d
          { b with amount := b.amount + n }) := by
  unfold transfer at h
  split at h
  · rename_i a b ha hb
    split at h
    · rename_i hc
      refine ⟨a, b, ha, hb, hc.1, hc.2.1, hc.2.2, ?_⟩
      split at h
      · rename_i hsd
        obtain rfl := Option.some.inj h
        exact ⟨rfl, fun _ => rfl, fun hne => absurd hsd hne⟩
      · rename_i hsd
        obtain rfl := Option.some.inj h
        exact ⟨rfl, fun he => absurd he hsd, fun _ => ⟨fits ha hb hsd hc.2.1 hc.2.2, rfl⟩⟩
    · cases h
  · cases h

theorem burn_eq_some {k o : K} {n : UInt64} {L L' : TokenLedger K} (h : L.burn k o n = some L') :
    ∃ a s, L.accounts.lookup k = some a ∧ L.mints.lookup a.mint = some s ∧ a.owner = o ∧ n ≤ a.amount ∧
      n ≤ s ∧ L'.accounts = L.accounts.insert k { a with amount := a.amount - n } ∧
      L'.mints = L.mints.insert a.mint (s - n) := by
  unfold burn at h
  split at h
  · rename_i a ha
    split at h
    · rename_i s hs
      split at h
      · rename_i hc
        obtain rfl := Option.some.inj h
        exact ⟨a, s, ha, hs, hc.1, hc.2.1, hc.2.2, rfl, rfl⟩
      · cases h
    · cases h
  · cases h

theorem program_lawful : (program K).Lawful where
  transfer_ok h := by
    obtain ⟨a, b, ha, hb, ho, hm, hn, hmints, hself, hmove⟩ := transfer_eq_some h
    refine ⟨a, b, ha, hb, ho, hm, hn, by simp [program, hmints], fun hsd => by rw [hself hsd],
      fun hsd => ⟨(hmove hsd).1, ?_⟩⟩
    simp only [program, (hmove hsd).2]
    rw [lookup_insert_eq_update, lookup_insert_eq_update]
  transfer_total {s d n L a b} ha hb hm hn := by
    have ha' : L.accounts.lookup s = some a := ha
    have hb' : L.accounts.lookup d = some b := hb
    simp only [program, transfer]
    split
    · rename_i a' b' h₁ h₂
      obtain rfl : a = a' := Option.some.inj (ha'.symm.trans h₁)
      obtain rfl : b = b' := Option.some.inj (hb'.symm.trans h₂)
      rw [dif_pos ⟨rfl, hm, hn⟩]
      split <;> exact ⟨_, rfl⟩
    · rename_i hno
      exact (hno a b ha' hb').elim
  initializeAccount_ok {k m o L L'} h := by
    simp only [program, initializeAccount] at h ⊢
    split at h
    · rename_i hc
      obtain rfl := Option.some.inj h
      exact ⟨hc.1, rfl, lookup_insert_eq_update _ _ _⟩
    · cases h
  closeAccount_ok {k o L L'} h := by
    simp only [program, closeAccount] at h ⊢
    split at h
    · rename_i a ha
      split at h
      · rename_i hc
        obtain rfl := Option.some.inj h
        exact ⟨⟨a, ha, hc.1⟩, rfl, lookup_erase_eq_update _ _⟩
      · cases h
    · cases h
  closeAccount_total {k L a} ha h0 := by
    have ha' : L.accounts.lookup k = some a := ha
    exact ⟨{ L with accounts := L.accounts.erase k, backed := backed_erase L.backed },
      by simp [program, closeAccount, ha', h0]⟩

theorem program_minted : (program K).Minted := by
  intro L k a ha hpos
  have hheld := AList.valueAt_le_tally (f := TokenAccount.held a.mint) k L.accounts
  rw [AList.valueAt_of_lookup ha, TokenAccount.held, if_pos rfl] at hheld
  have hle := le_trans hheld (L.backed a.mint)
  cases hs : L.mints.lookup a.mint with
  | none =>
      rw [AList.valueAt_of_none hs] at hle
      have := UInt64.lt_iff_toNat_lt.mp hpos
      exact absurd (Nat.lt_of_lt_of_le this hle) (Nat.not_lt_zero _)
  | some n => exact ⟨n, hs⟩

/-! ## Ledgers written out -/

theorem backed_of_entries {accounts : AList fun _ : K => TokenAccount K} {mints : AList fun _ : K => UInt64}
    (h : ∀ e ∈ accounts.entries,
      accounts.tally (TokenAccount.held e.2.mint) ≤ mints.valueAt UInt64.toNat e.2.mint) (m : K) :
    accounts.tally (TokenAccount.held m) ≤ mints.valueAt UInt64.toNat m := by
  by_cases hm : ∃ e ∈ accounts.entries, e.2.mint = m
  · obtain ⟨e, he, rfl⟩ := hm
    exact h e he
  · have h0 : accounts.tally (TokenAccount.held m) = 0 := by
      rw [AList.tally, List.sum_eq_zero_iff]
      intro x hx
      obtain ⟨e, he, rfl⟩ := List.mem_map.mp hx
      rw [TokenAccount.held, if_neg fun hem => hm ⟨e, he, hem⟩]
    omega

/-- The ledger with the given mints and accounts, once each mint of an account is seen to cover it. -/
def ofEntries (mints : List (K × UInt64)) (accounts : List (K × TokenAccount K)) :
    Option (TokenLedger K) :=
  let ms := (mints.map fun e => (⟨e.1, e.2⟩ : Sigma fun _ : K => UInt64)).toAList
  let as := (accounts.map fun e => (⟨e.1, e.2⟩ : Sigma fun _ : K => TokenAccount K)).toAList
  if h : ∀ e ∈ as.entries, as.tally (TokenAccount.held e.2.mint) ≤ ms.valueAt UInt64.toNat e.2.mint then
    some ⟨as, ms, backed_of_entries h⟩
  else none

end TokenLedger
