import Mathlib
import FractionAuction.Library.FixedPoint

/-!
# A token program

The programs verified here move tokens by calling a token program whose code is not theirs. It is a
parameter: a type of ledgers, what can be read from one, and the three calls that are made. `Lawful` lists
what the callers rely on.
-/

/-- A token account as its readers see it. -/
structure TokenAccount (K : Type) where
  mint : K
  owner : K
  amount : UInt64
deriving DecidableEq

structure TokenProgram (K : Type) where
  Ledger : Type
  account : Ledger → K → Option (TokenAccount K)
  /-- The supply of a mint account. -/
  supply : Ledger → K → Option UInt64
  transfer : (source destination authority : K) → UInt64 → Ledger → Option Ledger
  initializeAccount : (key mint owner : K) → Ledger → Option Ledger
  closeAccount : (key authority : K) → Ledger → Option Ledger

namespace TokenProgram

variable {K : Type} (T : TokenProgram K)

/-- The tokens in the account at `k`, zero where there is no account. -/
def balance (L : T.Ledger) (k : K) : ℕ := ((T.account L k).map fun a => a.amount.toNat).getD 0

/-- The supply of `m`, zero where there is no such mint. -/
def outstanding (L : T.Ledger) (m : K) : ℕ := ((T.supply L m).map UInt64.toNat).getD 0

/-- The account at `k` exists, with this mint and this owner. -/
def Holds (L : T.Ledger) (k m o : K) : Prop := ∃ n, T.account L k = some ⟨m, o, n⟩

variable {T}

section Reading

variable {L : T.Ledger} {k k' m m' o o' : K}

theorem holds_of_account {a : TokenAccount K} (h : T.account L k = some a) :
    T.Holds L k a.mint a.owner := ⟨a.amount, h⟩

theorem balance_of_account {a : TokenAccount K} (h : T.account L k = some a) :
    T.balance L k = a.amount.toNat := by
  simp [balance, h]

theorem balance_of_none (h : T.account L k = none) : T.balance L k = 0 := by
  simp [balance, h]

theorem balance_lt : T.balance L k < 2 ^ 64 := by
  cases h : T.account L k with
  | none => simp [balance_of_none h]
  | some a => rw [balance_of_account h]; exact FixedPoint.toNat_lt _

theorem outstanding_of_supply {n : UInt64} (h : T.supply L m = some n) :
    T.outstanding L m = n.toNat := by
  simp [outstanding, h]

theorem Holds.unique (h : T.Holds L k m o) (h' : T.Holds L k m' o') : m = m' ∧ o = o' := by
  obtain ⟨n, hn⟩ := h
  obtain ⟨n', hn'⟩ := h'
  rw [hn] at hn'
  simp only [Option.some.injEq, TokenAccount.mk.injEq] at hn'
  exact ⟨hn'.1, hn'.2.1⟩

theorem Holds.ne (h : T.Holds L k m o) (h' : T.Holds L k' m' o') (hne : o ≠ o') : k ≠ k' := by
  rintro rfl
  exact hne (h.unique h').2

theorem Holds.ne_of_none (h : T.Holds L k m o) (h' : T.account L k' = none) : k ≠ k' := by
  rintro rfl
  obtain ⟨n, hn⟩ := h
  simp [hn] at h'

theorem account_ext {L' : T.Ledger} (hh : ∀ m o, T.Holds L' k m o ↔ T.Holds L k m o)
    (hb : T.balance L' k = T.balance L k) : T.account L' k = T.account L k := by
  cases h : T.account L k with
  | none =>
      cases h' : T.account L' k with
      | none => rfl
      | some a =>
          obtain ⟨n, hn⟩ := (hh a.mint a.owner).mp (holds_of_account h')
          cases h.symm.trans hn
  | some a =>
      obtain ⟨n, hn⟩ := (hh a.mint a.owner).mpr (holds_of_account h)
      rw [balance_of_account h, balance_of_account hn] at hb
      obtain rfl : n = a.amount := UInt64.toNat_inj.mp hb
      exact hn

theorem Holds.congr {L' : T.Ledger} (he : T.account L' k = T.account L k) :
    T.Holds L' k m o ↔ T.Holds L k m o := by
  simp [Holds, he]

theorem balance_congr {L' : T.Ledger} (he : T.account L' k = T.account L k) :
    T.balance L' k = T.balance L k := by
  simp [balance, he]

end Reading

/-! ## What the callers rely on -/

variable [DecidableEq K]

variable (T) in
/-- What a call does when it succeeds, and when it cannot fail. A transfer moves exactly the given amount or
fails. It does not fail for an account that has the funds, since all balances of a mint together fit its
supply: `transfer_total` assumes that neither account is frozen, by which a mint's freeze authority could refuse
every transfer. -/
structure Lawful : Prop where
  transfer_ok {s d o n L L'} : T.transfer s d o n L = some L' →
    ∃ a b, T.account L s = some a ∧ T.account L d = some b ∧ a.owner = o ∧ b.mint = a.mint ∧
      n ≤ a.amount ∧ T.supply L' = T.supply L ∧ (s = d → T.account L' = T.account L) ∧
      (s ≠ d → b.amount.toNat + n.toNat < 2 ^ 64 ∧ T.account L' =
        Function.update (Function.update (T.account L) s (some { a with amount := a.amount - n })) d
          (some { b with amount := b.amount + n }))
  transfer_total {s d n L a b} : T.account L s = some a → T.account L d = some b → b.mint = a.mint →
    n ≤ a.amount → ∃ L', T.transfer s d a.owner n L = some L'
  initializeAccount_ok {k m o L L'} : T.initializeAccount k m o L = some L' →
    T.account L k = none ∧ T.supply L' = T.supply L ∧
      T.account L' = Function.update (T.account L) k (some ⟨m, o, 0⟩)
  closeAccount_ok {k o L L'} : T.closeAccount k o L = some L' →
    (∃ a, T.account L k = some a ∧ a.owner = o) ∧ T.supply L' = T.supply L ∧
      T.account L' = Function.update (T.account L) k none
  closeAccount_total {k L a} : T.account L k = some a → a.amount = 0 →
    ∃ L', T.closeAccount k a.owner L = some L'

omit [DecidableEq K] in
variable (T) in
/-- Tokens exist only of mints that exist. -/
def Minted : Prop := ∀ L k a, T.account L k = some a → 0 < a.amount → ∃ n, T.supply L a.mint = some n

namespace Lawful

variable (hT : T.Lawful) {s d o m k : K} {n : UInt64} {L L' : T.Ledger}
include hT

/-! ## Transfers -/

theorem transfer_supply (h : T.transfer s d o n L = some L') : T.supply L' = T.supply L := by
  obtain ⟨_, _, _, _, _, _, _, hs, _⟩ := hT.transfer_ok h
  exact hs

theorem transfer_source (h : T.transfer s d o n L = some L') :
    ∃ m o', T.Holds L s m o ∧ T.Holds L d m o' := by
  obtain ⟨a, b, ha, hb, ho, hm, _⟩ := hT.transfer_ok h
  exact ⟨a.mint, b.owner, ho ▸ holds_of_account ha, hm ▸ holds_of_account hb⟩

theorem transfer_funds (h : T.transfer s d o n L = some L') : n.toNat ≤ T.balance L s := by
  obtain ⟨a, b, ha, _, _, _, hn, _⟩ := hT.transfer_ok h
  rw [balance_of_account ha]
  exact UInt64.le_iff_toNat_le.mp hn

/-- A transfer changes no account's mint or owner, and neither makes nor removes an account. -/
theorem transfer_holds (h : T.transfer s d o n L = some L') {o' : K} :
    T.Holds L' k m o' ↔ T.Holds L k m o' := by
  obtain ⟨⟨ma, oa, na⟩, ⟨mb, ob, nb⟩, ha, hb, _, _, _, _, hself, hmove⟩ := hT.transfer_ok h
  by_cases hsd : s = d
  · simp [Holds, hself hsd]
  · simp only [Holds, (hmove hsd).2, Function.update_apply]
    split
    · subst k; simp [hb]
    · split
      · subst k; simp [ha]
      · rfl

theorem transfer_self (h : T.transfer s s o n L = some L') : T.account L' = T.account L := by
  obtain ⟨_, _, _, _, _, _, _, _, hself, _⟩ := hT.transfer_ok h
  exact hself rfl

theorem transfer_other (h : T.transfer s d o n L = some L') (hs : k ≠ s) (hd : k ≠ d) :
    T.account L' k = T.account L k := by
  obtain ⟨a, b, _, _, _, _, _, _, hself, hmove⟩ := hT.transfer_ok h
  by_cases hsd : s = d
  · rw [hself hsd]
  · simp [(hmove hsd).2, hs, hd]

theorem transfer_balance_source (h : T.transfer s d o n L = some L') (hsd : s ≠ d) :
    T.balance L' s + n.toNat = T.balance L s := by
  obtain ⟨a, b, ha, _, _, _, hn, _, _, hmove⟩ := hT.transfer_ok h
  have hs : T.account L' s = some { a with amount := a.amount - n } := by
    simp [(hmove hsd).2, hsd]
  have hn' := UInt64.le_iff_toNat_le.mp hn
  rw [balance_of_account hs, balance_of_account ha]
  simp only [FixedPoint.toNat_sub_of_le hn']
  omega

theorem transfer_balance_destination (h : T.transfer s d o n L = some L') (hsd : s ≠ d) :
    T.balance L' d = T.balance L d + n.toNat := by
  obtain ⟨a, b, _, hb, _, _, _, _, _, hmove⟩ := hT.transfer_ok h
  have hd : T.account L' d = some { b with amount := b.amount + n } := by
    simp [(hmove hsd).2]
  rw [balance_of_account hd, balance_of_account hb]
  exact FixedPoint.toNat_add_of_lt (hmove hsd).1

/-- What every account gives and gets. -/
theorem transfer_balance (h : T.transfer s d o n L = some L') (hsd : s ≠ d) (k : K) :
    T.balance L' k + (if k = s then n.toNat else 0) = T.balance L k + (if k = d then n.toNat else 0) := by
  by_cases hs : k = s
  · subst hs
    rw [if_pos rfl, if_neg hsd]
    exact hT.transfer_balance_source h hsd
  · rw [if_neg hs, Nat.add_zero]
    by_cases hd : k = d
    · subst hd
      rw [if_pos rfl]
      exact hT.transfer_balance_destination h hsd
    · rw [if_neg hd]
      exact balance_congr (hT.transfer_other h hs hd)

theorem transfer_balance_other (h : T.transfer s d o n L = some L') (hs : k ≠ s) (hd : k ≠ d) :
    T.balance L' k = T.balance L k :=
  balance_congr (hT.transfer_other h hs hd)

theorem transfer_balance_ge (h : T.transfer s d o n L = some L') (hs : k ≠ s) :
    T.balance L k ≤ T.balance L' k := by
  by_cases hd : k = d
  · subst hd
    rw [hT.transfer_balance_destination h (Ne.symm hs)]
    omega
  · rw [hT.transfer_balance_other h hs hd]

/-! ## New and closed accounts -/

theorem initializeAccount_fresh (h : T.initializeAccount k m o L = some L') : T.account L k = none :=
  (hT.initializeAccount_ok h).1

theorem initializeAccount_supply (h : T.initializeAccount k m o L = some L') :
    T.supply L' = T.supply L := (hT.initializeAccount_ok h).2.1

theorem initializeAccount_self (h : T.initializeAccount k m o L = some L') :
    T.account L' k = some ⟨m, o, 0⟩ := by
  simp [(hT.initializeAccount_ok h).2.2]

theorem initializeAccount_other {k' : K} (h : T.initializeAccount k m o L = some L') (hk : k' ≠ k) :
    T.account L' k' = T.account L k' := by
  simp [(hT.initializeAccount_ok h).2.2, hk]

theorem closeAccount_supply (h : T.closeAccount k o L = some L') : T.supply L' = T.supply L :=
  (hT.closeAccount_ok h).2.1

theorem closeAccount_self (h : T.closeAccount k o L = some L') : T.account L' k = none := by
  simp [(hT.closeAccount_ok h).2.2]

theorem closeAccount_other {k' : K} (h : T.closeAccount k o L = some L') (hk : k' ≠ k) :
    T.account L' k' = T.account L k' := by
  simp [(hT.closeAccount_ok h).2.2, hk]

/-- An account can be emptied into another one of its mint and then closed. -/
theorem empty_total {a b : TokenAccount K} (ha : T.account L k = some a) (hb : T.account L d = some b)
    (hm : b.mint = a.mint) (hne : k ≠ d) :
    ∃ L₁ L₂, T.transfer k d a.owner a.amount L = some L₁ ∧ T.closeAccount k a.owner L₁ = some L₂ := by
  obtain ⟨L₁, h₁⟩ := hT.transfer_total ha hb hm (UInt64.le_refl _)
  have hleft := hT.transfer_balance_source h₁ hne
  obtain ⟨x, hx⟩ := (hT.transfer_holds h₁).mpr (holds_of_account ha)
  rw [balance_of_account ha, balance_of_account hx] at hleft
  have hzero : x = 0 := by
    apply UInt64.toNat_inj.mp
    rw [UInt64.toNat_zero]
    exact Nat.add_eq_right.mp hleft
  obtain ⟨L₂, h₂⟩ := hT.closeAccount_total hx hzero
  exact ⟨L₁, L₂, h₁, h₂⟩

end Lawful

/-! ## Protected accounts -/

/-- The accounts of the owners in `P` are still there and hold no less, and no mint has a larger supply. -/
structure Protects (P : K → Prop) (L L' : T.Ledger) : Prop where
  holds {k m o} : P o → T.Holds L k m o → T.Holds L' k m o
  gains {k m o} : P o → T.Holds L k m o → T.balance L k ≤ T.balance L' k
  supply m : T.outstanding L' m ≤ T.outstanding L m

namespace Protects

variable {P Q : K → Prop} {L L' L'' : T.Ledger} {s d o m k : K} {n : UInt64}

omit [DecidableEq K] in
theorem refl (P : K → Prop) (L : T.Ledger) : Protects P L L := ⟨fun _ h => h, fun _ _ => le_rfl, fun _ => le_rfl⟩

omit [DecidableEq K] in
theorem trans (h : Protects P L L') (h' : Protects P L' L'') : Protects P L L'' where
  holds ho hk := h'.holds ho (h.holds ho hk)
  gains ho hk := le_trans (h.gains ho hk) (h'.gains ho (h.holds ho hk))
  supply m := le_trans (h'.supply m) (h.supply m)

omit [DecidableEq K] in
theorem mono (h : Protects P L L') (hsub : ∀ o, Q o → P o) : Protects Q L L' where
  holds ho := h.holds (hsub _ ho)
  gains ho := h.gains (hsub _ ho)
  supply := h.supply

omit [DecidableEq K] in
theorem of_supply_eq (h : T.supply L' = T.supply L)
    (hholds : ∀ {k m o}, P o → T.Holds L k m o → T.Holds L' k m o)
    (hgains : ∀ {k m o}, P o → T.Holds L k m o → T.balance L k ≤ T.balance L' k) : Protects P L L' :=
  ⟨hholds, hgains, fun m => by rw [outstanding, outstanding, h]⟩

/-- Only the owner who signs can lose by a transfer. -/
theorem transfer (hT : T.Lawful) (h : T.transfer s d o n L = some L') (ho : ¬ P o) : Protects P L L' := by
  obtain ⟨_, _, hsrc, -⟩ := hT.transfer_source h
  refine of_supply_eq (hT.transfer_supply h) (fun _ hk => (hT.transfer_holds h).mpr hk) (fun ho' hk => ?_)
  refine hT.transfer_balance_ge h ?_
  rintro rfl
  exact ho ((hk.unique hsrc).2 ▸ ho')

theorem initializeAccount (hT : T.Lawful) (h : T.initializeAccount k m o L = some L') : Protects P L L' := by
  have hsame {l m' o'} (hl : T.Holds L l m' o') : T.account L' l = T.account L l :=
    hT.initializeAccount_other h (hl.ne_of_none (hT.initializeAccount_fresh h))
  exact of_supply_eq (hT.initializeAccount_supply h) (fun _ hl => (Holds.congr (hsame hl)).mpr hl)
    (fun _ hl => (balance_congr (hsame hl)).ge)

theorem closeAccount (hT : T.Lawful) (h : T.closeAccount k o L = some L') (ho : ¬ P o) : Protects P L L' := by
  obtain ⟨⟨a, ha, hao⟩, -, -⟩ := hT.closeAccount_ok h
  have hsame {l m' o'} (ho' : P o') (hl : T.Holds L l m' o') : T.account L' l = T.account L l := by
    refine hT.closeAccount_other h ?_
    rintro rfl
    have heq : o' = a.owner := (hl.unique (holds_of_account ha)).2
    exact ho (hao ▸ heq ▸ ho')
  exact of_supply_eq (hT.closeAccount_supply h) (fun ho' hl => (Holds.congr (hsame ho' hl)).mpr hl)
    (fun ho' hl => (balance_congr (hsame ho' hl)).ge)

end Protects

end TokenProgram
