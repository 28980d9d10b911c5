import FractionAuction.Library.Lts

/-!
# An open ascending auction with refunds

The book of an auction in which every bid is paid in full when it is made: who leads with what, and what is
owed to the bidders who were outbid. A bidder who is owed a refund takes it before bidding again.
-/

namespace OpenBidding

variable {K : Type} [DecidableEq K]

structure Book (K : Type) where
  leader : Option (K × ℕ)
  /-- The refunds that wait for their bidders. -/
  owed : K → Option ℕ

inductive Move (K : Type) where
  | bid (k : K) (n : ℕ)
  | withdraw (k : K) (n : ℕ)

inductive Step : Book K → Move K → Book K → Prop
  | first {B : Book K} {k n} : B.leader = none → B.owed k = none →
      Step B (.bid k n) { B with leader := some (k, n) }
  | outbid {B : Book K} {k n l m} : B.leader = some (l, m) → k ≠ l → B.owed k = none →
      Step B (.bid k n) ⟨some (k, n), Function.update B.owed l (some m)⟩
  | withdraw {B : Book K} {k n} : B.owed k = some n →
      Step B (.withdraw k n) { B with owed := Function.update B.owed k none }

def Move.paidIn (k : K) : Move K → ℕ
  | .bid l n => if l = k then n else 0
  | .withdraw _ _ => 0

def Move.returned (k : K) : Move K → ℕ
  | .bid _ _ => 0
  | .withdraw l n => if l = k then n else 0

def Book.kept (B : Book K) (k : K) : ℕ :=
  (B.owed k).getD 0 + match B.leader with
    | some (l, m) => if l = k then m else 0
    | none => 0

/-- No refund waits for the leader. -/
def Book.Sound (B : Book K) : Prop := ∀ l m, B.leader = some (l, m) → B.owed l = none

variable {B B' : Book K} {e : Move K} {es : List (Move K)}

theorem Step.sound (hs : B.Sound) (h : Step B e B') : B'.Sound := by
  intro l m hl
  cases h with
  | first _ hk =>
      obtain ⟨rfl, rfl⟩ : _ = l ∧ _ = m := by simpa using hl
      exact hk
  | outbid _ hne hk =>
      obtain ⟨rfl, rfl⟩ : _ = l ∧ _ = m := by simpa using hl
      exact (Function.update_of_ne hne _ _).trans hk
  | withdraw hk =>
      have hlead := hs l m hl
      simp only [Function.update_apply, hlead, ite_self]

theorem Step.kept (hs : B.Sound) (h : Step B e B') (k : K) :
    B'.kept k + e.returned k = B.kept k + e.paidIn k := by
  cases h with
  | @first b n hl hk =>
      simp only [Book.kept, hl, Move.returned, Move.paidIn]
      omega
  | @outbid b n l m hl hne hk =>
      have hlead := hs l m hl
      simp only [Book.kept, hl, Move.returned, Move.paidIn]
      by_cases hlk : l = k
      · subst hlk
        simp [hlead, hne]
      · simp [hlk, Function.update_of_ne (Ne.symm hlk)]
  | @withdraw b n hb =>
      simp only [Book.kept, Move.returned, Move.paidIn]
      by_cases hbk : b = k
      · subst hbk
        simp [hb]
        omega
      · simp [hbk, Function.update_of_ne (Ne.symm hbk)]

/-- Nothing is lost and nothing is given twice: what a bidder paid in came back, waits for them, or leads. -/
theorem run_kept (hs : B.Sound) (h : Lts.Run Step B es B') (k : K) :
    B'.Sound ∧ B'.kept k + (es.map (Move.returned k)).sum = B.kept k + (es.map (Move.paidIn k)).sum := by
  induction h with
  | nil => exact ⟨hs, rfl⟩
  | snoc _ hstep ih =>
      obtain ⟨hsound, heq⟩ := ih
      have hkept := hstep.kept hsound k
      refine ⟨hstep.sound hsound, ?_⟩
      simp only [Lts.sum_map_snoc]
      omega

end OpenBidding
