import FractionAuction.PriceTracker.Lemmas.Leaving
import FractionAuction.PriceTracker.Lemmas.PriceBounds
import FractionAuction.PriceTracker.SampleMarket

/-!
# Theorems about what voters can do
-/

namespace FractionAuction.PriceTracker

open Lts Pubkey

variable {T : TokenProgram Pubkey} {pa : Pubkey} {w₀ w w' : World T} {e : Event} {es fs : List Event}

/-! ## Leaving -/

/-- The voters of `xs` have taken back what they asked for, and nothing else has changed hands. -/
structure Left (w : World T) (xs : List Removal) (w' : World T) : Prop where
  total : w'.tokenInfo.totalVotes.toNat + Removal.total xs = w.tokenInfo.totalVotes.toNat
  user u : (w'.user u).votes.toNat + Removal.takenBy u xs = (w.user u).votes.toNat
  paid {k} : k ≠ w.tokenInfo.store → T.balance w'.ledger k = T.balance w.ledger k + Removal.paidTo k xs
  vacant : xs ≠ [] → w'.tokenInfo.totalVotes = 0 → Vacant w'

/-- As long as every vote names the recorded store, voters can take back any of their votes at any time and in any
order, whatever the prices and totals are. -/
theorem voters_can_leave (hT : T.Lawful) (hM : T.Minted) (h₀ : Initial pa w₀)
    (h : Run (restrict (Step pa) NamesStore) w₀ es w) {xs : List Removal} (hdistinct : (xs.map Removal.voter).Nodup)
    (hready : ∀ x ∈ xs, x.Ready w) :
    ∃ w', Run (restrict (Step pa) NamesStore) w (xs.map Removal.event) w' ∧ Left w xs w' := by
  obtain ⟨w', hrun, hl⟩ := (Backed.run hT h₀ h).leave hT hM hdistinct hready
  refine ⟨w', hrun, hl.total, hl.user, hl.paid, fun hne => ?_⟩
  rcases hl.vacant with rfl | hvacant
  · exact absurd rfl hne
  · exact hvacant

def twoVoters : List Event :=
  [honestUser, secondUser, .addVote honestVote 40 3000000000, .addVote secondVote 40 5000000000]

/-- The second voter leaves before the first. -/
def bothLeave : List Removal := [⟨secondVote, 40⟩, ⟨honestVote, 40⟩]

theorem voters_can_leave_both : ∃ w₀ w w' : Concrete, Initial priceAccount w₀ ∧
    Run (restrict (Step priceAccount) NamesStore) w₀ twoVoters w ∧
      Run (restrict (Step priceAccount) NamesStore) w (bothLeave.map Removal.event) w' ∧ Left w bothLeave w' ∧
      w.priceAccount.pricePerShare = 4000000000 ∧ Vacant w' := by
  obtain ⟨w₀, w, h₀, h, hstore, hmint, hfirst, hsecond, hvotes, hvotes', htotal, hprice⟩ := founded_run twoHolders
    NamesStore twoVoters (fun w => w.tokenInfo.store = key 3 ∧ w.tokenInfo.mint = key 0 ∧
      (TokenLedger.program Pubkey).account w.ledger (key 11) = some ⟨key 0, key 10, 20⟩ ∧
      (TokenLedger.program Pubkey).account w.ledger (key 22) = some ⟨key 0, key 20, 0⟩ ∧
      (w.user (key 10)).votes = 40 ∧ (w.user (key 20)).votes = 40 ∧ w.tokenInfo.totalVotes = 80 ∧
      w.priceAccount.pricePerShare = 4000000000) (by decide +kernel)
  have hready : ∀ x ∈ bothLeave, x.Ready w := by
    intro x hx
    rcases List.mem_pair.mp hx with rfl | rfl
    · exact ⟨hstore.symm, hmint.symm, ⟨0, by rw [hmint]; exact hsecond⟩, by decide, UInt64.le_of_eq hvotes'.symm⟩
    · exact ⟨hstore.symm, hmint.symm, ⟨20, by rw [hmint]; exact hfirst⟩, by decide, UInt64.le_of_eq hvotes.symm⟩
  obtain ⟨w', h', hl⟩ := voters_can_leave TokenLedger.program_lawful TokenLedger.program_minted h₀ h
    (by decide) hready
  have hzero : w'.tokenInfo.totalVotes = 0 := by
    have htotal' := hl.total
    rw [htotal] at htotal'
    exact UInt64.toNat_inj.mp (Nat.add_right_cancel (m := 80) htotal')
  exact ⟨w₀, w, w', h₀, h, h', hl, hprice, hl.vacant (by decide) hzero⟩

/-! ## Moving the price -/

end FractionAuction.PriceTracker
