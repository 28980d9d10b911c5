import FractionAuction.PriceTracker.Lemmas.Published
import FractionAuction.PriceTracker.SampleMarket

/-!
# Theorems about the totals and the price
-/

namespace FractionAuction.PriceTracker

open Lts Pubkey

variable {T : TokenProgram Pubkey} {pa : Pubkey} {w₀ w : World T} {es : List Event}

/-! ## Custody -/

/-- Whoever votes, as long as every call names the recorded store, the votes are counted exactly, the store
covers them, and nobody takes out more than they put in. -/
theorem votes_in_custody (hT : T.Lawful) (h₀ : Initial pa w₀) (h : Run (restrict (Step pa) NamesStore) w₀ es w) :
    Custody pa es w :=
  (Backed.run hT h₀ h).custody

/-- Forty votes, of which fifteen are taken back. -/
def honestRun : List Event := [honestUser, .addVote honestVote 40 10, .removeVote honestVote 15]

theorem votes_in_custody_honest : ∃ w₀ w : Concrete, Initial priceAccount w₀ ∧
    Run (restrict (Step priceAccount) NamesStore) w₀ honestRun w ∧ w.tokenInfo.totalVotes = 25 ∧
      Custody priceAccount honestRun w := by
  obtain ⟨w₀, w, h₀, h, hv⟩ := market_run NamesStore honestRun (fun w => w.tokenInfo.totalVotes = 25)
    (by decide +kernel)
  exact ⟨w₀, w, h₀, h, hv, votes_in_custody TokenLedger.program_lawful h₀ h⟩

/-- Votes paid for with forged tokens, taken out of the recorded store. -/
def forgedRun : List Event :=
  [honestUser, secondUser, .addVote honestVote 40 10, .addVote forgedVote 40 10, .removeVote forgerRemoval 40]

/-- The constraints of a vote tie mint, store and payer to each other, not to what the price account recorded:
the forger takes out all the honest holder's tokens, and the forty votes left have nothing behind them. -/
theorem votes_not_in_custody : ∃ w₀ w : Concrete, Initial priceAccount w₀ ∧
    Run (Step priceAccount) w₀ forgedRun w ∧ w.tokenInfo.totalVotes = 40 ∧
      (TokenLedger.program Pubkey).balance w.ledger w.tokenInfo.store = 0 ∧
      (forgedRun.map (Event.takenOut w.tokenInfo.store (key 20))).sum = 40 ∧
      (forgedRun.map (Event.putIn w.tokenInfo.store (key 20))).sum = 0 ∧
      ¬ Custody priceAccount forgedRun w := by
  obtain ⟨w₀, w, h₀, h, hv, hb, htaken, hput⟩ := market_run (fun _ _ => True) forgedRun
    (fun w => w.tokenInfo.totalVotes = 40 ∧
      (TokenLedger.program Pubkey).balance w.ledger w.tokenInfo.store = 0 ∧
      (forgedRun.map (Event.takenOut w.tokenInfo.store (key 20))).sum = 40 ∧
      (forgedRun.map (Event.putIn w.tokenInfo.store (key 20))).sum = 0) (by decide +kernel)
  refine ⟨w₀, w, h₀, h.of_restrict, hv, hb, htaken, hput, fun hc => ?_⟩
  have := hc.backed
  rw [hb, hv] at this
  exact absurd this (by decide)

/-! ## The reserve total -/

/-- While no removal loses a remainder and all values fit a word, the reserve total is a function of what each
user has, and the price published by a vote is within what the voters ask. -/
theorem reserve_is_tally (hT : T.Lawful) (h₀ : Initial pa w₀)
    (h : Run (restrict (Step pa) fun w e => NamesStore w e ∧ KeepsRemainders w e) w₀ es w) :
    w.tokenInfo.reserveTotal.toNat = w.users.tally UserInfo.value ∧
    (∀ (pa' : Pubkey) (w₀' w' : World T) (es' : List Event), Initial pa' w₀' →
      Run (restrict (Step pa') fun w e => NamesStore w e ∧ KeepsRemainders w e) w₀' es' w' →
      (∀ u, w'.user u = w.user u) → w'.tokenInfo.reserveTotal = w.tokenInfo.reserveTotal) ∧
    (∀ before e, es = before ++ [e] → e.IsVote → 0 < w.tokenInfo.totalVotes →
      w.priceAccount.pricePerShare.toNat ≤ max w.tokenInfo.minPrice.toNat w.highestPrice) := by
  have hr := Reserved.run hT h₀ h
  refine ⟨hr.reserve, ?_, ?_⟩
  · intro pa' w₀' w' es' h₀' h' hsame
    have hr' := Reserved.run hT h₀' h'
    apply UInt64.toNat_inj.mp
    rw [hr.reserve, hr'.reserve]
    apply AList.tally_congr
    intro u
    rw [World.valueAt_user rfl, World.valueAt_user rfl, hsame]
  · intro before e hes hv hpos
    subst hes
    obtain ⟨v, -, hstep⟩ := h.last
    rw [published_of_vote hstep.1 hv]
    exact hr.published_le (UInt64.lt_iff_toNat_lt.mp hpos)

def wholeUnits : List Event := [honestUser, .addVote honestVote 40 3000000000, .removeVote honestVote 15]

theorem reserve_is_tally_honest : ∃ w₀ w : Concrete, Initial priceAccount w₀ ∧
    Run (restrict (Step priceAccount) fun w e => NamesStore w e ∧ KeepsRemainders w e) w₀ wholeUnits w ∧
      w.tokenInfo.reserveTotal = 75 ∧ w.tokenInfo.reserveTotal.toNat = w.users.tally UserInfo.value := by
  obtain ⟨w₀, w, h₀, h, hv⟩ := market_run (fun w e => NamesStore w e ∧ KeepsRemainders w e) wholeUnits
    (fun w => w.tokenInfo.reserveTotal = 75) (by decide +kernel)
  exact ⟨w₀, w, h₀, h, hv, (reserve_is_tally TokenLedger.program_lawful h₀ h).1⟩

/-- Two votes worth one unit together, one of them taken back. -/
def halves : List Event := [honestUser, .addVote honestVote 2 500000000, .removeVote honestVote 1]

def half : List Event := [honestUser, .addVote honestVote 1 500000000]

/-- The removed vote alone is worth nothing, so its half unit stays in the total: the same single vote is
counted with another total than when it is cast at once, and is published at twice its price. -/
theorem reserve_drifts : ∃ w₀ w w₀' w' : Concrete,
    (Initial priceAccount w₀ ∧ Run (restrict (Step priceAccount) NamesStore) w₀ halves w) ∧
    (Initial priceAccount w₀' ∧ Run (restrict (Step priceAccount) NamesStore) w₀' half w') ∧
    w.users = w'.users ∧ w.users.tally UserInfo.value = 0 ∧ w'.tokenInfo.reserveTotal = 0 ∧
    w.tokenInfo.reserveTotal = 1 ∧ w.highestPrice = 500000000 ∧
    max w.tokenInfo.minPrice.toNat w.highestPrice < w.priceAccount.pricePerShare.toNat := by
  obtain ⟨w₀, w, h₀, h, hw⟩ := market_run NamesStore halves
    (fun w => w.users.entries = [⟨key 10, 500000000, 1⟩] ∧ w.users.tally UserInfo.value = 0 ∧
      w.tokenInfo.reserveTotal = 1 ∧ w.highestPrice = 500000000 ∧
      max w.tokenInfo.minPrice.toNat w.highestPrice < w.priceAccount.pricePerShare.toNat) (by decide +kernel)
  obtain ⟨w₀', w', h₀', h', hw'⟩ := market_run NamesStore half
    (fun w => w.users.entries = [⟨key 10, 500000000, 1⟩] ∧ w.tokenInfo.reserveTotal = 0) (by decide +kernel)
  exact ⟨w₀, w, w₀', w', ⟨h₀, h⟩, ⟨h₀', h'⟩, AList.ext (hw.1.trans hw'.1.symm), hw.2.1, hw'.2, hw.2.2⟩

/-! ## Unchecked arithmetic -/

/-- Along calls whose new total of votes, reserve total and average fit a word, all unchecked arithmetic is exact and
covers every user's value. Of the calls that can follow, by whomever, exactly these are exact. -/
theorem votes_exact (hT : T.Lawful) (h₀ : Initial pa w₀)
    (h : Run (restrict (Step pa) fun w e => NamesStore w e ∧ KeepsExact w e) w₀ es w) :
    (∀ before u e u' after,
      Passage (restrict (Step pa) fun w e => NamesStore w e ∧ KeepsExact w e) w₀ es w before u e u' after →
      Exact u e u') ∧
    (∀ e w', Step pa w e w' → (Exact w e w' ↔ KeepsExact w e)) ∧
    ∀ u, (w.user u).value ≤ w.tokenInfo.reserveTotal.toNat := by
  have hc := Covered.run hT h₀ h
  refine ⟨?_, fun e w' hstep => hc.exact_iff hstep, hc.user_le⟩
  intro before u e u' after hp
  obtain ⟨hstep, -, hkeeps⟩ := hp.taken
  exact ((Covered.run hT h₀ hp.reached).exact_iff hstep).mpr hkeeps

theorem votes_exact_honest : ∃ w₀ w : Concrete, Initial priceAccount w₀ ∧
    Run (restrict (Step priceAccount) fun w e => NamesStore w e ∧ KeepsExact w e) w₀ wholeUnits w ∧
      w.tokenInfo.reserveTotal = 75 ∧ (w.user (key 10)).value ≤ w.tokenInfo.reserveTotal.toNat := by
  obtain ⟨w₀, w, h₀, h, hv⟩ := market_run (fun w e => NamesStore w e ∧ KeepsExact w e) wholeUnits
    (fun w => w.tokenInfo.reserveTotal = 75) (by decide +kernel)
  exact ⟨w₀, w, h₀, h, hv, (votes_exact TokenLedger.program_lawful h₀ h).2.2 (key 10)⟩

def highestFirst : List Event := [honestUser, .addVote honestVote 2000000000 18446744073709551615]

/-- The first price has no upper bound. The value of the votes loses its top bit, and taking half of the votes back
borrows from the reserve total. -/
theorem votes_not_exact : ∃ w₀ w w' : Concrete, Initial priceAccount w₀ ∧
    Run (restrict (Step priceAccount) NamesStore) w₀ highestFirst w ∧
      (w.user (key 10)).value = 36893488147419103230 ∧ w.tokenInfo.reserveTotal = 18446744073709551614 ∧
      removeVote priceAccount w honestVote 1000000000 = .ok w' ∧
      w'.tokenInfo.reserveTotal = 18446744073709551615 ∧ ¬ Exact w (.removeVote honestVote 1000000000) w' := by
  obtain ⟨w₀, w, h₀, h, hvalue, hreserve, hnext⟩ := founded_run largeOpening NamesStore highestFirst
    (fun w => (w.user (key 10)).value = 36893488147419103230 ∧
      w.tokenInfo.reserveTotal = 18446744073709551614 ∧
      (removeVote priceAccount w honestVote 1000000000).toOption.any (fun w' =>
        w'.tokenInfo.reserveTotal = 18446744073709551615) = true) (by decide +kernel)
  obtain ⟨w', hremove, hreserve'⟩ := (Option.any_eq_true _ _).mp hnext
  have hreserve' := of_decide_eq_true hreserve'
  refine ⟨w₀, w, w', h₀, h, hvalue, hreserve, Guard.toOption_some_iff.mp hremove, hreserve', ?_⟩
  rintro ⟨hx, -⟩
  have := hx.reserve
  rw [hreserve, hreserve'] at this
  exact absurd (Nat.le.intro this) (by decide)

/-! ## The published price -/

/-- Along calls that keep the price, a vault that may be combined has the price its totals and the present
minimum ask for. -/
theorem combinable_price_current (h₀ : Initial pa w₀) (h : Run (restrict (Step pa) KeepsPrice) w₀ es w)
    (ha : w.priceAccount.allowedToCombine = true) :
    w.priceAccount.pricePerShare.toNat = max w.tokenInfo.minPrice.toNat (average w.tokenInfo) ∧
      w.tokenInfo.minPrice ≤ w.priceAccount.pricePerShare := by
  have hc := Current.run h₀ h ha
  refine ⟨hc, UInt64.le_iff_toNat_le.mpr ?_⟩
  rw [hc]
  exact le_max_left _ _

def lowerMinimum : List Event := [honestUser, .addVote honestVote 51 3000000000, newMinimum 1000000000]

theorem combinable_price_current_lower : ∃ w₀ w : Concrete, Initial priceAccount w₀ ∧
    Run (restrict (Step priceAccount) KeepsPrice) w₀ lowerMinimum w ∧
      w.priceAccount.pricePerShare.toNat = max w.tokenInfo.minPrice.toNat (average w.tokenInfo) ∧
      w.tokenInfo.minPrice ≤ w.priceAccount.pricePerShare := by
  obtain ⟨w₀, w, h₀, h, ha⟩ := market_run KeepsPrice lowerMinimum
    (fun w => w.priceAccount.allowedToCombine = true) (by decide +kernel)
  exact ⟨w₀, w, h₀, h, combinable_price_current h₀ h ha⟩

def raisedMinimum : List Event := [honestUser, .addVote honestVote 51 20, newMinimum 30]

/-- `set_min_price` raises the minimum and leaves the published price below it. -/
theorem combinable_price_stale : ∃ w₀ w : Concrete, Initial priceAccount w₀ ∧
    Run (Step priceAccount) w₀ raisedMinimum w ∧ w.priceAccount.allowedToCombine = true ∧
      w.priceAccount.pricePerShare = 10 ∧ w.tokenInfo.minPrice = 30 ∧
      w.priceAccount.pricePerShare.toNat ≠ max w.tokenInfo.minPrice.toNat (average w.tokenInfo) := by
  obtain ⟨w₀, w, h₀, h, hw⟩ := market_run (fun _ _ => True) raisedMinimum
    (fun w => w.priceAccount.allowedToCombine = true ∧ w.priceAccount.pricePerShare = 10 ∧
      w.tokenInfo.minPrice = 30 ∧
      w.priceAccount.pricePerShare.toNat ≠ max w.tokenInfo.minPrice.toNat (average w.tokenInfo))
    (by decide +kernel)
  exact ⟨w₀, w, h₀, h.of_restrict, hw⟩

end FractionAuction.PriceTracker
