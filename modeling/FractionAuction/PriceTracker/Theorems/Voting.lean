import FractionAuction.PriceTracker.Lemmas.Admission
import FractionAuction.PriceTracker.Lemmas.Order
import FractionAuction.PriceTracker.SampleMarket

/-!
# Theorems about what a vote does
-/

namespace FractionAuction.PriceTracker

open Lts Pubkey

variable {T : TokenProgram Pubkey} {pa : Pubkey} {w₀ w : World T} {es : List Event}

/-! ## The majority -/

/-- As long as every vote names the recorded store and no other transaction carries the votes across half of the
recorded mint, the flag shows the majority, and of the steps that can follow exactly these leave it so. -/
theorem combining_is_majority (hT : T.Lawful) (h₀ : Initial pa w₀) (h : Run (Steady pa) w₀ es w) :
    ShowsMajority w ∧
      ∀ e w', restrict (Step pa) NamesStore w e w' → (ShowsMajority w' ↔ KeepsSide w e w') := by
  have hs := ShowsMajority.run hT h₀ h
  have hb := Backed.run hT h₀ (h.mono fun _ _ _ hstep => hstep.1)
  exact ⟨hs, fun e w' hstep => hs.step_iff hT hb hstep⟩

/-- Forty-five votes of a hundred. -/
def underHalf : List Event := [honestUser, .addVote honestVote 45 10]

/-- Five fractions are burned, and another five votes are more than half of the rest. -/
theorem combining_is_majority_over_half : ∃ w₀ w : Concrete, Initial priceAccount w₀ ∧
    Run (Steady priceAccount) w₀ (underHalf ++ [.outside] ++ [.addVote honestVote 5 10]) w ∧
      (TokenLedger.program Pubkey).outstanding w.ledger w.tokenInfo.mint = 95 ∧
      w.tokenInfo.totalVotes = 50 ∧ w.priceAccount.allowedToCombine = true ∧ ShowsMajority w := by
  obtain ⟨w₀, w, h₀, h, hnext⟩ := market_run NamesStore underHalf
    (fun w => (w.ledger.burn (key 11) (key 10) 5).any (fun L =>
      (World.attempt priceAccount NamesStore { w with ledger := L } (.addVote honestVote 5 10)).any fun w' =>
        (¬ MoreThanHalf (T := TokenLedger.program Pubkey) L w.tokenInfo.mint w.tokenInfo.totalVotes ∧
            ¬ MoreThanHalf w.ledger w.tokenInfo.mint w.tokenInfo.totalVotes) ∧
          (TokenLedger.program Pubkey).outstanding w'.ledger w'.tokenInfo.mint = 95 ∧
          w'.tokenInfo.totalVotes = 50 ∧ w'.priceAccount.allowedToCombine = true) = true) (by decide +kernel)
  obtain ⟨L, hburn, hnext⟩ := (Option.any_eq_true _ _).mp hnext
  obtain ⟨w', hadd, hw'⟩ := (Option.any_eq_true _ _).mp hnext
  obtain ⟨⟨hafter, hbefore⟩, hsupply, htotal, hflag⟩ := of_decide_eq_true hw'
  have hburnt : Steady priceAccount w .outside { w with ledger := L } :=
    ⟨⟨.outside (outside_of_burn hburn (by decide)), trivial⟩, fun _ => iff_of_false hafter hbefore⟩
  have hrun := ((Steady.of_votes (by simp [underHalf, honestUser]) h).snoc hburnt).snoc
    ⟨restrict_of_attempt priceAccount NamesStore hadd, nofun⟩
  exact ⟨w₀, w', h₀, hrun, hsupply, htotal, hflag, (combining_is_majority TokenLedger.program_lawful h₀ hrun).1⟩

/-- The holder burns fractions, which turns the votes into a majority, and takes back one vote: `remove_vote`
cannot set the flag. -/
theorem majority_not_shown : ∃ w₀ w : Concrete, Initial priceAccount w₀ ∧
    Run (Step priceAccount) w₀ (underHalf ++ [.outside] ++ [.removeVote honestVote 1]) w ∧
      (TokenLedger.program Pubkey).outstanding w.ledger w.tokenInfo.mint = 85 ∧
      w.tokenInfo.totalVotes = 44 ∧ w.priceAccount.allowedToCombine = false ∧ ¬ ShowsMajority w := by
  obtain ⟨w₀, w, h₀, h, hnext⟩ := market_run (fun _ _ => True) underHalf
    (fun w => (w.ledger.burn (key 11) (key 10) 15).any (fun L =>
      (removeVote priceAccount { w with ledger := L } honestVote 1).toOption.any fun w' =>
        (TokenLedger.program Pubkey).outstanding w'.ledger w'.tokenInfo.mint = 85 ∧
          w'.tokenInfo.totalVotes = 44 ∧ w'.priceAccount.allowedToCombine = false) = true) (by decide +kernel)
  obtain ⟨L, hburn, hnext⟩ := (Option.any_eq_true _ _).mp hnext
  obtain ⟨w', hremove, hw'⟩ := (Option.any_eq_true _ _).mp hnext
  obtain ⟨hsupply, htotal, hflag⟩ := of_decide_eq_true hw'
  refine ⟨w₀, w', h₀, (h.of_restrict.snoc (.outside (outside_of_burn hburn (by decide)))).snoc
    (.removeVote (Guard.toOption_some_iff.mp hremove)), hsupply, htotal, hflag, ?_⟩
  rw [ShowsMajority, MoreThanHalf, hsupply, htotal, hflag]
  decide

/-! ## Admission -/

/-- Whatever was done to a price account, a user with tokens can vote at some price exactly if nobody has voted or
the minimum is within five times the published price, and that product fits a word. -/
theorem voting_open (hT : T.Lawful) (hM : T.Minted) (h₀ : Initial pa w₀) (h : Run (Step pa) w₀ es w)
    {ctx : AddVotes} {votes : UInt64} (hr : ctx.Ready w votes) :
    (∃ price w', addVote pa w ctx votes price = .ok w') ↔ BoundsMeet w :=
  hr.accepted_iff hT hM (Recorded.run hT h₀ h)

/-- The holder votes with forty of sixty fractions. -/
def fortyVotes : List Event := [honestUser, .addVote honestVote 40 20]

theorem honestVote_ready {w : Concrete} (hstore : w.tokenInfo.store = key 3) (hmint : w.tokenInfo.mint = key 0)
    (ha : (TokenLedger.program Pubkey).account w.ledger (key 11) = some ⟨key 0, key 10, 20⟩) :
    AddVotes.Ready w honestVote 1 where
  store := hstore.symm
  mint := hmint.symm
  funds := ⟨_, ha, rfl, hmint.symm, by decide⟩
  some_votes := by decide

theorem voting_open_forty : ∃ w₀ w : Concrete, Initial priceAccount w₀ ∧ Run (Step priceAccount) w₀ fortyVotes w ∧
    AddVotes.Ready w honestVote 1 ∧ ∃ price w', addVote priceAccount w honestVote 1 price = .ok w' := by
  obtain ⟨w₀, w, h₀, h, hstore, hmint, ha, hmeet⟩ := market_run (fun _ _ => True) fortyVotes
    (fun w => w.tokenInfo.store = key 3 ∧ w.tokenInfo.mint = key 0 ∧
      (TokenLedger.program Pubkey).account w.ledger (key 11) = some ⟨key 0, key 10, 20⟩ ∧ BoundsMeet w)
    (by decide +kernel)
  have hr := honestVote_ready hstore hmint ha
  exact ⟨w₀, w, h₀, h.of_restrict, hr,
    (voting_open TokenLedger.program_lawful TokenLedger.program_minted h₀ h.of_restrict hr).mpr hmeet⟩

def lockedOut : List Event := fortyVotes ++ [newMinimum 51]

/-- The published price is 10. Above five times as much no price is accepted, and below the new minimum of 51
neither. -/
theorem voting_locked_out : ∃ w₀ w : Concrete, Initial priceAccount w₀ ∧ Run (Step priceAccount) w₀ lockedOut w ∧
    w.tokenInfo.minPrice = 51 ∧ w.priceAccount.pricePerShare = 10 ∧ AddVotes.Ready w honestVote 1 ∧
      ∀ price w', addVote priceAccount w honestVote 1 price ≠ .ok w' := by
  obtain ⟨w₀, w, h₀, h, hmin, hprice, hstore, hmint, ha, hmeet⟩ := market_run (fun _ _ => True) lockedOut
    (fun w => w.tokenInfo.minPrice = 51 ∧ w.priceAccount.pricePerShare = 10 ∧ w.tokenInfo.store = key 3 ∧
      w.tokenInfo.mint = key 0 ∧
      (TokenLedger.program Pubkey).account w.ledger (key 11) = some ⟨key 0, key 10, 20⟩ ∧ ¬ BoundsMeet w)
    (by decide +kernel)
  exact ⟨w₀, w, h₀, h.of_restrict, hmin, hprice, honestVote_ready hstore hmint ha,
    fun price w' hv => hmeet (addVote_effect hv).boundsMeet⟩

/-! ## The order of votes -/

/-- As long as everyone names the recorded store, the vote calls of two users lead to the same state in either
order. From whatever state and with whatever accounts, nothing but the flag depends on their order. -/
theorem votes_commute (hT : T.Lawful) (h₀ : Initial pa w₀) (h : Run (restrict (Step pa) NamesStore) w₀ es w)
    {e₁ e₂ : Event} {u₁ u₂ : Pubkey} (hv₁ : e₁.voter = some u₁) (hv₂ : e₂.voter = some u₂) (hne : u₁ ≠ u₂) :
    (∀ w' w'', Run (restrict (Step pa) NamesStore) w [e₁, e₂] w' →
      Run (restrict (Step pa) NamesStore) w [e₂, e₁] w'' → World.Same w' w'') ∧
    ∀ u u' u'' : World T, Run (Step pa) u [e₁, e₂] u' → Run (Step pa) u [e₂, e₁] u'' →
      u'.priceAccount.allowedToCombine = u''.priceAccount.allowedToCombine → World.Same u' u'' := by
  constructor
  · intro w' w'' h₁₂ h₂₁
    obtain ⟨w₁, hstep₁, hrest₁⟩ := h₁₂.head
    obtain ⟨w₂, hstep₂, hrest₂⟩ := h₂₁.head
    exact (Backed.run hT h₀ h).votes_comm hT hstep₁ hrest₁.step_of_single hstep₂ hrest₂.step_of_single hv₁ hv₂ hne
  · intro u u' u'' h₁₂ h₂₁ hflag
    obtain ⟨w₁, hstep₁, hrest₁⟩ := h₁₂.head
    obtain ⟨w₂, hstep₂, hrest₂⟩ := h₂₁.head
    exact Casts.same (hstep₁.casts hT hv₁) (hrest₁.step_of_single.casts hT hv₂) (hstep₂.casts hT hv₂)
      (hrest₂.step_of_single.casts hT hv₁) hne hflag

def thirtyVotes : List Event :=
  [honestUser, secondUser, .addVote honestVote 30 20]

def fewer : Event := .removeVote honestVote 5

def more : Event := .addVote secondVote 30 10

theorem votes_commute_holders : ∃ w₀ w w' w'' : Concrete, Initial priceAccount w₀ ∧
    Run (restrict (Step priceAccount) NamesStore) w₀ thirtyVotes w ∧
    Run (restrict (Step priceAccount) NamesStore) w [fewer, more] w' ∧
    Run (restrict (Step priceAccount) NamesStore) w [more, fewer] w'' ∧
      w'.priceAccount.allowedToCombine = true ∧ World.Same w' w'' := by
  obtain ⟨w₀, w, h₀, h, hnext⟩ := founded_run twoHolders NamesStore thirtyVotes
    (fun w => ([fewer, more].foldlM (World.attempt priceAccount NamesStore) w).any (fun w' =>
        w'.priceAccount.allowedToCombine = true) = true ∧
      ([more, fewer].foldlM (World.attempt priceAccount NamesStore) w).any (fun _ => true) = true)
    (by decide +kernel)
  obtain ⟨w', hw', hflag⟩ := (Option.any_eq_true _ _).mp hnext.1
  obtain ⟨w'', hw'', -⟩ := (Option.any_eq_true _ _).mp hnext.2
  have h₁₂ := Run.of_exec (fun _ _ _ => restrict_of_attempt priceAccount NamesStore) hw'
  have h₂₁ := Run.of_exec (fun _ _ _ => restrict_of_attempt priceAccount NamesStore) hw''
  exact ⟨w₀, w, w', w'', h₀, h, h₁₂, h₂₁, of_decide_eq_true hflag,
    (votes_commute TokenLedger.program_lawful h₀ h rfl rfl (by decide)).1 w' w'' h₁₂ h₂₁⟩

/-- A vote with tokens of another mint, of which there are fifty. -/
def foreign : Event := .addVote forgedVote 1 10

/-- Thirty-six votes are left in either order. They are more than half of the other mint and less than half of the
recorded one, and the call that comes last decides by the mint it names. -/
theorem votes_depend_on_order : ∃ w₀ w w' w'' : Concrete, Initial priceAccount w₀ ∧
    Run (restrict (Step priceAccount) NamesStore) w₀ [honestUser, secondUser, .addVote honestVote 40 10] w ∧
    Run (Step priceAccount) w [fewer, foreign] w' ∧ Run (Step priceAccount) w [foreign, fewer] w'' ∧
      w'.tokenInfo.totalVotes = 36 ∧ w'.priceAccount.allowedToCombine = true ∧
      w''.priceAccount.allowedToCombine = false ∧ ¬ World.Same w' w'' := by
  obtain ⟨w₀, w, h₀, h, hnext⟩ := market_run NamesStore [honestUser, secondUser, .addVote honestVote 40 10]
    (fun w => ([fewer, foreign].foldlM (World.attempt priceAccount fun _ _ => True) w).any (fun w' =>
        w'.tokenInfo.totalVotes = 36 ∧ w'.priceAccount.allowedToCombine = true) = true ∧
      ([foreign, fewer].foldlM (World.attempt priceAccount fun _ _ => True) w).any (fun w'' =>
        w''.priceAccount.allowedToCombine = false) = true)
    (by decide +kernel)
  obtain ⟨w', hw', hleft⟩ := (Option.any_eq_true _ _).mp hnext.1
  obtain ⟨w'', hw'', hflag⟩ := (Option.any_eq_true _ _).mp hnext.2
  obtain ⟨hleft, hset⟩ := of_decide_eq_true hleft
  have hclear := of_decide_eq_true hflag
  have h₁₂ := Run.of_exec (fun _ _ _ => restrict_of_attempt priceAccount _) hw'
  have h₂₁ := Run.of_exec (fun _ _ _ => restrict_of_attempt priceAccount _) hw''
  refine ⟨w₀, w, w', w'', h₀, h, h₁₂.of_restrict, h₂₁.of_restrict, hleft, hset, hclear, fun hsame => ?_⟩
  rw [hsame.priceAccount, hclear] at hset
  cases hset

end FractionAuction.PriceTracker
