import FractionAuction.AuctionProgram.Lemmas.Tokens
import FractionAuction.Chain.System
import FractionAuction.PriceTracker.Lemmas.Effects

/-!
# Who is debited

In a transaction the programs sign for few of the accounts in which they keep tokens. All others lose nothing.
-/

namespace FractionAuction.Chain

open TokenProgram (Protects)

variable {T : TokenProgram Pubkey} {V : AuctionProgram.VaultProgram T}

/-! ## Signatures -/

/-- In the call `e` around the vault `v` the program signs for `o`. -/
def SignsFor (v o : Pubkey) : AuctionProgram.Event → Prop
  | .placeBid _ _ => o = .auction v
  | .withdrawBid ctx _ => o = .bid ctx.bidder.key (.auction v)
  | .endAuction _ _ => o = .auction v
  | .redeem _ _ _ => o = .auction v
  | _ => False

/-- The transaction may debit or close accounts in the name of `o`. -/
def Event.Debits (o : Pubkey) : Event → Prop
  | .auction v e => SignsFor v o e
  | .market pa (.removeVote _ _) => o = .storeAuthority pa
  | _ => False

theorem inAuction_of_signsFor {v o : Pubkey} {e : AuctionProgram.Event} (h : SignsFor v o e) :
    o.inAuction v = true := by
  cases e with
  | placeBid ctx n =>
      obtain rfl : o = .auction v := h
      exact Pubkey.inAuction_auction v
  | withdrawBid ctx n =>
      obtain rfl : o = .bid ctx.bidder.key (.auction v) := h
      exact Pubkey.inAuction_bid v _
  | endAuction ctx f =>
      obtain rfl : o = .auction v := h
      exact Pubkey.inAuction_auction v
  | redeem ctx a p =>
      obtain rfl : o = .auction v := h
      exact Pubkey.inAuction_auction v
  | init _ | setOwner _ _ | createSettings _ _ _ _ _ | start _ _ _ | claim _ _ | tick _ | outside _ => exact h.elim

/-! ## Calls of the auction program -/

section Auction

open AuctionProgram

variable (hT : T.Lawful) (hM : Modest V) {v : Pubkey} {w w' : World V} {P : Pubkey → Prop}

theorem not_of_signer (hP : ∀ o, P o → o.isHolder = true) (s : Signer) : ¬ P s.key := by
  intro h
  exact absurd ((hP _ h).symm.trans s.not_holder) (by decide)

include hT

theorem protects_of_placeBid {ctx : PlaceBid} {n : UInt64} (h : placeBid v w ctx n = .ok w')
    (hP : ∀ o, P o → o.isHolder = true) (hno : ¬ P (.auction v)) : Protects P w.ledger w'.ledger := by
  obtain ⟨a, s, top, L, he, rfl⟩ := placeBid_effect h
  obtain ⟨L₁, L₂, h₁, h₂, h₃⟩ := he.tokens
  exact ((Protects.initializeAccount hT h₁).trans (.transfer hT h₂ (not_of_signer hP ctx.bidder))).trans
    (.transfer hT h₃ hno)

theorem protects_of_withdrawBid {ctx : WithdrawBid} {n : UInt64} (h : withdrawBid v w ctx = .ok (w', n))
    (hno : ¬ P (.bid ctx.bidder.key (.auction v))) : Protects P w.ledger w'.ledger := by
  obtain ⟨a, b, L, he, rfl⟩ := withdrawBid_effect h
  obtain ⟨L₁, h₁, h₂⟩ := he.tokens
  exact (Protects.transfer hT h₁ hno).trans (.closeAccount hT h₂ hno)

theorem protects_of_close {ctx : Redeem} {L L' : T.Ledger} (h : ctx.closePaymentTreasury v L = .ok L')
    (hno : ¬ P (.auction v)) : Protects P L L' := by
  simp only [Redeem.closePaymentTreasury, loadToken, Guard.bind_ok_iff, Guard.okOr_ok_iff] at h
  obtain ⟨x, -, h⟩ := h
  split at h
  · exact .closeAccount hT (Guard.okOr_ok_iff.mp h) hno
  · obtain rfl := Guard.pure_ok_iff.mp h
    exact .refl P L

include hM

theorem protects_of_start {ctx : Start} {n r : UInt64} (h : start v w ctx n = .ok (w', r))
    (hP : ∀ o, P o → o.isHolder = true) : Protects P w.ledger w'.ledger := by
  obtain ⟨s, vault, L, he, rfl⟩ := start_effect h
  obtain ⟨L₁, L₂, L₃, _, _, _, -, h₁, h₂, -, h₃, -, -, -, h₄⟩ := he.tokens
  have hcombine : Protects P L₂ L₃ := (hM.combine h₃ ctx.bidder.not_holder).mono hP
  exact (((Protects.initializeAccount hT h₁).trans (.initializeAccount hT h₂)).trans hcombine).trans
    (.transfer hT h₄ (not_of_signer hP ctx.bidder))

theorem protects_of_redeem {ctx : Redeem} {n p : UInt64} (h : redeem v w ctx = .ok (w', n, p))
    (hP : ∀ o, P o → o.isHolder = true) (hno : ¬ P (.auction v)) : Protects P w.ledger w'.ledger := by
  obtain ⟨a, vault, L, he, rfl⟩ := redeem_effect h
  obtain ⟨_, _, _, L₁, L₂, -, -, -, -, h₁, -, h₂, h₃⟩ := he.tokens
  have hredeem : Protects P w.ledger L₁ := (hM.redeemShares h₁ ctx.redeemer.not_holder).mono hP
  exact (hredeem.trans (.transfer hT h₂ hno)).trans (protects_of_close hT h₃ hno)

/-- A call protects the accounts of all holders it does not sign for. -/
theorem protects_of_call {e : AuctionProgram.Event} (h : AuctionProgram.Step v w e w') (hcall : IsCall e)
    (hP : ∀ o, P o → o.isHolder = true ∧ ¬ SignsFor v o e) : Protects P w.ledger w'.ledger := by
  have hholder := fun o ho => (hP o ho).1
  cases h with
  | init hi =>
      obtain rfl := Init.effect hi
      exact .refl P _
  | setOwner ho =>
      obtain rfl := SetAuthority.effect ho
      exact .refl P _
  | createSettings hs =>
      obtain ⟨-, -, rfl⟩ := CreateSettings.effect hs
      exact .refl P _
  | start hs => exact protects_of_start hT hM hs hholder
  | placeBid hb => exact protects_of_placeBid hT hb hholder fun h => (hP _ h).2 rfl
  | withdrawBid hw => exact protects_of_withdrawBid hT hw fun h => (hP _ h).2 rfl
  | endAuction hend =>
      obtain ⟨a, s, L, he, rfl⟩ := endAuction_effect hend
      exact .transfer hT he.tokens fun h => (hP _ h).2 rfl
  | claim hc =>
      obtain ⟨a, vault, L, he, rfl⟩ := claim_effect hc
      exact (hM.withdraw he.tokens).mono hholder
  | redeem hr => exact protects_of_redeem hT hM hr hholder fun h => (hP _ h).2 rfl
  | tick _ | outside _ => exact hcall.elim

end Auction

/-! ## Calls of the price tracker -/

section Market

open PriceTracker

variable (hT : T.Lawful) {pa : Pubkey} {w w' : World T} {P : Pubkey → Prop}
include hT

theorem protects_of_addVote {ctx : AddVotes} {votes price : UInt64} (h : addVote pa w ctx votes price = .ok w')
    (hP : ∀ o, P o → o.isHolder = true) : Protects P w.ledger w'.ledger := by
  have hd := (addVote_effect h).deposit
  unfold AddVotes.deposit at hd
  split at hd
  · exact .transfer hT (Guard.okOr_ok_iff.mp hd) (not_of_signer hP ctx.signer)
  · rw [Guard.pure_ok_iff.mp hd]
    exact .refl P _

theorem protects_of_vote {e : PriceTracker.Event} (h : PriceTracker.Step pa w e w') (hne : e ≠ .outside)
    (hP : ∀ o, P o → o.isHolder = true ∧ ¬ (Event.market pa e).Debits o) : Protects P w.ledger w'.ledger := by
  cases h with
  | initUserInfo hi =>
      obtain ⟨-, rfl⟩ := InitUserInfo.effect hi
      exact .refl P _
  | setMinPrice hm =>
      obtain ⟨-, rfl⟩ := SetMinPrice.effect hm
      exact .refl P _
  | addVote ha => exact protects_of_addVote hT ha fun o ho => (hP o ho).1
  | removeVote hr => exact .transfer hT (removeVote_effect hr).withdrawal fun h => (hP _ h).2 rfl
  | outside _ => exact (hne rfl).elim

theorem protects_of_init {ctx : Initialize} {minPrice : UInt64} {L : T.Ledger}
    (h : Initialize.handler pa L ctx minPrice = .ok w) : Protects P L w.ledger := by
  simp only [Initialize.handler, Guard.bind_ok_iff, Guard.okOr_ok_iff, Guard.pure_ok_iff] at h
  obtain ⟨_, _, _, _, _, _, L', hL, rfl⟩ := h
  exact .initializeAccount hT hL

end Market

/-! ## Transactions -/

variable {misread : PriceTracker.TokenInfo → Option AuctionProgram.Price} {c c' : State V} {e : Event}

/-- The transaction comes from outside. -/
def Event.IsOutside : Event → Prop
  | .outside _ _ => True
  | _ => False

theorem Step.protects (hT : T.Lawful) (hM : Modest V) (h : Step misread c e c') (hin : ¬ e.IsOutside)
    {P : Pubkey → Prop} (hP : ∀ o, P o → o.isHolder = true ∧ ¬ e.Debits o) : Protects P c.ledger c'.ledger := by
  cases h with
  | auction hcall hs => exact protects_of_call hT hM hs hcall hP
  | initializeMarket _ hi => exact protects_of_init hT hi
  | market _ hne hs => exact protects_of_vote hT hs hne hP
  | tick _ => exact .refl P _
  | outside _ => exact (hin trivial).elim

/-- An account that a program keeps in the name of `o` is only debited or closed where it signs for `o`. -/
theorem Step.keeps (hT : T.Lawful) (hM : Modest V) (h : Step misread c e c') {k m o : Pubkey}
    (ho : o.isHolder = true) (hno : ¬ e.Debits o) (hk : T.Holds c.ledger k m o) :
    T.Holds c'.ledger k m o ∧ T.balance c.ledger k ≤ T.balance c'.ledger k := by
  by_cases hout : e.IsOutside
  · cases h with
    | outside hs =>
        refine ⟨hs.holds ho hk, ?_⟩
        rw [hs.kept ho hk]
        exact Nat.le_add_right _ _
    | auction _ _ | initializeMarket _ _ | market _ _ _ | tick _ => exact hout.elim
  · have hp := h.protects hT hM hout (P := fun o' => o' = o) fun o' ho' => by
      subst ho'
      exact ⟨ho, hno⟩
    exact ⟨hp.holds rfl hk, hp.gains rfl hk⟩

end FractionAuction.Chain
