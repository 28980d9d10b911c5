import FractionAuction.AuctionProgram.VaultInterface
import FractionAuction.Chain.Lemmas.Solvency

/-!
# A vault program that is not trusted

The auction program hands the vault program the signature of its authority and of its caller, and data that ask it
to mint nothing. That makes any vault program modest.
-/

namespace FractionAuction.Chain

open AuctionProgram Lts
open TokenProgram (Protects)

variable {T : TokenProgram Pubkey}

/-! ## Invocations -/

section Invocations

variable {P : VaultProcessor T} {ids : Programs}

theorem signers_combineVault (ctx : Combine) : (ids.combineVault ctx).signers = [ctx.vaultAuthority, ctx.payer] := rfl

theorem signers_withdrawLocked (ctx : Withdraw) (n : UInt64) :
    (ids.withdrawLocked ctx n).signers = [ctx.vaultAuthority] := rfl

theorem signers_redeemShares (ctx : RedeemShares) : (ids.redeemShares ctx).signers = [ctx.redeemer] := rfl

variable (P ids)

/-- None of the three invocations is refused for a signature that was not given. -/
structure Invoked : Prop where
  start v (ctx : Start) price s L : (P.program ids).combine (ctx.combineContext v) price s L =
    P.process (ids.combineVault (ctx.combineContext v))
      (fun k => if k = ctx.externalPricingAccount then some price else none) s L
  claim v (ctx : Claim) n s L : (P.program ids).withdraw (ctx.withdrawContext v) n s L =
    P.process (ids.withdrawLocked (ctx.withdrawContext v) n) (fun _ => none) s L
  redeem v (ctx : Redeem) s L : (P.program ids).redeemShares (ctx.redeemContext v) s L =
    P.process (ids.redeemShares (ctx.redeemContext v)) (fun _ => none) s L

theorem invoked : Invoked P ids where
  start v ctx price s L := by
    refine VaultProcessor.invokeSigned_of_given ?_
    rw [signers_combineVault]
    simp [Start.combineContext]
  claim v ctx n s L := by
    change P.invokeSigned [.authority] (ids.withdrawLocked (ctx.withdrawContext v) n) (fun _ => none) s L = _
    refine VaultProcessor.invokeSigned_of_given ?_
    rw [signers_withdrawLocked]
    simp [Claim.withdrawContext]
  redeem v ctx s L := by
    change P.invokeSigned [ctx.redeemer.key] (ids.redeemShares (ctx.redeemContext v)) (fun _ => none) s L = _
    refine VaultProcessor.invokeSigned_of_given ?_
    rw [signers_redeemShares]
    simp [Redeem.redeemContext]

variable {P ids}

/-- An instruction that is signed for no holder and does not ask to mint. -/
theorem protects_of_invocation (hP : P.Restrained) {given : List Pubkey} {ix : Instruction} {i : VaultInstruction}
    {prices : Pubkey → Option Price} {s s' : P.State} {L L' : T.Ledger}
    (h : P.invokeSigned given ix prices s L = some (s', L')) (hgiven : ∀ k ∈ given, k.isHolder = false)
    (hdata : ix.data = i.tryToVec) (hmint : ∀ args, i ≠ .activateVault args ∧ i ≠ .mintFractionalShares args) :
    Protects (fun o : Pubkey => o.isHolder) L L' := by
  obtain ⟨hsigners, hprocess⟩ := VaultProcessor.invokeSigned_eq_some.mp h
  have hunsigned {o : Pubkey} (ho : o.isHolder = true) : o ∉ ix.signers := by
    intro hmem
    rw [hgiven o (hsigners o hmem)] at ho
    cases ho
  refine ⟨fun ho hk => (hP.holds hprocess (Pubkey.isDerived_of_holder ho) (hunsigned ho) hk).1,
    fun ho hk => (hP.holds hprocess (Pubkey.isDerived_of_holder ho) (hunsigned ho) hk).2, fun m => ?_⟩
  by_contra hmore
  obtain ⟨args, hargs⟩ := hP.mints hprocess (Nat.not_le.mp hmore)
  rw [hdata, VaultInstruction.tryFromSlice_tryToVec, VaultInstruction.tryFromSlice_tryToVec] at hargs
  rcases hargs with hactivate | hissue
  · exact (hmint args).1 hactivate.symm
  · exact (hmint args).2 hissue.symm

/-- Whatever the vault program does, it can do no harm with the signatures and the data that it is handed. -/
theorem modest_of_restrained (hP : P.Restrained) : Modest (P.program ids) where
  combine {ctx price s s' L L'} h hpayer := by
    refine protects_of_invocation hP h ?_ (i := .combineVault) rfl (by simp)
    have hauthority : Pubkey.authority.isHolder = false := rfl
    simp [hpayer, hauthority]
  withdraw {ctx n s s' L L'} h := by
    refine protects_of_invocation hP h ?_ (i := .withdrawTokenFromSafetyDepositBox ⟨n⟩) rfl (by simp)
    have hauthority : Pubkey.authority.isHolder = false := rfl
    simp [hauthority]
  redeemShares {ctx s s' L L'} h hredeemer := by
    refine protects_of_invocation hP h ?_ (i := .redeemShares) rfl (by simp)
    simp [hredeemer]

end Invocations

/-! ## Supply -/

variable {V : VaultProgram T} {misread : PriceTracker.TokenInfo → Option Price} {c c' : State V} {e : Event}
  {es : List Event}

/-- What the transaction mints of `m`. -/
def Event.mints (m : Pubkey) : Event → ℕ
  | .outside _ minted => minted m
  | _ => 0

theorem Step.supply (hT : T.Lawful) (hM : Modest V) (h : Step misread c e c') (m : Pubkey) :
    T.outstanding c'.ledger m ≤ T.outstanding c.ledger m + e.mints m := by
  by_cases hout : e.IsOutside
  · cases h with
    | outside ho => exact ho.supply m
    | auction _ _ | initializeMarket _ _ | market _ _ _ | tick _ => exact hout.elim
  · have hp := h.protects hT hM hout (P := fun _ => False) fun _ ho => ho.elim
    exact (hp.supply m).trans (Nat.le_add_right _ _)

/-- Only transactions from outside mint. -/
theorem supply_of_run (hT : T.Lawful) (hM : Modest V) (h : Run (Step misread) c es c') (m : Pubkey) :
    T.outstanding c'.ledger m ≤ T.outstanding c.ledger m + (es.map (Event.mints m)).sum := by
  induction h with
  | nil => exact Nat.le_add_right _ _
  | snoc _ hstep ih =>
      have hlast := hstep.supply hT hM m
      rw [sum_map_snoc]
      omega

end FractionAuction.Chain
