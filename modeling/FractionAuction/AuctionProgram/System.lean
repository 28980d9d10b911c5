import FractionAuction.AuctionProgram.Instructions
import FractionAuction.Library.Lts

/-!
# Runs of the auction program

All transactions around one vault `v`, from a state in which the program holds no accounts.
-/

namespace FractionAuction.AuctionProgram

variable {T : TokenProgram Pubkey} {V : VaultProgram T}

/-- A transaction, with the amounts it works out. -/
inductive Event where
  | init (ctx : Init)
  | setOwner (ctx : SetAuthority) (newOwner : Pubkey)
  | createSettings (ctx : CreateSettings) (duration softClosePeriod bidIncrement facilitatorFee : UInt64)
  | start (ctx : Start) (bidAmount reservePrice : UInt64)
  | placeBid (ctx : PlaceBid) (bidAmount : UInt64)
  | withdrawBid (ctx : WithdrawBid) (returned : UInt64)
  | endAuction (ctx : End) (fee : UInt64)
  | claim (ctx : Claim) (amount : UInt64)
  | redeem (ctx : Redeem) (burned payment : UInt64)
  | tick (now : Clock)
  /-- Transactions of other programs, which pay `deposits k` into the account `k`. -/
  | outside (deposits : Pubkey → ℕ)

/-- The transaction pays nothing into the account `k`, bids and refunds apart. -/
def Event.Spares (k : Pubkey) : Event → Prop
  | .withdrawBid ctx _ => ctx.toAccount ≠ k
  | .endAuction ctx _ => ctx.feeTokenAccount ≠ k
  | .claim ctx _ => ctx.destinationTokenAccount ≠ k
  | .redeem ctx _ _ => ctx.destinationTokenAccount ≠ k
  | .outside deposits => deposits k = 0
  | _ => True

instance (k : Pubkey) (e : Event) : Decidable (e.Spares k) :=
  match e with
  | .withdrawBid _ _ | .endAuction _ _ | .claim _ _ | .redeem _ _ _ => inferInstanceAs (Decidable (_ ≠ _))
  | .outside _ => Nat.decEq _ _
  | .init _ | .setOwner _ _ | .createSettings _ _ _ _ _ | .start _ _ _ | .placeBid _ _ | .tick _ =>
      inferInstanceAs (Decidable True)

/-- What happens outside. Without its signature nothing leaves an account of the auction, and what comes in are
the deposits. The vault keeps its mint and its redeem treasury, and once it is auctioned no more fractions are
minted. -/
structure Outside (v : Pubkey) (deposits : Pubkey → ℕ) (w w' : World V) : Prop where
  clock : w'.clock = w.clock
  authority : w'.authority = w.authority
  settings : w'.settings = w.settings
  auction : w'.auction = w.auction
  bids : w'.bids = w.bids
  fractionMint : (V.vault w'.vault).fractionMint = (V.vault w.vault).fractionMint
  redeemTreasury : (V.vault w'.vault).redeemTreasury = (V.vault w.vault).redeemTreasury
  fractions : w.auction.isSome → T.outstanding w'.ledger (V.vault w.vault).fractionMint ≤
    T.outstanding w.ledger (V.vault w.vault).fractionMint
  holds {k m o} : o.inAuction v → T.Holds w.ledger k m o → T.Holds w'.ledger k m o
  kept {k m o} : o.inAuction v → T.Holds w.ledger k m o →
    T.balance w'.ledger k = T.balance w.ledger k + deposits k
  gained k : T.balance w'.ledger k ≤ T.balance w.ledger k + deposits k

/-- A successful transaction; one that fails changes nothing and is no step. -/
inductive Step (v : Pubkey) : World V → Event → World V → Prop
  | init {w ctx w'} : Init.handler w ctx = .ok w' → Step v w (.init ctx) w'
  | setOwner {w ctx o w'} : SetAuthority.handler w ctx o = .ok w' → Step v w (.setOwner ctx o) w'
  | createSettings {w ctx d s i f w'} : CreateSettings.handler w ctx d s i f = .ok w' →
      Step v w (.createSettings ctx d s i f) w'
  | start {w ctx n r w'} : start v w ctx n = .ok (w', r) → Step v w (.start ctx n r) w'
  | placeBid {w ctx n w'} : placeBid v w ctx n = .ok w' → Step v w (.placeBid ctx n) w'
  | withdrawBid {w ctx n w'} : withdrawBid v w ctx = .ok (w', n) → Step v w (.withdrawBid ctx n) w'
  | endAuction {w ctx f w'} : endAuction v w ctx = .ok (w', f) → Step v w (.endAuction ctx f) w'
  | claim {w ctx n w'} : claim v w ctx n = .ok w' → Step v w (.claim ctx n) w'
  | redeem {w ctx a p w'} : redeem v w ctx = .ok (w', a, p) → Step v w (.redeem ctx a p) w'
  | tick {w now} : w.clock ≤ now → Step v w (.tick now) { w with clock := now }
  | outside {w d w'} : Outside v d w w' → Step v w (.outside d) w'

/-- Nothing of the program exists yet. -/
structure Genesis (w : World V) : Prop where
  authority : w.authority = none
  settings : ∀ k, w.settings k = none
  auction : w.auction = none
  bids : ∀ k, w.bids k = none

/-! ## Runs that are computed -/

/-- The transaction run, if it works out the amounts of the event. -/
def World.perform (v : Pubkey) (w : World V) : Event → Option (World V)
  | .init ctx => (ctx.handler w).toOption
  | .setOwner ctx o => (ctx.handler w o).toOption
  | .createSettings ctx d s i f => (ctx.handler w d s i f).toOption
  | .start ctx n r => Guard.expect (AuctionProgram.start v w ctx n) r
  | .placeBid ctx n => (AuctionProgram.placeBid v w ctx n).toOption
  | .withdrawBid ctx n => Guard.expect (AuctionProgram.withdrawBid v w ctx) n
  | .endAuction ctx f => Guard.expect (AuctionProgram.endAuction v w ctx) f
  | .claim ctx n => (AuctionProgram.claim v w ctx n).toOption
  | .redeem ctx a p => Guard.expect (AuctionProgram.redeem v w ctx) (a, p)
  | .tick now => if w.clock ≤ now then some { w with clock := now } else none
  | .outside _ => none

theorem Step.of_perform {v : Pubkey} {w w' : World V} {e : Event} (h : w.perform v e = some w') :
    Step v w e w' := by
  cases e with
  | init ctx => exact .init (Guard.toOption_some_iff.mp h)
  | setOwner ctx o => exact .setOwner (Guard.toOption_some_iff.mp h)
  | createSettings ctx d s i f => exact .createSettings (Guard.toOption_some_iff.mp h)
  | start ctx n r => exact .start (Guard.expect_some_iff.mp h)
  | placeBid ctx n => exact .placeBid (Guard.toOption_some_iff.mp h)
  | withdrawBid ctx n => exact .withdrawBid (Guard.expect_some_iff.mp h)
  | endAuction ctx f => exact .endAuction (Guard.expect_some_iff.mp h)
  | claim ctx n => exact .claim (Guard.toOption_some_iff.mp h)
  | redeem ctx a p => exact .redeem (Guard.expect_some_iff.mp h)
  | tick now =>
      simp only [World.perform, Option.ite_none_right_eq_some, Option.some.injEq] at h
      obtain ⟨hle, rfl⟩ := h
      exact .tick hle
  | outside d => cases h

section Replay

variable (v : Pubkey) (ok : World V → Event → Prop) [∀ w e, Decidable (ok w e)]

/-- The successful steps that meet a condition, as a function. -/
def World.attempt (w : World V) (e : Event) : Option (World V) :=
  if ok w e then w.perform v e else none

theorem restrict_of_attempt {w w' : World V} {e : Event} (h : w.attempt v ok e = some w') :
    Lts.restrict (Step v) ok w e w' := by
  unfold World.attempt at h
  split at h
  · exact ⟨.of_perform h, ‹_›⟩
  · cases h

theorem run_of_attempts {w : World V} {es : List Event} {P : World V → Prop} [DecidablePred P]
    (h : (es.foldlM (World.attempt v ok) w).any P = true) :
    ∃ w', Lts.Run (Lts.restrict (Step v) ok) w es w' ∧ P w' := by
  rw [Option.any_eq_true] at h
  obtain ⟨w', hrun, hP⟩ := h
  exact ⟨w', Lts.Run.of_exec (fun _ _ _ => restrict_of_attempt v ok) hrun, of_decide_eq_true hP⟩

end Replay

end FractionAuction.AuctionProgram
