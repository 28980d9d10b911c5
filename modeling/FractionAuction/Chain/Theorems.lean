import FractionAuction.Chain.Lemmas.Personal
import FractionAuction.Chain.Lemmas.Reading
import FractionAuction.Chain.Lemmas.Refunds
import FractionAuction.Chain.Lemmas.Solvency
import FractionAuction.Chain.Lemmas.Storage
import FractionAuction.Chain.SampleChain

/-!
# Theorems about the whole system
-/

namespace FractionAuction.Chain

open Lts Pubkey

variable {T : TokenProgram Pubkey} {V : AuctionProgram.VaultProgram T}
  {misread : PriceTracker.TokenInfo → Option AuctionProgram.Price} {c₀ c c' : State V} {es : List Event}

/-! ## Composition -/

/-- However the transactions of all users at all vaults and price accounts are interleaved, the accounts around each
vault go through a run of the auction program alone, with the calls made there. -/
theorem vault_runs_alone (hT : T.Lawful) (hM : Modest V) (h₀ : Genesis c₀) (h : Run (Step misread) c₀ es c)
    (v : Pubkey) : AuctionProgram.Genesis (c₀.around misread v) ∧
      ∃ fs, List.Forall₂ (Event.SeenFrom v) es fs ∧
        Run (AuctionProgram.Step v) (c₀.around misread v) fs (c.around misread v) :=
  ⟨h₀.around v, around_run hT hM h v⟩

theorem vault_runs_alone_two : ∃ c₀ c : Concrete, Genesis c₀ ∧ Run (Step neverMisread) c₀ twoAuctions c ∧
    ∃ fs, List.Forall₂ (Event.SeenFrom otherVault) twoAuctions fs ∧
      Run (AuctionProgram.Step otherVault) (c₀.around neverMisread otherVault) fs
        (c.around neverMisread otherVault) := by
  obtain ⟨c₀, c, h₀, h, -⟩ := sample_run (fun _ _ => True) twoAuctions (fun _ => True) (by decide +kernel)
  exact ⟨c₀, c, h₀, h.of_restrict, (vault_runs_alone TokenLedger.program_lawful
    AuctionProgram.SampleVault.modest h₀ h.of_restrict otherVault).2⟩

/-- Every price account was made by one `initialize`, and has gone through a run of the price tracker alone since. -/
theorem market_runs_alone (hT : T.Lawful) (hM : Modest V) (h₀ : Genesis c₀) (h : Run (Step misread) c₀ es c)
    {pa : Pubkey} {m : Market} (hm : c.markets pa = some m) :
    ∃ before s ctx minPrice w₀ after, Founded misread c₀ es c pa m before s ctx minPrice w₀ after :=
  founded_of_run hT hM h₀.markets h hm

theorem market_runs_alone_two : ∃ (c₀ c : Concrete) (m : Market), Genesis c₀ ∧
    Run (Step neverMisread) c₀ twoAuctions c ∧ c.markets (key 3) = some m ∧ m.tokenInfo.totalVotes = 35 ∧
      ∃ before s ctx minPrice w₀ after,
        Founded neverMisread c₀ twoAuctions c (key 3) m before s ctx minPrice w₀ after := by
  obtain ⟨c₀, c, h₀, h, m, hm, hvotes⟩ := sample_run (fun _ _ => True) twoAuctions
    (fun c => ∃ m ∈ c.markets (key 3), m.tokenInfo.totalVotes = 35) (by decide +kernel)
  exact ⟨c₀, c, m, h₀, h.of_restrict, hm, hvotes,
    market_runs_alone TokenLedger.program_lawful AuctionProgram.SampleVault.modest h₀ h.of_restrict hm⟩

/-! ## Solvency -/

/-- Every debt is covered by an account that covers no other. -/
structure Solvent (c : State V) : Prop where
  covered {d x} : c.due d = some x → Covers c d x
  apart {d d' x x'} : c.due d = some x → c.due d' = some x' → x.account = x'.account → d = d'

/-- In every reachable state all treasuries and all refunds of all auctions are there at once. -/
theorem always_solvent (hT : T.Lawful) (hV : V.Lawful) (hM : Modest V) (h₀ : Genesis c₀)
    (h : Run (Step misread) c₀ es c) : Solvent c where
  covered hx := covered_of_run hT hV hM h₀ h hx
  apart hx hx' := (covered_of_run hT hV hM h₀ h hx).apart (covered_of_run hT hV hM h₀ h hx')

theorem always_solvent_two : ∃ c₀ c : Concrete, Genesis c₀ ∧ Run (Step neverMisread) c₀ twoAuctions c ∧
    (c.due (.treasury AuctionProgram.vaultKey)).map Due.amount = some 2000 ∧
      (c.due (.refund AuctionProgram.vaultKey (key 10))).map Due.amount = some 2000 ∧
      (c.due (.treasury otherVault)).map Due.amount = some 300 ∧
      (c.due (.refund otherVault (key 20))).map Due.amount = some 400 ∧ Solvent c := by
  obtain ⟨c₀, c, h₀, h, h₁, h₂, h₃, h₄⟩ := sample_run (fun _ _ => True) twoAuctions
    (fun c => (c.due (.treasury AuctionProgram.vaultKey)).map Due.amount = some 2000 ∧
      (c.due (.refund AuctionProgram.vaultKey (key 10))).map Due.amount = some 2000 ∧
      (c.due (.treasury otherVault)).map Due.amount = some 300 ∧
      (c.due (.refund otherVault (key 20))).map Due.amount = some 400) (by decide +kernel)
  exact ⟨c₀, c, h₀, h.of_restrict, h₁, h₂, h₃, h₄, always_solvent TokenLedger.program_lawful
    AuctionProgram.SampleVault.lawful AuctionProgram.SampleVault.modest h₀ h.of_restrict⟩

/-- From every reachable state, refunds of different bids that can be asked for are all granted in whatever order, and
every account gets at least what was asked for. -/
theorem refunds_in_any_order (hT : T.Lawful) (hV : V.Lawful) (hM : Modest V) (h₀ : Genesis c₀)
    (h : Run (Step misread) c₀ es c) {xs : List Refund} (hdistinct : (xs.map Refund.bid).Nodup)
    (hready : ∀ x ∈ xs, x.Ready misread c) :
    ∃ fs c', List.Forall₂ (fun x e => ∃ n, e = Event.auction x.vault (.withdrawBid x.call n)) xs fs ∧
      Run (Step misread) c fs c' ∧ (∀ x ∈ xs, c'.bids x.vault x.call.bidder.key = none) ∧
      ∀ k m o, o.isEscrow = false → T.Holds c.ledger k m o →
        T.balance c.ledger k + c.refunded xs k ≤ T.balance c'.ledger k := by
  obtain ⟨fs, c', hevents, hrun, hdone⟩ := refunds_granted hT hV hM h₀ h hdistinct hready
  refine ⟨fs, c', hevents, hrun, fun x hx => ?_, fun k m o ho hk => (hdone.paid ho hk).2⟩
  rcases hdone.taken hx with hrest | hnone
  · cases hrest
  · exact hnone

/-- The two bids that were outbid. -/
def bothRefunds : List Refund :=
  [⟨otherVault, AuctionProgram.withdrawCall 151 21 20⟩, ⟨AuctionProgram.vaultKey, AuctionProgram.withdrawCall 51 11 10⟩]

/-- `Refund.Ready`, to be computed. -/
def Refund.CanBeAsked (c : Concrete) (x : Refund) : Prop :=
  ∃ a ∈ c.auctions x.vault, ∃ b ∈ c.bids x.vault x.call.bidder.key, x.call.bidder.key ≠ a.topBidder ∧
    x.call.settings = a.settings ∧ x.call.bidTokenAccount = b.tokenAccount ∧
    ∃ y ∈ (TokenLedger.program Pubkey).account c.ledger x.call.toAccount,
      y.mint = a.paymentMint ∧ y.owner.isEscrow = false

instance (c : Concrete) (x : Refund) : Decidable (x.CanBeAsked c) := inferInstanceAs (Decidable (∃ a ∈ _, _))

theorem Refund.CanBeAsked.ready {c : Concrete} {x : Refund} (h : x.CanBeAsked c) : x.Ready neverMisread c := by
  obtain ⟨a, ha, b, hb, hout, hset, hescrow, y, hy, hmint, hown⟩ := h
  exact ⟨a, b, ha, hb, hout, hset, hescrow, y.owner, hmint ▸ TokenProgram.holds_of_account hy, hown⟩

theorem refunds_in_any_order_two : ∃ c₀ c : Concrete, Genesis c₀ ∧ Run (Step neverMisread) c₀ twoAuctions c ∧
    c.refunded bothRefunds (key 21) = 400 ∧ c.refunded bothRefunds (key 11) = 2000 ∧
      ∃ fs c', List.Forall₂ (fun x e => ∃ n, e = Event.auction x.vault (.withdrawBid x.call n)) bothRefunds fs ∧
        Run (Step neverMisread) c fs c' ∧ (∀ x ∈ bothRefunds, c'.bids x.vault x.call.bidder.key = none) ∧
        ∀ k m o, o.isEscrow = false → (TokenLedger.program Pubkey).Holds c.ledger k m o →
          (TokenLedger.program Pubkey).balance c.ledger k + c.refunded bothRefunds k ≤
            (TokenLedger.program Pubkey).balance c'.ledger k := by
  obtain ⟨c₀, c, h₀, h, h₁, h₂, hready⟩ := sample_run (fun _ _ => True) twoAuctions
    (fun c => c.refunded bothRefunds (key 21) = 400 ∧ c.refunded bothRefunds (key 11) = 2000 ∧
      ∀ x ∈ bothRefunds, x.CanBeAsked c) (by decide +kernel)
  exact ⟨c₀, c, h₀, h.of_restrict, h₁, h₂, refunds_in_any_order TokenLedger.program_lawful
    AuctionProgram.SampleVault.lawful AuctionProgram.SampleVault.modest h₀ h.of_restrict (by decide)
    fun x hx => (hready x hx).ready⟩

/-- What one of the programs keeps in the name of `o` is not debited, closed or handed on unless a call that signs
for `o` is made: of a bid a `withdraw_bid` of its bidder, of a treasury a `place_bid`, `end` or `redeem` at its vault,
of a store a `remove_vote` at its price account. -/
theorem taken_by_signature (hT : T.Lawful) (hM : Modest V) (h : Run (Step misread) c es c') {k m o : Pubkey}
    (ho : o.isHolder = true) (hk : T.Holds c.ledger k m o)
    (htaken : ¬ T.Holds c'.ledger k m o ∨ T.balance c'.ledger k < T.balance c.ledger k) :
    ∃ e ∈ es, e.Debits o := debited_of_run hT hM h ho hk htaken

/-- Votes that are taken back. -/
def takeBack : Event := .market (key 3) (.removeVote ⟨key 90, key 71, key 1, AuctionProgram.holder 70⟩ 25)

theorem taken_by_signature_votes : ∃ c c' : Concrete, Run (Step neverMisread) c [takeBack] c' ∧
    (TokenLedger.program Pubkey).Holds c.ledger (key 90) (key 1) (storeAuthority (key 3)) ∧
      (TokenLedger.program Pubkey).balance c'.ledger (key 90) < (TokenLedger.program Pubkey).balance c.ledger (key 90) ∧
      ∃ e ∈ [takeBack], e.Debits (storeAuthority (key 3)) := by
  obtain ⟨c₀, c, -, -, hstore, h⟩ := sample_run (fun _ _ => True) twoMarkets
    (fun c => (TokenLedger.program Pubkey).account c.ledger (key 90) = some ⟨key 1, storeAuthority (key 3), 60⟩ ∧
      (c.perform neverMisread takeBack).any fun c' =>
        (TokenLedger.program Pubkey).balance c'.ledger (key 90) < 60) (by decide +kernel)
  rw [Option.any_eq_true] at h
  obtain ⟨c', hstep, hlt⟩ := h
  have hrun : Run (Step neverMisread) c [takeBack] c' := .single (.of_perform neverMisread hstep)
  have hholds : (TokenLedger.program Pubkey).Holds c.ledger (key 90) (key 1) (storeAuthority (key 3)) := ⟨60, hstore⟩
  have hless : (TokenLedger.program Pubkey).balance c'.ledger (key 90) <
      (TokenLedger.program Pubkey).balance c.ledger (key 90) := by
    rw [TokenProgram.balance_of_account hstore]
    exact of_decide_eq_true hlt
  exact ⟨c, c', hrun, hholds, hless, taken_by_signature TokenLedger.program_lawful
    AuctionProgram.SampleVault.modest hrun rfl hholds (.inr hless)⟩

/-! ## Records -/

/-- The vault program may be any program that the runtime restrains. None of its calls is refused for a signature, no
treasury, bid or store is debited without a call that signs for it, and nothing is minted but from outside. -/
theorem vault_not_trusted (hT : T.Lawful) {P : AuctionProgram.VaultProcessor T} {ids : AuctionProgram.Programs}
    (hP : P.Restrained) {c c' : State (P.program ids)} (h : Run (Step misread) c es c') : Invoked P ids ∧
    (∀ k m o, o.isHolder = true → T.Holds c.ledger k m o →
      (¬ T.Holds c'.ledger k m o ∨ T.balance c'.ledger k < T.balance c.ledger k) → ∃ e ∈ es, e.Debits o) ∧
    ∀ m, T.outstanding c'.ledger m ≤ T.outstanding c.ledger m + (es.map (Event.mints m)).sum :=
  ⟨invoked P ids, fun _ _ _ ho hk htaken => debited_of_run hT (modest_of_restrained hP) h ho hk htaken,
    supply_of_run hT (modest_of_restrained hP) h⟩

/-- The chain with the sample program behind its interface. -/
abbrev Interfaced := State (AuctionProgram.SampleVault.processor.program AuctionProgram.SampleVault.ids)

theorem vault_not_trusted_two : ∃ c₀ c : Interfaced, Run (Step neverMisread) c₀ twoAuctions c ∧
    (c.vaults AuctionProgram.vaultKey : AuctionProgram.Vault).state = .combined ∧
    Invoked AuctionProgram.SampleVault.processor AuctionProgram.SampleVault.ids ∧
    (∀ k m o, o.isHolder = true → (TokenLedger.program Pubkey).Holds c₀.ledger k m o →
      (¬ (TokenLedger.program Pubkey).Holds c.ledger k m o ∨
        (TokenLedger.program Pubkey).balance c.ledger k < (TokenLedger.program Pubkey).balance c₀.ledger k) →
      ∃ e ∈ twoAuctions, e.Debits o) ∧
    ∀ m, (TokenLedger.program Pubkey).outstanding c.ledger m ≤
      (TokenLedger.program Pubkey).outstanding c₀.ledger m + (twoAuctions.map (Event.mints m)).sum := by
  obtain ⟨c₀, c, -, h, hcombined⟩ := run_of_opening
    (V := AuctionProgram.SampleVault.processor.program AuctionProgram.SampleVault.ids) sampleVaults neverMisread
    (fun _ _ => True) twoAuctions (fun c => (c.vaults AuctionProgram.vaultKey : AuctionProgram.Vault).state = .combined)
    (by decide +kernel)
  exact ⟨c₀, c, h.of_restrict, hcombined,
    vault_not_trusted TokenLedger.program_lawful AuctionProgram.SampleVault.restrained h.of_restrict⟩

/-! ## From the votes to the auction -/

/-- As long as votes at the price account `pa` name its own store and none of its fractions are minted, an auction
that starts at the price of `pa` has votes over half of the fractions behind it, each of them a token in the store. -/
theorem start_has_mandate (hT : T.Lawful) (hM : Modest V) {pa v : Pubkey} (hpa : pa.isDerived = false)
    (h₀ : Genesis c₀) (h : Run (restrict (Step misread) (Fair pa)) c₀ es c) {ctx : AuctionProgram.Start}
    {n r : UInt64} (hctx : ctx.externalPricingAccount = pa)
    (hs : Step misread c (.auction v (.start ctx n r)) c') : ∃ m, Backing pa v c c' ctx m :=
  backing_of_start hpa (AllVoted.run hT hM h₀ h) hctx hs

theorem start_has_mandate_sixty : ∃ (c₀ c c' : Concrete) (m : Market), Genesis c₀ ∧
    Run (restrict (Step neverMisread) (Fair (key 3))) c₀ twoMarkets c ∧
      Step neverMisread c (.auction AuctionProgram.vaultKey (.start AuctionProgram.startCall 2000 1000)) c' ∧
      m.tokenInfo.totalVotes = 60 ∧
      Backing (key 3) AuctionProgram.vaultKey c c' AuctionProgram.startCall m := by
  obtain ⟨c₀, c, h₀, h, ⟨m₁, hm₁, hvotes⟩, hstart⟩ := sample_run (Fair (key 3)) twoMarkets
    (fun c => (∃ m ∈ c.markets (key 3), m.tokenInfo.totalVotes = 60) ∧ (c.perform neverMisread
      (.auction AuctionProgram.vaultKey (.start AuctionProgram.startCall 2000 1000))).isSome) (by decide +kernel)
  obtain ⟨c', hstep⟩ := Option.isSome_iff_exists.mp hstart
  have hstep' := Step.of_perform neverMisread hstep
  obtain ⟨m, hm⟩ := start_has_mandate TokenLedger.program_lawful AuctionProgram.SampleVault.modest rfl h₀ h rfl hstep'
  obtain rfl : m₁ = m := Option.some.inj (hm₁.symm.trans hm.market)
  exact ⟨c₀, c, c', m₁, h₀, h, hstep', hvotes, hm⟩

/-! ## Storage -/

section Storage

open AccountStore.Schema Borsh

variable {discriminator : String → Bytes 8}

/-- Every run of the chain can be kept in bytes: all accounts fit their space, no write at the end of a transaction
fails, and what a transaction changes in memory it also declares, so that nothing is lost. In whatever state of the
run, an account is read as the record that is there in memory, and not as another record or type. -/
theorem accounts_kept (address : Pubkey → Bytes 32) (bump : Pubkey → UInt8)
    (hnames : Function.Injective fun t : AccountType => discriminator t.name) (h₀ : Genesis c₀)
    (h : Run (restrict (Step misread) Fresh) c₀ es c) :
    (∃ s, Run (StoredStep address bump misread hnames) (c₀, fun _ => none) es (c, s)) ∧
      ∀ s, Run (StoredStep address bump misread hnames) (c₀, fun _ => none) es (c, s) →
        ∀ p (x : Σ t : AccountType, t.Record),
          (s p).bind ((AccountType.schema hnames).tryDeserialize x.1) = some x.2 ↔
            c.records address bump p = some x := by
  have hempty : (AccountType.schema hnames).encode (c₀.records address bump) = fun _ => none := h₀.encode hnames
  refine ⟨⟨(AccountType.schema hnames).encode (c.records address bump), ?_⟩, fun s hs p x => ?_⟩
  · rw [← hempty]
    exact run_is_stored hnames h₀.laid h
  · rw [store_of_run hnames h₀.laid hempty.symm hs]
    exact read_encode (S := AccountType.schema hnames) x

theorem accounts_kept_two : ∃ c₀ c : Concrete, Genesis c₀ ∧ Run (restrict (Step neverMisread) Fresh) c₀ twoAuctions c ∧
    (c.settings (key 4)).isSome ∧
    (∃ s, Run (StoredStep numbered (fun _ => 255) neverMisread AccountType.nameHash_injective) (c₀, fun _ => none)
      twoAuctions (c, s)) ∧
    ∀ s, Run (StoredStep numbered (fun _ => 255) neverMisread AccountType.nameHash_injective) (c₀, fun _ => none)
      twoAuctions (c, s) → ∀ p (x : Σ t : AccountType, t.Record),
        (s p).bind ((AccountType.schema AccountType.nameHash_injective).tryDeserialize x.1) = some x.2 ↔
          c.records numbered (fun _ => 255) p = some x := by
  obtain ⟨c₀, c, h₀, h, hsettings⟩ := sample_run Fresh twoAuctions (fun c => (c.settings (key 4)).isSome)
    (by decide +kernel)
  exact ⟨c₀, c, h₀, h, hsettings, accounts_kept numbered (fun _ => 255) AccountType.nameHash_injective h₀ h⟩

/-- In every state of a run that is kept in bytes, what the auction program decodes from the accounts of the price
tracker are the prices that its calls see. The record of a voter is never taken for a price. -/
theorem prices_from_bytes {address : Pubkey → Bytes 32} {bump : Pubkey → UInt8} {pubkey : Bytes 32 → Pubkey}
    (hnames : Function.Injective fun t : AccountType => discriminator t.name) (h₀ : Genesis c₀)
    (hes : ∀ e ∈ es, e.Names address pubkey) {s : AccountStore.Schema.Store Place}
    (h : Run (restrict (Step (readTokenInfo address discriminator pubkey)) Fresh) c₀ es c)
    (hs : Run (StoredStep address bump (readTokenInfo address discriminator pubkey) hnames) (c₀, fun _ => none) es
      (c, s)) :
    (∀ v k, c.readPrices address pubkey bump s (.account k) =
      (c.around (readTokenInfo address discriminator pubkey) v).prices k) ∧
    ∀ u pa, c.readPrices address pubkey bump s (.user u pa) = none := by
  have hempty : (AccountType.schema hnames).encode (c₀.records address bump) = fun _ => none := h₀.encode hnames
  obtain rfl := store_of_run hnames h₀.laid hempty.symm hs
  have hlaid : Laid c := h.invariant (fun _ _ _ hl hstep => hl.step hstep) h₀.laid
  have hrecorded : Recorded address pubkey c := h₀.recorded.run h.of_restrict hes
  exact ⟨fun _ k => readPrices_eq hnames hlaid hrecorded k, readPrices_user hnames⟩

/-- The address that a number stands for. -/
def unnumbered (b : Bytes 32) : Pubkey := key (ofLittleEndian b.toList - 1)

/-- With these addresses a `TokenInfo` is read as a price account too. -/
theorem prices_from_bytes_two : ∃ (c₀ c : Concrete) (s : AccountStore.Schema.Store Place), Genesis c₀ ∧
    Run (StoredStep numbered (fun _ => 255) (readTokenInfo numbered AccountType.nameHash unnumbered)
      AccountType.nameHash_injective) (c₀, fun _ => none) twoAuctions (c, s) ∧
    (c.prices (readTokenInfo numbered AccountType.nameHash unnumbered) (storeAuthority (key 3))).isSome ∧
    (∀ v k, c.readPrices numbered unnumbered (fun _ => 255) s (.account k) =
      (c.around (readTokenInfo numbered AccountType.nameHash unnumbered) v).prices k) ∧
    ∀ u pa, c.readPrices numbered unnumbered (fun _ => 255) s (.user u pa) = none := by
  obtain ⟨c₀, c, h₀, h, hmisread⟩ := run_of_opening (V := AuctionProgram.sampleVault) sampleVaults
    (readTokenInfo numbered AccountType.nameHash unnumbered) Fresh twoAuctions
    (fun c => (c.prices (readTokenInfo numbered AccountType.nameHash unnumbered) (storeAuthority (key 3))).isSome)
    (by decide +kernel)
  have hs : Run (StoredStep numbered (fun _ => 255) (readTokenInfo numbered AccountType.nameHash unnumbered)
      AccountType.nameHash_injective) (c₀, _) twoAuctions (c, _) :=
    run_is_stored AccountType.nameHash_injective h₀.laid h
  rw [h₀.encode] at hs
  exact ⟨c₀, c, _, h₀, hs, hmisread,
    prices_from_bytes AccountType.nameHash_injective h₀ (by decide +kernel) h hs⟩

end Storage

end FractionAuction.Chain
