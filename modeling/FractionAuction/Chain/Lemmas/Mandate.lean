import FractionAuction.Chain.Lemmas.Projection
import FractionAuction.PriceTracker.Lemmas.Mandate

/-!
# From the votes to the auction

A vote around one price account and the start of an auction that reads it are transactions of two programs. In between
the flag has to keep its meaning.
-/

namespace FractionAuction.Chain

open Lts

variable {T : TokenProgram Pubkey} {V : AuctionProgram.VaultProgram T}
  {misread : PriceTracker.TokenInfo → Option AuctionProgram.Price} {c₀ c c' : State V} {e : Event} {es : List Event}
  {pa : Pubkey} {m : Market}

/-- Votes at `pa` name the recorded store, and nothing of the recorded mint is minted. -/
def Fair (pa : Pubkey) (c : State V) (e : Event) : Prop :=
  ∀ m ∈ c.markets pa, match e with
    | .market _ _ => PriceTracker.NamesStore (m.world c.ledger) (e.seenAt pa)
    | .outside _ minted => minted m.tokenInfo.mint = 0
    | _ => True

instance (pa : Pubkey) (c : State V) (e : Event) : Decidable (Fair pa c e) :=
  match e with
  | .market _ _ => inferInstanceAs (Decidable (∀ m ∈ c.markets pa, _))
  | .outside _ _ => inferInstanceAs (Decidable (∀ m ∈ c.markets pa, _ = _))
  | .auction _ _ | .initializeMarket _ _ _ | .tick _ => inferInstanceAs (Decidable (∀ m ∈ c.markets pa, True))

/-- The votes are backed by tokens in the store, and a flag that is set has the votes for it. -/
structure Voted (pa : Pubkey) (c : State V) (m : Market) : Prop where
  backed : ∃ fs, PriceTracker.Backed pa fs (m.world c.ledger)
  mandated : PriceTracker.Mandated (m.world c.ledger)

def AllVoted (pa : Pubkey) (c : State V) : Prop := ∀ m, c.markets pa = some m → Voted pa c m

theorem Fair.names (h : Fair pa c e) (hm : c.markets pa = some m) :
    PriceTracker.NamesStore (m.world c.ledger) (e.seenAt pa) := by
  have hf := h m hm
  cases e with
  | market p f => exact hf
  | auction _ _ | initializeMarket _ _ _ | tick _ | outside _ _ => trivial

theorem Fair.supply (hT : T.Lawful) (hM : Modest V) (hstep : Step misread c e c') (h : Fair pa c e)
    (hm : c.markets pa = some m) :
    T.outstanding c'.ledger m.tokenInfo.mint ≤ T.outstanding c.ledger m.tokenInfo.mint := by
  by_cases hout : e.IsOutside
  · have hf := h m hm
    cases hstep with
    | outside ho =>
        have hsupply := ho.supply m.tokenInfo.mint
        have hzero : _ = 0 := hf
        rwa [hzero, Nat.add_zero] at hsupply
    | auction _ _ | initializeMarket _ _ | market _ _ _ | tick _ => exact hout.elim
  · exact (hstep.protects hT hM hout (P := fun _ => False) fun _ => False.elim).supply _

theorem AllVoted.step (hT : T.Lawful) (hM : Modest V) (hv : AllVoted pa c)
    (h : restrict (Step misread) (Fair pa) c e c') : AllVoted pa c' := by
  obtain ⟨hstep, hfair⟩ := h
  intro m' hm'
  cases hm : c.markets pa with
  | some m =>
      obtain ⟨⟨fs, hb⟩, hmandated⟩ := hv m hm
      obtain ⟨m₁, hm₁, hseen⟩ := hstep.seenAt hT hM hm
      obtain rfl : m₁ = m' := Option.some.inj (hm₁.symm.trans hm')
      have hnamed : restrict (PriceTracker.Step pa) PriceTracker.NamesStore _ _ _ := ⟨hseen, hfair.names hm⟩
      exact ⟨⟨_, hb.step hT hnamed⟩, hmandated.step hT hb hnamed (hfair.supply hT hM hstep hm)⟩
  | none =>
      obtain ⟨s, ctx, minPrice, -, -, hi⟩ := hstep.founds hm hm'
      have hinitial : PriceTracker.Initial pa (m'.world c'.ledger) := ⟨c.ledger, ctx, minPrice, hi⟩
      exact ⟨⟨[], .initial hT hinitial⟩, .initial hinitial⟩

theorem AllVoted.run (hT : T.Lawful) (hM : Modest V) (h₀ : Genesis c₀)
    (h : Run (restrict (Step misread) (Fair pa)) c₀ es c) : AllVoted pa c :=
  h.invariant (fun _ _ _ hv hstep => hv.step hT hM hstep) fun m hm => by simp [h₀.markets] at hm

/-- What stands behind the start of an auction that reads the price account `pa`. -/
structure Backing (pa v : Pubkey) (c c' : State V) (ctx : AuctionProgram.Start) (m : Market) : Prop where
  market : c.markets pa = some m
  voted : Voted pa c m
  majority : PriceTracker.MoreThanHalf c.ledger m.tokenInfo.mint m.tokenInfo.totalVotes
  mint : m.priceAccount.priceMint = ctx.paymentMint
  /-- The vault program is given exactly the price account. -/
  combined : ∃ L L', V.combine (ctx.combineContext v) m.price (c.vaults v) L = some (c'.vaults v, L')

theorem price_of_signer (hpa : pa.isDerived = false) {price : AuctionProgram.Price}
    (h : c.prices misread pa = some price) : ∃ m, c.markets pa = some m ∧ m.price = price := by
  cases pa with
  | key n => exact Option.map_eq_some_iff.mp h
  | storeAuthority p => cases hpa
  | authority => cases hpa
  | auction v => cases hpa
  | bid b a => cases hpa

theorem backing_of_start {v : Pubkey} {ctx : AuctionProgram.Start} {n r : UInt64} (hpa : pa.isDerived = false)
    (hv : AllVoted pa c) (hctx : ctx.externalPricingAccount = pa)
    (h : Step misread c (.auction v (.start ctx n r)) c') : ∃ m, Backing pa v c c' ctx m := by
  cases h with
  | auction _ hs =>
      cases hs with
      | start hst =>
          obtain ⟨s, vault, _, he, rfl⟩ := AuctionProgram.start_effect hst
          obtain ⟨_, L, L', price, _, _, hreads, -, -, -, hcombine, -⟩ := he.tokens
          obtain ⟨m, hm, rfl⟩ := price_of_signer (c := c) hpa (hctx ▸ hreads.shown)
          refine ⟨m, hm, hv m hm, (hv m hm).mandated hreads.allowed, hreads.mint, L, L', ?_⟩
          simp only [State.put, Function.update_self]
          exact hcombine

end FractionAuction.Chain
