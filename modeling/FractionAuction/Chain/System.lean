import FractionAuction.AuctionProgram.System
import FractionAuction.PriceTracker.System

/-!
# The whole system

Any number of auctions and price accounts over one ledger. A transaction acts on the accounts around one vault or
around one price account, so its steps are those of `AuctionProgram.Step` and `PriceTracker.Step`.
-/

namespace FractionAuction.Chain

open PriceTracker (TokenInfo UserInfo ExternalPriceAccount)
open AuctionProgram (Auction Authority Bid Clock Price Settings VaultProgram)

variable {T : TokenProgram Pubkey}

/-- The accounts of one price account. -/
structure Market where
  priceAccount : ExternalPriceAccount
  tokenInfo : TokenInfo
  users : AList fun _ : Pubkey => UserInfo

/-- `bids` holds the `bid` accounts by vault and bidder. -/
structure State (V : VaultProgram T) where
  clock : Clock
  authority : Option Authority
  settings : Pubkey → Option Settings
  markets : Pubkey → Option Market
  vaults : Pubkey → V.State
  auctions : Pubkey → Option Auction
  bids : Pubkey → Pubkey → Option Bid
  ledger : T.Ledger

variable {V : VaultProgram T}

/-! ## What a transaction sees -/

/-- A price account as the auction program reads it. -/
def Market.price (m : Market) : Price :=
  ⟨m.priceAccount.pricePerShare, m.priceAccount.priceMint, m.priceAccount.allowedToCombine⟩

def Market.world (m : Market) (ledger : T.Ledger) : PriceTracker.World T :=
  ⟨m.priceAccount, m.tokenInfo, m.users, ledger⟩

def Market.ofWorld (w : PriceTracker.World T) : Market := ⟨w.priceAccount, w.tokenInfo, w.users⟩

section Views

variable (misread : TokenInfo → Option Price) (c : State V)

/-- What the auction reads at an address. The decoder may take a `TokenInfo` for a price account; `misread` is what
it finds there. -/
def State.prices : Pubkey → Option Price
  | .storeAuthority pa => (c.markets pa).bind fun m => misread m.tokenInfo
  | pa => (c.markets pa).map Market.price

/-- The accounts around the vault `v`. -/
def State.around (v : Pubkey) : AuctionProgram.World V where
  clock := c.clock
  authority := c.authority
  settings := c.settings
  prices := c.prices misread
  vault := c.vaults v
  auction := c.auctions v
  bids := c.bids v
  ledger := c.ledger

end Views

/-- The accounts around `v` are written back. -/
def State.put (c : State V) (v : Pubkey) (w : AuctionProgram.World V) : State V :=
  { c with
    authority := w.authority
    settings := w.settings
    vaults := Function.update c.vaults v w.vault
    auctions := Function.update c.auctions v w.auction
    bids := Function.update c.bids v w.bids
    ledger := w.ledger }

def State.putMarket (c : State V) (pa : Pubkey) (w : PriceTracker.World T) : State V :=
  { c with
    markets := Function.update c.markets pa (some (Market.ofWorld w))
    ledger := w.ledger }

/-! ## Transactions -/

/-- A call of the auction program, and not what happens around it. -/
def IsCall : AuctionProgram.Event → Prop
  | .tick _ => False
  | .outside _ => False
  | _ => True

instance (e : AuctionProgram.Event) : Decidable (IsCall e) :=
  match e with
  | .tick _ | .outside _ => inferInstanceAs (Decidable False)
  | .init _ | .setOwner _ _ | .createSettings _ _ _ _ _ | .start _ _ _ | .placeBid _ _ | .withdrawBid _ _
  | .endAuction _ _ | .claim _ _ | .redeem _ _ _ => inferInstanceAs (Decidable True)

inductive Event where
  | auction (v : Pubkey) (e : AuctionProgram.Event)
  | initializeMarket (pa : Signer) (ctx : PriceTracker.Initialize) (minPrice : UInt64)
  | market (pa : Pubkey) (e : PriceTracker.Event)
  | tick (now : Clock)
  /-- Transactions of other programs, which pay `deposits k` into the account `k` and mint `minted m` of `m`. -/
  | outside (deposits minted : Pubkey → ℕ)

/-- What happens outside: nothing leaves an account of the two programs without their signature. The vaults keep
their mints and redeem treasuries, and no fractions of an auctioned vault are minted. -/
structure Outside (deposits minted : Pubkey → ℕ) (c c' : State V) : Prop where
  clock : c'.clock = c.clock
  authority : c'.authority = c.authority
  settings : c'.settings = c.settings
  markets : c'.markets = c.markets
  auctions : c'.auctions = c.auctions
  bids : c'.bids = c.bids
  fractionMint v : (V.vault (c'.vaults v)).fractionMint = (V.vault (c.vaults v)).fractionMint
  redeemTreasury v : (V.vault (c'.vaults v)).redeemTreasury = (V.vault (c.vaults v)).redeemTreasury
  fractions v : (c.auctions v).isSome → T.outstanding c'.ledger (V.vault (c.vaults v)).fractionMint ≤
    T.outstanding c.ledger (V.vault (c.vaults v)).fractionMint
  holds {k m o} : o.isHolder → T.Holds c.ledger k m o → T.Holds c'.ledger k m o
  kept {k m o} : o.isHolder → T.Holds c.ledger k m o →
    T.balance c'.ledger k = T.balance c.ledger k + deposits k
  gained k : T.balance c'.ledger k ≤ T.balance c.ledger k + deposits k
  supply m : T.outstanding c'.ledger m ≤ T.outstanding c.ledger m + minted m

section Steps

variable (misread : TokenInfo → Option Price)

/-- A successful transaction, of any user at any vault or price account. -/
inductive Step : State V → Event → State V → Prop
  | auction {c v e w} : IsCall e → AuctionProgram.Step v (c.around misread v) e w →
      Step c (.auction v e) (c.put v w)
  | initializeMarket {c pa ctx minPrice w} : c.markets pa.key = none →
      PriceTracker.Initialize.handler pa.key c.ledger ctx minPrice = .ok w →
      Step c (.initializeMarket pa ctx minPrice) (c.putMarket pa.key w)
  | market {c pa m e w} : c.markets pa = some m → e ≠ .outside →
      PriceTracker.Step pa (m.world c.ledger) e w → Step c (.market pa e) (c.putMarket pa w)
  | tick {c now} : c.clock ≤ now → Step c (.tick now) { c with clock := now }
  | outside {c d n c'} : Outside d n c c' → Step c (.outside d n) c'

end Steps

/-- Neither program has an account yet. -/
structure Genesis (c : State V) : Prop where
  authority : c.authority = none
  settings k : c.settings k = none
  markets pa : c.markets pa = none
  auctions v : c.auctions v = none
  bids v k : c.bids v k = none

/-! ## What the vault program leaves alone -/

/-- The vault program signs for none of the accounts in which the two programs keep tokens, and mints nothing. -/
structure Modest (V : VaultProgram T) : Prop where
  combine {ctx price s s' L L'} : V.combine ctx price s L = some (s', L') → ctx.payer.isHolder = false →
    TokenProgram.Protects (fun o : Pubkey => o.isHolder) L L'
  withdraw {ctx n s s' L L'} : V.withdraw ctx n s L = some (s', L') →
    TokenProgram.Protects (fun o : Pubkey => o.isHolder) L L'
  redeemShares {ctx s s' L L'} : V.redeemShares ctx s L = some (s', L') → ctx.redeemer.isHolder = false →
    TokenProgram.Protects (fun o : Pubkey => o.isHolder) L L'

/-! ## Runs that are computed -/

section Replay

variable (misread : TokenInfo → Option Price)

/-- A transaction run, if it works out the amounts of the event. Nothing happens outside. -/
def State.perform (c : State V) : Event → Option (State V)
  | .auction v e => if IsCall e then ((c.around misread v).perform v e).map (c.put v) else none
  | .initializeMarket pa ctx minPrice =>
      if (c.markets pa.key).isNone then
        (ctx.handler pa.key c.ledger minPrice).toOption.map (c.putMarket pa.key)
      else none
  | .market pa e => (c.markets pa).bind fun m =>
      match e with
      | .outside => none
      | e => ((m.world c.ledger).perform pa e).toOption.map (c.putMarket pa)
  | .tick now => if c.clock ≤ now then some { c with clock := now } else none
  | .outside _ _ => none

theorem Step.of_perform {c c' : State V} {e : Event} (h : c.perform misread e = some c') :
    Step misread c e c' := by
  cases e with
  | auction v e =>
      simp only [State.perform, Option.ite_none_right_eq_some, Option.map_eq_some_iff] at h
      obtain ⟨hcall, w, hw, rfl⟩ := h
      exact .auction hcall (.of_perform hw)
  | initializeMarket pa ctx minPrice =>
      simp only [State.perform, Option.ite_none_right_eq_some, Option.map_eq_some_iff] at h
      obtain ⟨hnone, w, hw, rfl⟩ := h
      exact .initializeMarket (Option.isNone_iff_eq_none.mp hnone) (Guard.toOption_some_iff.mp hw)
  | market pa e =>
      simp only [State.perform, Option.bind_eq_some_iff] at h
      obtain ⟨m, hm, h⟩ := h
      split at h
      · cases h
      · rename_i hne
        obtain ⟨w, hw, rfl⟩ := Option.map_eq_some_iff.mp h
        exact .market hm hne (.of_perform (Guard.toOption_some_iff.mp hw))
  | tick now =>
      simp only [State.perform, Option.ite_none_right_eq_some, Option.some.injEq] at h
      obtain ⟨hle, rfl⟩ := h
      exact .tick hle
  | outside d n => cases h

end Replay

end FractionAuction.Chain
