import FractionAuction.AccountFormats
import FractionAuction.AuctionProgram.Lemmas.Governance
import FractionAuction.Chain.System
import FractionAuction.PriceTracker.Lemmas.Effects

/-!
# The accounts of the two programs as they are stored

Each record has an account of its own, and each instruction declares which accounts it makes, changes and closes.
-/

namespace FractionAuction.Chain

open AccountStore AccountStore.Schema Borsh Lts

variable {T : TokenProgram Pubkey} {V : AuctionProgram.VaultProgram T}

/-! ## Places -/

inductive Place where
  | account (k : Pubkey)
  /-- `[b"user", signer, price_account, price_tracker::id()]` -/
  | user (signer priceAccount : Pubkey)
deriving DecidableEq

section Records

variable (address : Pubkey → Bytes 32) (bump : Pubkey → UInt8) (c : State V)

/-- What is stored where. The bump of a derived address is stored in its account. -/
def State.records : Place → Option (Σ t : AccountType, t.Record)
  | .account .authority => c.authority.map fun a => ⟨.authority, a.data address (bump .authority)⟩
  | .account (.auction v) => (c.auctions v).map fun a => ⟨.auction, a.data address (bump (.auction v))⟩
  | .account (.bid b (.auction v)) =>
      (c.bids v b).map fun x => ⟨.bid, x.data address (bump (.bid b (.auction v)))⟩
  | .account (.storeAuthority pa) => (c.markets pa).map fun m => ⟨.tokenInfo, m.tokenInfo.stored address⟩
  | .account (.key n) =>
      match c.settings (.key n) with
      | some s => some ⟨.settings, s⟩
      | none => (c.markets (.key n)).map fun m => ⟨.externalPriceAccount, m.priceAccount.stored address⟩
  | .account (.bid _ _) => none
  | .user u pa => (c.markets pa).bind fun m => (m.users.lookup u).map fun i => ⟨.userInfo, i⟩

end Records

/-! ## Declarations -/

section Declarations

open AuctionProgram

abbrev Declarations := List (Place × Access AccountType)

/-- The accounts of the auction program that an instruction at the vault `v` declares with `init`, `mut` or `close`. -/
def auctionAccesses (v : Pubkey) (auction : Option Auction) : AuctionProgram.Event → Declarations
  | .init _ => [(.account .authority, .init .authority)]
  | .setOwner _ _ => [(.account .authority, .mutable)]
  | .createSettings ctx _ _ _ _ => [(.account .authority, .mutable), (.account ctx.settings, .init .settings)]
  | .start ctx _ _ => [(.account .authority, .mutable), (.account (.auction v), .init .auction),
      (.account (.bid ctx.bidder.key (.auction v)), .init .bid)]
  | .placeBid ctx _ =>
      match auction with
      | none => []
      | some a => [(.account (.auction v), .mutable), (.account (.bid a.topBidder (.auction v)), .mutable),
          (.account (.bid ctx.bidder.key (.auction v)), .init .bid)]
  | .withdrawBid ctx _ => [(.account (.bid ctx.bidder.key (.auction v)), .close)]
  | .endAuction _ _ => [(.account .authority, .mutable), (.account (.auction v), .mutable)]
  | .claim _ _ => [(.account .authority, .mutable), (.account (.auction v), .mutable)]
  | .redeem _ _ _ => [(.account (.auction v), .mutable)]
  | .tick _ | .outside _ => []

/-- The same for the price tracker. -/
def marketAccesses (pa : Pubkey) : PriceTracker.Event → Declarations
  | .initUserInfo ctx => [(.user ctx.signer.key pa, .init .userInfo)]
  | .setMinPrice _ _ => [(.account (.storeAuthority pa), .mutable)]
  | .addVote ctx _ _ => [(.account pa, .mutable), (.user ctx.signer.key pa, .initIfNeeded .userInfo),
      (.account (.storeAuthority pa), .mutable)]
  | .removeVote ctx _ => [(.account pa, .mutable), (.user ctx.signer.key pa, .mutable),
      (.account (.storeAuthority pa), .mutable)]
  | .outside => []

def State.accesses (c : State V) : Event → Declarations
  | .auction v e => auctionAccesses v (c.auctions v) e
  | .initializeMarket pa _ _ => [(.account pa.key, .init .externalPriceAccount),
      (.account (.storeAuthority pa.key), .init .tokenInfo)]
  | .market pa e => marketAccesses pa e
  | .tick _ | .outside _ _ => []

end Declarations

/-- An account without seeds is made at an address that signs, and at which there is no account. -/
def Fresh (c : State V) : Event → Prop
  | .auction _ (.createSettings ctx _ _ _ _) => ctx.settings.isDerived = false ∧ c.markets ctx.settings = none
  | .initializeMarket pa _ _ => c.settings pa.key = none
  | _ => True

instance (c : State V) (e : Event) : Decidable (Fresh c e) := by
  unfold Fresh
  split <;> infer_instance

/-- Settings and price accounts are at addresses of their own. -/
structure Laid (c : State V) : Prop where
  settings {k s} : c.settings k = some s → k.isDerived = false ∧ c.markets k = none
  markets {pa m} : c.markets pa = some m → pa.isDerived = false

theorem Genesis.laid {c : State V} (h : Genesis c) : Laid c where
  settings {k s} hk := by
    rw [h.settings] at hk
    cases hk
  markets {pa m} hm := by
    rw [h.markets] at hm
    cases hm

/-! ## What is declared fits -/

section Fits

variable {discriminator : String → Bytes 8}
  (hnames : Function.Injective fun t : AccountType => discriminator t.name) {t : AccountType} {α : Type}
  {f : α → t.Record} {o o' : Option α} {a a' : α}

theorem fits_init (h : o = none) (h' : o' = some a') :
    (Access.init t).Fits (AccountType.schema hnames) (o.map fun a => ⟨t, f a⟩) (o'.map fun a => ⟨t, f a⟩) := by
  rw [h, h']
  exact ⟨rfl, f a', rfl⟩

theorem fits_mutable (h : o = some a) (h' : o' = some a') :
    Access.mutable.Fits (AccountType.schema hnames) (o.map fun a => ⟨t, f a⟩) (o'.map fun a => ⟨t, f a⟩) := by
  rw [h, h']
  exact ⟨t, f a, f a', rfl, rfl⟩

theorem fits_initIfNeeded (h' : o' = some a') :
    (Access.initIfNeeded t).Fits (AccountType.schema hnames) (o.map fun a => ⟨t, f a⟩)
      (o'.map fun a => ⟨t, f a⟩) := by
  refine ⟨?_, f a', ?_⟩
  · intro x hx
    obtain ⟨a, -, rfl⟩ := Option.map_eq_some_iff.mp hx
    rfl
  · rw [h']
    rfl

theorem fits_close (h : o = some a) (h' : o' = none) :
    Access.close.Fits (AccountType.schema hnames) (o.map fun a => ⟨t, f a⟩) (o'.map fun a => ⟨t, f a⟩) := by
  rw [h, h']
  exact ⟨rfl, rfl⟩

end Fits

/-! ## Calls of the auction program -/

section Auction

open AuctionProgram

variable (address : Pubkey → Bytes 32) (bump : Pubkey → UInt8) {misread : PriceTracker.TokenInfo → Option Price}
  {c : State V} {v : Pubkey} {w : World V}

/-- An instruction at the vault `v` changes what is stored for the owner, the settings and this vault. -/
theorem put_rest {ps : List Place} (hauthority : .account .authority ∉ ps → w.authority = c.authority)
    (hsettings : ∀ n, .account (.key n) ∉ ps → w.settings (.key n) = c.settings (.key n))
    (hauction : .account (.auction v) ∉ ps → w.auction = c.auctions v)
    (hbids : ∀ b, .account (.bid b (.auction v)) ∉ ps → w.bids b = c.bids v b) (p : Place) (hp : p ∉ ps) :
    (c.put v w).records address bump p = c.records address bump p := by
  cases p with
  | user u pa => rfl
  | account k =>
      cases k with
      | key n => simp only [State.records, State.put, hsettings n hp]
      | storeAuthority pa => rfl
      | authority => simp only [State.records, State.put, hauthority hp]
      | auction u =>
          by_cases hu : u = v
          · subst hu
            simp only [State.records, State.put, Function.update_self, hauction hp]
          · simp only [State.records, State.put, Function.update_of_ne hu]
      | bid b k =>
          cases k with
          | auction u =>
              by_cases hu : u = v
              · subst hu
                simp only [State.records, State.put, Function.update_self, hbids b hp]
              · simp only [State.records, State.put, Function.update_of_ne hu]
          | key n => rfl
          | storeAuthority pa => rfl
          | authority => rfl
          | bid b' k' => rfl

theorem records_put_auction : (c.put v w).records address bump (.account (.auction v)) =
    w.auction.map fun a => ⟨.auction, a.data address (bump (.auction v))⟩ := by
  simp only [State.records, State.put, Function.update_self]

theorem records_put_bid (b : Pubkey) : (c.put v w).records address bump (.account (.bid b (.auction v))) =
    (w.bids b).map fun x => ⟨.bid, x.data address (bump (.bid b (.auction v)))⟩ := by
  simp only [State.records, State.put, Function.update_self]

theorem start_authority {w : World V} {r : World V × UInt64} {ctx : Start} {n : UInt64}
    (h : start v w ctx n = .ok r) : ∃ a, w.authority = some a := by
  simp only [start, Start.load, World.loadAuthority, Guard.bind_ok_iff, Guard.okOr_ok_iff] at h
  obtain ⟨_, ⟨a, ha, -⟩, -⟩ := h
  exact ⟨a, ha⟩

theorem claim_authority {w w' : World V} {ctx : Claim} {n : UInt64} (h : claim v w ctx n = .ok w') :
    ∃ a, w.authority = some a := by
  simp only [claim, Claim.load, World.loadAuthority, Guard.bind_ok_iff, Guard.okOr_ok_iff] at h
  obtain ⟨_, ⟨a, ha, -⟩, -⟩ := h
  exact ⟨a, ha⟩

theorem owner_authority {w w' : World V} {ctx : SetAuthority} {k : Pubkey} (h : ctx.handler w k = .ok w') :
    ∃ a, w.authority = some a := by
  simp only [SetAuthority.handler, World.loadAuthority, Guard.bind_ok_iff, Guard.okOr_ok_iff] at h
  obtain ⟨a, ha, -⟩ := h
  exact ⟨a, ha⟩

theorem settings_authority {w w' : World V} {ctx : CreateSettings} {d p i f : UInt64}
    (h : ctx.handler w d p i f = .ok w') : ∃ a, w.authority = some a := by
  simp only [CreateSettings.handler, World.loadAuthority, Guard.bind_ok_iff, Guard.okOr_ok_iff] at h
  obtain ⟨a, ha, -⟩ := h
  exact ⟨a, ha⟩

variable {address bump} {discriminator : String → Bytes 8}
  (hnames : Function.Injective fun t : AccountType => discriminator t.name)

theorem declared_start {ctx : Start} {n r : UInt64} (h : start v (c.around misread v) ctx n = .ok (w, r)) :
    (AccountType.schema hnames).Declared (c.records address bump) ((c.put v w).records address bump)
      (auctionAccesses v (c.auctions v) (.start ctx n r)) := by
  obtain ⟨a, ha⟩ := start_authority h
  obtain ⟨s, vault, L, he, rfl⟩ := start_effect h
  refine ⟨by simp [auctionAccesses], ?_, put_rest address bump (fun _ => rfl) (fun _ _ => rfl) ?_ ?_⟩
  · refine List.forall_mem_cons.mpr ⟨fits_mutable hnames ha ha, List.forall_mem_cons.mpr ⟨?_, ?_⟩⟩
    · rw [records_put_auction]
      exact fits_init hnames he.fresh rfl
    · refine List.forall_mem_singleton.mpr ?_
      rw [records_put_bid]
      exact fits_init hnames he.bidder (Function.update_self _ _ _)
  · intro hp
    simp [auctionAccesses] at hp
  · intro b hb
    have hne : b ≠ ctx.bidder.key := by
      rintro rfl
      simp [auctionAccesses] at hb
    exact Function.update_of_ne hne _ _

theorem declared_placeBid {ctx : PlaceBid} {n : UInt64} (h : placeBid v (c.around misread v) ctx n = .ok w) :
    (AccountType.schema hnames).Declared (c.records address bump) ((c.put v w).records address bump)
      (auctionAccesses v (c.auctions v) (.placeBid ctx n)) := by
  obtain ⟨a, s, top, L, he, rfl⟩ := placeBid_effect h
  have ha : c.auctions v = some a := he.auction
  have hne : a.topBidder ≠ ctx.bidder.key := by
    intro heq
    cases (heq ▸ he.leading).symm.trans he.bidder
  rw [ha, auctionAccesses]
  refine ⟨by simp [hne], ?_, put_rest address bump (fun _ => rfl) (fun _ _ => rfl) ?_ ?_⟩
  · refine List.forall_mem_cons.mpr ⟨?_, List.forall_mem_cons.mpr ⟨?_, List.forall_mem_singleton.mpr ?_⟩⟩
    · rw [records_put_auction]
      exact fits_mutable hnames ha rfl
    · rw [records_put_bid]
      exact fits_mutable hnames he.leading
        ((Function.update_of_ne hne _ _).trans (Function.update_self _ _ _))
    · rw [records_put_bid]
      exact fits_init hnames he.bidder (Function.update_self _ _ _)
  · intro hp
    simp at hp
  · intro b hb
    simp only [List.map_cons, List.map_nil, List.mem_cons, Place.account.injEq, Pubkey.bid.injEq, List.not_mem_nil,
      or_false, reduceCtorEq, and_true, not_or, false_or] at hb
    obtain ⟨htop, hbidder⟩ := hb
    exact (Function.update_of_ne hbidder _ _).trans (Function.update_of_ne htop _ _)

theorem declared_createSettings {ctx : CreateSettings} {d p i f : UInt64}
    (hfresh : ctx.settings.isDerived = false ∧ c.markets ctx.settings = none)
    (h : ctx.handler (c.around misread v) d p i f = .ok w) :
    (AccountType.schema hnames).Declared (c.records address bump) ((c.put v w).records address bump)
      (auctionAccesses v (c.auctions v) (.createSettings ctx d p i f)) := by
  obtain ⟨a, ha⟩ := settings_authority h
  obtain ⟨hnone, -, rfl⟩ := CreateSettings.effect h
  obtain ⟨hderived, hmarket⟩ := hfresh
  obtain ⟨n, hn⟩ : ∃ n, ctx.settings = .key n := by
    cases hk : ctx.settings with
    | key n => exact ⟨n, rfl⟩
    | storeAuthority _ | authority | auction _ | bid _ _ =>
        rw [hk] at hderived
        cases hderived
  rw [hn] at hnone hmarket
  have hsettings : c.settings (.key n) = none := hnone
  rw [auctionAccesses, hn]
  refine ⟨by simp, ?_, put_rest address bump ?_ ?_ ?_ ?_⟩
  · refine List.forall_mem_cons.mpr ⟨fits_mutable hnames ha ha, List.forall_mem_singleton.mpr ⟨?_, ⟨d, p, i, f⟩, ?_⟩⟩
    · simp only [State.records, hsettings, hmarket, Option.map_none]
      rfl
    · simp only [State.records, State.put, Function.update_self]
      rfl
  · intro _
    rfl
  · intro m hm
    have hne : Pubkey.key m ≠ Pubkey.key n := by
      intro heq
      simp [heq] at hm
    exact Function.update_of_ne hne _ _
  · intro _
    rfl
  · intro _ _
    rfl

theorem declared_withdrawBid {ctx : WithdrawBid} {n : UInt64}
    (h : withdrawBid v (c.around misread v) ctx = .ok (w, n)) :
    (AccountType.schema hnames).Declared (c.records address bump) ((c.put v w).records address bump)
      (auctionAccesses v (c.auctions v) (.withdrawBid ctx n)) := by
  obtain ⟨a, b, L, he, rfl⟩ := withdrawBid_effect h
  refine ⟨by simp [auctionAccesses], List.forall_mem_singleton.mpr ?_,
    put_rest address bump (fun _ => rfl) (fun _ _ => rfl) (fun _ => rfl) ?_⟩
  · rw [records_put_bid]
    exact fits_close hnames he.bid (Function.update_self _ _ _)
  · intro l hl
    have hne : l ≠ ctx.bidder.key := by
      rintro rfl
      simp [auctionAccesses] at hl
    exact Function.update_of_ne hne _ _

/-- A call of the auction program declares all it changes. -/
theorem declared_of_call {e : AuctionProgram.Event} (hfresh : Fresh c (.auction v e)) (hcall : IsCall e)
    (h : AuctionProgram.Step v (c.around misread v) e w) :
    (AccountType.schema hnames).Declared (c.records address bump) ((c.put v w).records address bump)
      (auctionAccesses v (c.auctions v) e) := by
  cases h with
  | init hi =>
      have hnone : c.authority = none := by
        simp only [Init.handler, Guard.bind_ok_iff, Guard.ensure_ok_iff, Option.isNone_iff_eq_none] at hi
        exact hi.choose_spec.1
      obtain rfl := Init.effect hi
      refine ⟨by simp [auctionAccesses], List.forall_mem_singleton.mpr (fits_init hnames hnone rfl),
        put_rest address bump ?_ (fun _ _ => rfl) (fun _ => rfl) (fun _ _ => rfl)⟩
      intro hp
      simp [auctionAccesses] at hp
  | setOwner ho =>
      obtain ⟨a, ha⟩ := owner_authority ho
      obtain rfl := SetAuthority.effect ho
      refine ⟨by simp [auctionAccesses], List.forall_mem_singleton.mpr (fits_mutable hnames ha rfl),
        put_rest address bump ?_ (fun _ _ => rfl) (fun _ => rfl) (fun _ _ => rfl)⟩
      intro hp
      simp [auctionAccesses] at hp
  | createSettings hs => exact declared_createSettings hnames hfresh hs
  | start hs => exact declared_start hnames hs
  | placeBid hb => exact declared_placeBid hnames hb
  | withdrawBid hw => exact declared_withdrawBid hnames hw
  | endAuction hend =>
      obtain ⟨a, s, L, he, rfl⟩ := endAuction_effect hend
      obtain ⟨authority, hauthority, -⟩ := he.owner
      refine ⟨by simp [auctionAccesses], List.forall_mem_cons.mpr ⟨fits_mutable hnames hauthority hauthority,
        List.forall_mem_singleton.mpr ?_⟩, put_rest address bump (fun _ => rfl) (fun _ _ => rfl) ?_ (fun _ _ => rfl)⟩
      · rw [records_put_auction]
        exact fits_mutable hnames he.auction rfl
      · intro hp
        simp [auctionAccesses] at hp
  | claim hc =>
      obtain ⟨authority, hauthority⟩ := claim_authority hc
      obtain ⟨a, vault, L, he, rfl⟩ := claim_effect hc
      refine ⟨by simp [auctionAccesses], List.forall_mem_cons.mpr ⟨fits_mutable hnames hauthority hauthority,
        List.forall_mem_singleton.mpr ?_⟩, put_rest address bump (fun _ => rfl) (fun _ _ => rfl) (fun _ => rfl)
          (fun _ _ => rfl)⟩
      rw [records_put_auction]
      exact fits_mutable hnames he.auction he.auction
  | redeem hr =>
      obtain ⟨a, vault, L, he, rfl⟩ := redeem_effect hr
      refine ⟨by simp [auctionAccesses], List.forall_mem_singleton.mpr ?_,
        put_rest address bump (fun _ => rfl) (fun _ _ => rfl) (fun _ => rfl) (fun _ _ => rfl)⟩
      rw [records_put_auction]
      exact fits_mutable hnames he.auction he.auction
  | tick _ | outside _ => exact hcall.elim

end Auction

/-! ## Calls of the price tracker -/

section Market

open PriceTracker

variable (address : Pubkey → Bytes 32) (bump : Pubkey → UInt8) {c : State V} {pa : Pubkey} {m : Market} {w : World T}

/-- An instruction at the price account `pa` changes what is stored for `pa`. -/
theorem putMarket_rest {ps : List Place} (hm : c.markets pa = some m)
    (hprice : .account pa ∉ ps → w.priceAccount = m.priceAccount)
    (hinfo : .account (.storeAuthority pa) ∉ ps → w.tokenInfo = m.tokenInfo)
    (husers : ∀ u, .user u pa ∉ ps → w.users.lookup u = m.users.lookup u) (p : Place) (hp : p ∉ ps) :
    (c.putMarket pa w).records address bump p = c.records address bump p := by
  cases p with
  | user u pa' =>
      by_cases h : pa' = pa
      · subst h
        simp only [State.records, State.putMarket, Function.update_self, hm, Option.bind_some, Market.ofWorld,
          husers u hp]
      · simp only [State.records, State.putMarket, Function.update_of_ne h]
  | account k =>
      cases k with
      | key n =>
          by_cases h : Pubkey.key n = pa
          · subst h
            simp only [State.records, State.putMarket, Function.update_self, hm, Option.map_some, Market.ofWorld,
              hprice hp]
          · simp only [State.records, State.putMarket, Function.update_of_ne h]
      | storeAuthority pa' =>
          by_cases h : pa' = pa
          · subst h
            simp only [State.records, State.putMarket, Function.update_self, hm, Option.map_some, Market.ofWorld,
              hinfo hp]
          · simp only [State.records, State.putMarket, Function.update_of_ne h]
      | authority => rfl
      | auction u => rfl
      | bid b k =>
          cases k with
          | auction u => rfl
          | key n => rfl
          | storeAuthority pa => rfl
          | authority => rfl
          | bid b' k' => rfl

theorem records_price {n : ℕ} (hm : c.markets (.key n) = some m) (hsettings : c.settings (.key n) = none) :
    c.records address bump (.account (.key n)) = some ⟨.externalPriceAccount, m.priceAccount.stored address⟩ := by
  rw [State.records, hsettings, hm]
  rfl

theorem records_info (hm : c.markets pa = some m) :
    c.records address bump (.account (.storeAuthority pa)) = some ⟨.tokenInfo, m.tokenInfo.stored address⟩ := by
  rw [State.records, hm]
  rfl

theorem records_user (hm : c.markets pa = some m) (u : Pubkey) :
    c.records address bump (.user u pa) = (m.users.lookup u).map fun i => ⟨.userInfo, i⟩ := by
  rw [State.records, hm]
  rfl

theorem markets_putMarket : (c.putMarket pa w).markets pa = some (Market.ofWorld w) := Function.update_self _ _ _

variable {address bump} {discriminator : String → Bytes 8}
  (hnames : Function.Injective fun t : AccountType => discriminator t.name)

theorem fits_price {n : ℕ} (hm : c.markets (.key n) = some m) (hsettings : c.settings (.key n) = none) :
    Access.mutable.Fits (AccountType.schema hnames) (c.records address bump (.account (.key n)))
      ((c.putMarket (.key n) w).records address bump (.account (.key n))) :=
  ⟨.externalPriceAccount, _, _, records_price address bump hm hsettings,
    records_price address bump markets_putMarket hsettings⟩

theorem fits_info (hm : c.markets pa = some m) :
    Access.mutable.Fits (AccountType.schema hnames) (c.records address bump (.account (.storeAuthority pa)))
      ((c.putMarket pa w).records address bump (.account (.storeAuthority pa))) :=
  ⟨.tokenInfo, _, _, records_info address bump hm, records_info address bump markets_putMarket⟩

theorem Laid.free (hl : Laid c) (hm : c.markets pa = some m) : ∃ n, pa = .key n ∧ c.settings pa = none := by
  have hderived := hl.markets hm
  have hsettings : c.settings pa = none := by
    cases hs : c.settings pa with
    | none => rfl
    | some s =>
        rw [(hl.settings hs).2] at hm
        cases hm
  cases pa with
  | key n => exact ⟨n, rfl, hsettings⟩
  | storeAuthority _ | authority | auction _ | bid _ _ => cases hderived

theorem declared_of_vote {e : PriceTracker.Event} (hl : Laid c) (hm : c.markets pa = some m) (hne : e ≠ .outside)
    (h : PriceTracker.Step pa (m.world c.ledger) e w) :
    (AccountType.schema hnames).Declared (c.records address bump) ((c.putMarket pa w).records address bump)
      (marketAccesses pa e) := by
  obtain ⟨n, rfl, hsettings⟩ := hl.free hm
  cases h with
  | outside _ => exact (hne rfl).elim
  | setMinPrice hs =>
      obtain ⟨-, rfl⟩ := SetMinPrice.effect hs
      refine ⟨by simp [marketAccesses], List.forall_mem_singleton.mpr (fits_info hnames hm),
        putMarket_rest address bump hm (fun _ => rfl) ?_ (fun _ _ => rfl)⟩
      intro hp
      simp [marketAccesses] at hp
  | initUserInfo hi =>
      obtain ⟨hnone, rfl⟩ := InitUserInfo.effect hi
      refine ⟨by simp [marketAccesses], List.forall_mem_singleton.mpr ?_,
        putMarket_rest address bump hm (fun _ => rfl) (fun _ => rfl) ?_⟩
      · rw [records_user address bump hm, records_user address bump markets_putMarket]
        exact fits_init hnames hnone (AList.lookup_insert _)
      · intro u hu
        refine AList.lookup_insert_ne ?_
        rintro rfl
        simp [marketAccesses] at hu
  | addVote ha =>
      have he := addVote_effect ha
      refine ⟨by simp [marketAccesses], ?_, putMarket_rest address bump hm ?_ ?_ ?_⟩
      · refine List.forall_mem_cons.mpr ⟨fits_price hnames hm hsettings, List.forall_mem_cons.mpr ⟨?_,
          List.forall_mem_singleton.mpr (fits_info hnames hm)⟩⟩
        rw [records_user address bump hm, records_user address bump markets_putMarket, Market.ofWorld, he.users]
        exact fits_initIfNeeded hnames (AList.lookup_insert _)
      · intro hp
        simp [marketAccesses] at hp
      · intro hp
        simp [marketAccesses] at hp
      · intro u hu
        rw [he.users]
        refine AList.lookup_insert_ne ?_
        rintro rfl
        simp [marketAccesses] at hu
  | removeVote hr =>
      have he := removeVote_effect hr
      refine ⟨by simp [marketAccesses], ?_, putMarket_rest address bump hm ?_ ?_ ?_⟩
      · refine List.forall_mem_cons.mpr ⟨fits_price hnames hm hsettings, List.forall_mem_cons.mpr ⟨?_,
          List.forall_mem_singleton.mpr (fits_info hnames hm)⟩⟩
        rw [records_user address bump hm, records_user address bump markets_putMarket, Market.ofWorld, he.users]
        exact fits_mutable hnames he.user (AList.lookup_insert _)
      · intro hp
        simp [marketAccesses] at hp
      · intro hp
        simp [marketAccesses] at hp
      · intro u hu
        rw [he.users]
        refine AList.lookup_insert_ne ?_
        rintro rfl
        simp [marketAccesses] at hu

theorem declared_initializeMarket {s : Signer} {ctx : Initialize} {minPrice : UInt64}
    (hfresh : c.settings s.key = none) (hm : c.markets s.key = none)
    (h : Initialize.handler s.key c.ledger ctx minPrice = .ok w) :
    (AccountType.schema hnames).Declared (c.records address bump) ((c.putMarket s.key w).records address bump)
      (c.accesses (.initializeMarket s ctx minPrice)) := by
  have hempty : w.users = ∅ := (Initial.elim ⟨_, _, _, h⟩).choose_spec.choose_spec.choose_spec.2.2.2
  obtain ⟨n, hn⟩ : ∃ n, s.key = .key n := by
    have hderived := s.signed
    cases hk : s.key with
    | key n => exact ⟨n, rfl⟩
    | storeAuthority _ | authority | auction _ | bid _ _ =>
        rw [hk] at hderived
        cases hderived
  rw [State.accesses, hn]
  rw [hn] at hfresh hm
  refine ⟨by simp, List.forall_mem_cons.mpr ⟨⟨?_, _, records_price address bump markets_putMarket hfresh⟩,
    List.forall_mem_singleton.mpr ⟨?_, _, records_info address bump markets_putMarket⟩⟩, ?_⟩
  · simp only [State.records, hfresh, hm, Option.map_none]
    rfl
  · simp only [State.records, hm, Option.map_none]
    rfl
  · intro p hp
    cases p with
    | user u pa =>
        by_cases hpa : pa = .key n
        · subst hpa
          rw [records_user address bump markets_putMarket, Market.ofWorld, hempty, State.records, hm]
          rfl
        · simp only [State.records, State.putMarket, Function.update_of_ne hpa]
          rfl
    | account k =>
        simp only [List.map_cons, List.map_nil, List.mem_cons, Place.account.injEq, List.not_mem_nil, or_false,
          not_or] at hp
        obtain ⟨hprice, hinfo⟩ := hp
        cases k with
        | key i =>
            simp only [State.records, State.putMarket, Function.update_of_ne hprice]
            rfl
        | storeAuthority pa =>
            have hpa : pa ≠ .key n := fun heq => hinfo (congrArg Pubkey.storeAuthority heq)
            simp only [State.records, State.putMarket, Function.update_of_ne hpa]
            rfl
        | authority => rfl
        | auction u => rfl
        | bid b k =>
            cases k with
            | auction u => rfl
            | key i => rfl
            | storeAuthority pa => rfl
            | authority => rfl
            | bid b' k' => rfl

end Market

/-! ## Transactions -/

section Transactions

variable {address : Pubkey → Bytes 32} {bump : Pubkey → UInt8}
  {misread : PriceTracker.TokenInfo → Option AuctionProgram.Price} {discriminator : String → Bytes 8}
  (hnames : Function.Injective fun t : AccountType => discriminator t.name) {c c' : State V} {e : Event}

theorem records_outside {deposits minted : Pubkey → ℕ} (h : Outside deposits minted c c') :
    c'.records address bump = c.records address bump := by
  funext p
  cases p with
  | user u pa => simp only [State.records, h.markets]
  | account k =>
      cases k with
      | key n => simp only [State.records, h.settings, h.markets]
      | storeAuthority pa => simp only [State.records, h.markets]
      | authority => simp only [State.records, h.authority]
      | auction u => simp only [State.records, h.auctions]
      | bid b k =>
          cases k with
          | auction u => simp only [State.records, h.bids]
          | key n => rfl
          | storeAuthority pa => rfl
          | authority => rfl
          | bid b' k' => rfl

/-- Every transaction declares all it changes. -/
theorem Step.declared (hl : Laid c) (h : restrict (Step misread) Fresh c e c') :
    (AccountType.schema hnames).Declared (c.records address bump) (c'.records address bump) (c.accesses e) := by
  obtain ⟨hstep, hfresh⟩ := h
  cases hstep with
  | auction hcall hs => exact declared_of_call hnames hfresh hcall hs
  | initializeMarket hm hi => exact declared_initializeMarket hnames hfresh hm hi
  | market hm hne hs => exact declared_of_vote hnames hl hm hne hs
  | tick _ => exact ⟨List.nodup_nil, fun _ hx => (List.not_mem_nil hx).elim, fun _ _ => rfl⟩
  | outside ho => exact ⟨List.nodup_nil, fun _ hx => (List.not_mem_nil hx).elim,
      fun _ _ => congrFun (records_outside ho) _⟩

theorem settings_of_call {v : Pubkey} {w : AuctionProgram.World V} {e : AuctionProgram.Event}
    (hfresh : Fresh c (.auction v e)) (h : AuctionProgram.Step v (c.around misread v) e w) {k : Pubkey}
    {s : AuctionProgram.Settings} (hs : w.settings k = some s) :
    c.settings k = some s ∨ k.isDerived = false ∧ c.markets k = none := by
  rcases (h.settings k s).mp hs with hold | hnew
  · exact .inl hold
  · cases h with
    | createSettings _ =>
        obtain ⟨rfl, -⟩ := hnew
        exact .inr hfresh
    | init _ | setOwner _ | start _ | placeBid _ | withdrawBid _ | endAuction _ | claim _ | redeem _ | tick _
    | outside _ => exact hnew.elim

theorem Laid.step (hl : Laid c) (h : restrict (Step misread) Fresh c e c') : Laid c' := by
  obtain ⟨hstep, hfresh⟩ := h
  cases hstep with
  | auction hcall hs =>
      refine ⟨fun hk => ?_, hl.markets⟩
      rcases settings_of_call hfresh hs hk with hold | hnew
      · exact hl.settings hold
      · exact hnew
  | initializeMarket hm hi =>
      refine ⟨fun {k _} hk => ?_, fun {k _} hm' => ?_⟩
      · obtain ⟨hderived, hfree⟩ := hl.settings hk
        refine ⟨hderived, (Function.update_of_ne ?_ _ _).trans hfree⟩
        rintro rfl
        cases hk.symm.trans hfresh
      · rcases AuctionProgram.update_eq_some.mp hm' with ⟨rfl, -⟩ | ⟨-, hold⟩
        · exact Signer.signed _
        · exact hl.markets hold
  | market hm hne hs =>
      refine ⟨fun {k _} hk => ?_, fun {k _} hm' => ?_⟩
      · obtain ⟨hderived, hfree⟩ := hl.settings hk
        refine ⟨hderived, (Function.update_of_ne ?_ _ _).trans hfree⟩
        rintro rfl
        cases hm.symm.trans hfree
      · rcases AuctionProgram.update_eq_some.mp hm' with ⟨rfl, -⟩ | ⟨-, hold⟩
        · exact hl.markets hm
        · exact hl.markets hold
  | tick _ => exact ⟨hl.settings, hl.markets⟩
  | outside ho => exact ⟨fun hk => ho.markets ▸ hl.settings (ho.settings ▸ hk), fun hm => hl.markets (ho.markets ▸ hm)⟩

theorem Genesis.records (h : Genesis c) (p : Place) : c.records address bump p = none := by
  cases p with
  | user u pa => rw [State.records, h.markets, Option.bind_none]
  | account k =>
      cases k with
      | key n => rw [State.records, h.settings, h.markets]; rfl
      | storeAuthority pa => rw [State.records, h.markets, Option.map_none]
      | authority => rw [State.records, h.authority, Option.map_none]
      | auction u => rw [State.records, h.auctions, Option.map_none]
      | bid b k =>
          cases k with
          | auction u => rw [State.records, h.bids, Option.map_none]
          | key n => rfl
          | storeAuthority pa => rfl
          | authority => rfl
          | bid b' k' => rfl

theorem Genesis.encode (h : Genesis c) :
    (AccountType.schema hnames).encode (c.records address bump) = fun _ => none := by
  funext p
  exact Option.map_eq_none_iff.mpr (h.records p)

variable (address bump misread)

/-- The chain with its accounts kept in bytes. -/
abbrev StoredStep : State V × Store Place → Event → State V × Store Place → Prop :=
  (AccountType.schema hnames).Stored (State.records address bump) State.accesses (restrict (Step misread) Fresh)

variable {address bump misread} {es : List Event}

theorem run_is_stored (hl : Laid c) (h : Run (restrict (Step misread) Fresh) c es c') :
    Run (StoredStep address bump misread hnames) (c, (AccountType.schema hnames).encode (c.records address bump)) es
      (c', (AccountType.schema hnames).encode (c'.records address bump)) :=
  stored_of_run (fun _ _ _ hl hstep => hl.step hstep) (fun _ _ _ hl hstep => Step.declared hnames hl hstep) hl h

theorem store_of_run {s s' : Store Place} (hl : Laid c)
    (hs : s = (AccountType.schema hnames).encode (c.records address bump))
    (h : Run (StoredStep address bump misread hnames) (c, s) es (c', s')) :
    s' = (AccountType.schema hnames).encode (c'.records address bump) := by
  refine encode_of_stored (d := (c', s')) ?_ ?_ hl hs h
  · exact fun _ _ _ hl hstep => hl.step hstep
  · exact fun _ _ _ hl hstep => Step.declared hnames hl hstep

end Transactions

end FractionAuction.Chain
