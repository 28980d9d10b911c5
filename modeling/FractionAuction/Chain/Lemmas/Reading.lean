import FractionAuction.AuctionProgram.VaultInterface
import FractionAuction.Chain.Lemmas.Storage

/-!
# Prices are read from bytes

The auction program decodes what the price tracker has stored. What a vault sees as prices is what it finds there.
-/

namespace FractionAuction

open AuctionProgram Borsh Lts

/-- The accounts of the price tracker, which pass for `Price` by their owner. -/
def AccountType.isTracked : AccountType → Bool
  | .tokenInfo | .userInfo | .externalPriceAccount => true
  | .auction | .bid | .authority | .settings => false

namespace Chain

open AccountStore AccountStore.Schema

variable {T : TokenProgram Pubkey} {V : VaultProgram T}

/-! ## Decoding -/

section Decoding

variable (address : Pubkey → Bytes 32) (discriminator : String → Bytes 8) (pubkey : Bytes 32 → Pubkey)

/-- What the auction program reads of the data of an account. -/
def readPrice (data : List UInt8) : Option Price := (PriceData.tryDeserialize data).map (PriceData.price pubkey)

/-- What it reads of a `TokenInfo`. -/
def readTokenInfo (i : PriceTracker.TokenInfo) : Option Price :=
  readPrice pubkey ((PriceTracker.Account.tokenInfo i).data address discriminator)

/-- An account passes for `Price` if the price tracker owns it. -/
def State.readPrices (bump : Pubkey → UInt8) (c : State V) (s : Store Place) (p : Place) : Option Price :=
  (c.records address bump p).bind fun x => if x.1.isTracked then (s p).bind (readPrice pubkey) else none

variable {address discriminator pubkey}

theorem readPrice_userInfo (i : PriceTracker.UserInfo) :
    readPrice pubkey ((PriceTracker.Account.userInfo i).data address discriminator) = none := by
  have hrefused : ¬ (PriceData.tryDeserialize ((PriceTracker.Account.userInfo i).data address discriminator)).isSome :=
    userInfo_refused i
  rw [readPrice, Option.not_isSome_iff_eq_none.mp hrefused, Option.map_none]

theorem readPrice_account {p : PriceTracker.ExternalPriceAccount} (hkey : p.key = 0)
    (hmint : pubkey (address p.priceMint) = p.priceMint) :
    readPrice pubkey ((PriceTracker.Account.externalPriceAccount p).data address discriminator) =
      some ⟨p.pricePerShare, p.priceMint, p.allowedToCombine⟩ := by
  have hreads : ReadsExactly address discriminator (.externalPriceAccount p) := priceAccount_reads hkey
  obtain ⟨d, hd, hprice, haddress, hallowed⟩ := hreads.fields p rfl
  rw [readPrice, hd, Option.map_some, PriceData.price, hprice, haddress, hmint, hallowed]

end Decoding

/-! ## What was recorded of a price account -/

section Recorded

variable {address : Pubkey → Bytes 32} {pubkey : Bytes 32 → Pubkey}
  {misread : PriceTracker.TokenInfo → Option Price} {c₀ c c' : State V} {e : Event} {es : List Event}

/-- The mint that a new price account names is read back from its bytes. -/
def Event.Names (address : Pubkey → Bytes 32) (pubkey : Bytes 32 → Pubkey) : Event → Prop
  | .initializeMarket _ ctx _ => pubkey (address ctx.redeemMint) = ctx.redeemMint
  | _ => True

instance (e : Event) : Decidable (e.Names address pubkey) :=
  match e with
  | .initializeMarket _ ctx _ => inferInstanceAs (Decidable (pubkey (address ctx.redeemMint) = ctx.redeemMint))
  | .auction _ _ | .market _ _ | .tick _ | .outside _ _ => inferInstanceAs (Decidable True)

/-- Every price account has the key and the mint that it was made with. -/
structure Recorded (address : Pubkey → Bytes 32) (pubkey : Bytes 32 → Pubkey) (c : State V) : Prop where
  key {pa m} : c.markets pa = some m → m.priceAccount.key = 0
  mint {pa m} : c.markets pa = some m → pubkey (address m.priceAccount.priceMint) = m.priceAccount.priceMint

theorem Genesis.recorded (h : Genesis c) : Recorded address pubkey c := by
  constructor
  all_goals
    intro pa m hm
    cases (h.markets pa).symm.trans hm

theorem Recorded.put {w : PriceTracker.World T} {p : Pubkey} (hr : Recorded address pubkey c)
    (hkey : w.priceAccount.key = 0) (hmint : pubkey (address w.priceAccount.priceMint) = w.priceAccount.priceMint) :
    Recorded address pubkey (c.putMarket p w) := by
  constructor
  all_goals
    intro pa m hm
    rcases AuctionProgram.update_eq_some.mp hm with ⟨-, hnew⟩ | ⟨-, hold⟩
  · obtain rfl := Option.some.inj hnew
    exact hkey
  · exact hr.key hold
  · obtain rfl := Option.some.inj hnew
    exact hmint
  · exact hr.mint hold

theorem Recorded.step (hr : Recorded address pubkey c) (h : Step misread c e c') (he : e.Names address pubkey) :
    Recorded address pubkey c' := by
  cases h with
  | auction _ _ | tick _ => exact ⟨hr.key, hr.mint⟩
  | outside ho => exact ⟨fun hm => hr.key (ho.markets ▸ hm), fun hm => hr.mint (ho.markets ▸ hm)⟩
  | initializeMarket _ hi =>
      simp only [PriceTracker.Initialize.handler, Guard.bind_ok_iff, Guard.okOr_ok_iff, Guard.pure_ok_iff] at hi
      obtain ⟨_, _, _, _, _, _, _, _, rfl⟩ := hi
      exact hr.put rfl he
  | market hm _ hs =>
      obtain ⟨hkey, hmint⟩ := hs.price_frame
      exact hr.put (hkey.trans (hr.key hm)) (hmint ▸ hr.mint hm)

theorem Recorded.run (hr : Recorded address pubkey c₀) (h : Run (Step misread) c₀ es c)
    (hes : ∀ e ∈ es, e.Names address pubkey) : Recorded address pubkey c := by
  induction h with
  | nil => exact hr
  | snoc _ hstep ih =>
      rw [List.forall_mem_append] at hes
      exact (ih hes.1).step hstep (hes.2 _ (List.mem_singleton_self _))

end Recorded

/-! ## What is stored -/

section Stored

variable {address : Pubkey → Bytes 32} {bump : Pubkey → UInt8} {discriminator : String → Bytes 8}
  {pubkey : Bytes 32 → Pubkey} (hnames : Function.Injective fun t : AccountType => discriminator t.name)
  {c : State V} {p : Place} {m : Market} {pa : Pubkey}

theorem write_priceAccount (a : PriceTracker.ExternalPriceAccount) :
    (AccountType.schema hnames).write ⟨.externalPriceAccount, a.stored address⟩ =
      (PriceTracker.Account.externalPriceAccount a).data address discriminator := by
  rw [PriceTracker.Account.data, PriceTracker.ExternalPriceAccount.serialize_eq]
  rfl

theorem readPrices_of_none (h : c.records address bump p = none) (s : Store Place) :
    c.readPrices address pubkey bump s p = none := by
  rw [State.readPrices, h, Option.bind_none]

/-- The accounts of the auction program do not pass. -/
theorem readPrices_of_foreign {t : AccountType} {α : Type} {o : Option α} {f : α → t.Record}
    (h : c.records address bump p = o.map fun a => ⟨t, f a⟩) (ht : t.isTracked = false) (s : Store Place) :
    c.readPrices address pubkey bump s p = none := by
  rw [State.readPrices, h]
  cases o with
  | none => rfl
  | some a => rw [Option.map_some, Option.bind_some, if_neg (by rw [ht]; exact Bool.false_ne_true)]

theorem readPrices_of_tracked {x : Σ t : AccountType, t.Record} (h : c.records address bump p = some x)
    (hx : x.1.isTracked = true) : c.readPrices address pubkey bump
      ((AccountType.schema hnames).encode (c.records address bump)) p =
        readPrice pubkey ((AccountType.schema hnames).write x) := by
  have hdata : (AccountType.schema hnames).encode (c.records address bump) p =
      some ((AccountType.schema hnames).write x) := congrArg (Option.map _) h
  rw [State.readPrices, h, Option.bind_some, if_pos hx, hdata, Option.bind_some]

theorem prices_of_market {misread : PriceTracker.TokenInfo → Option Price} {k : Pubkey}
    (hk : ∀ pa, k ≠ .storeAuthority pa) : c.prices misread k = (c.markets k).map Market.price := by
  cases k with
  | storeAuthority pa => exact (hk pa rfl).elim
  | key _ | authority | auction _ | bid _ _ => rfl

theorem Laid.not_market (hl : Laid c) (hpa : pa.isDerived = true) : c.markets pa = none := by
  cases hm : c.markets pa with
  | none => rfl
  | some m => exact absurd (hpa.symm.trans (hl.markets hm)) (by decide)

/-- What is read at an address is the price there. -/
theorem readPrices_eq (hl : Laid c) (hr : Recorded address pubkey c) (k : Pubkey) :
    c.readPrices address pubkey bump ((AccountType.schema hnames).encode (c.records address bump)) (.account k) =
      c.prices (readTokenInfo address discriminator pubkey) k := by
  cases k with
  | key n =>
      cases hm : c.markets (.key n) with
      | none =>
          rw [prices_of_market (by simp), hm, Option.map_none]
          cases hs : c.settings (.key n) with
          | none => exact readPrices_of_none (by simp only [State.records, hs, hm, Option.map_none]) _
          | some s =>
              have hrecord : c.records address bump (.account (.key n)) = (some s).map fun s => ⟨.settings, s⟩ := by
                simp only [State.records, hs, Option.map_some]
              exact readPrices_of_foreign hrecord rfl _
      | some m =>
          have hs : c.settings (.key n) = none := by
            cases hs : c.settings (.key n) with
            | none => rfl
            | some s => cases hm.symm.trans (hl.settings hs).2
          rw [readPrices_of_tracked hnames (records_price address bump hm hs) rfl, prices_of_market (by simp), hm,
            Option.map_some, Market.price]
          exact (congrArg _ (write_priceAccount hnames _)).trans (readPrice_account (hr.key hm) (hr.mint hm))
  | storeAuthority pa =>
      cases hm : c.markets pa with
      | none =>
          rw [readPrices_of_none (by rw [State.records, hm, Option.map_none]), State.prices, hm, Option.bind_none]
      | some m =>
          rw [readPrices_of_tracked hnames (records_info address bump hm) rfl, State.prices, hm, Option.bind_some]
          rfl
  | authority =>
      rw [prices_of_market (by simp), hl.not_market rfl, Option.map_none]
      exact readPrices_of_foreign rfl rfl _
  | auction v =>
      rw [prices_of_market (by simp), hl.not_market rfl, Option.map_none]
      exact readPrices_of_foreign rfl rfl _
  | bid b k =>
      rw [prices_of_market (by simp), hl.not_market rfl, Option.map_none]
      cases k with
      | auction v => exact readPrices_of_foreign rfl rfl _
      | key n => exact readPrices_of_none rfl _
      | storeAuthority pa => exact readPrices_of_none rfl _
      | authority => exact readPrices_of_none rfl _
      | bid b' k' => exact readPrices_of_none rfl _

/-- The record of a voter is too short for a price. -/
theorem readPrices_user (u pa : Pubkey) : c.readPrices address pubkey bump
    ((AccountType.schema hnames).encode (c.records address bump)) (.user u pa) = none := by
  cases hrecord : c.records address bump (.user u pa) with
  | none => exact readPrices_of_none hrecord _
  | some x =>
      obtain ⟨m, -, hx⟩ := Option.bind_eq_some_iff.mp hrecord
      obtain ⟨i, -, rfl⟩ := Option.map_eq_some_iff.mp hx
      have hread : readPrice pubkey ((PriceTracker.Account.userInfo i).data address discriminator) = none :=
        readPrice_userInfo i
      exact (readPrices_of_tracked hnames hrecord rfl).trans hread

end Stored

end Chain

end FractionAuction
