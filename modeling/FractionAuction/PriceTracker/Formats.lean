import FractionAuction.Library.Codec
import FractionAuction.PriceTracker.Encoding

/-!
# How the price tracker stores its accounts

The records with an address as its bytes. What `Encoding` writes is what is written here.
-/

namespace FractionAuction.PriceTracker

open Borsh

variable (address : Pubkey → Bytes 32)

/-! ## TokenInfo -/

structure TokenInfoData where
  reserveTotal : UInt64
  totalVotes : UInt64
  minPrice : UInt64
  mint : Bytes 32
  store : Bytes 32
  lockedMint : Bytes 32
  authority : Bytes 32
deriving DecidableEq

def TokenInfoData.codec : Codec TokenInfoData :=
  (Codec.word.both <| Codec.word.both <| Codec.word.both <| (Codec.bytes 32).both <| (Codec.bytes 32).both <|
    (Codec.bytes 32).both (Codec.bytes 32)).map {
    toFun := fun (reserve, votes, price, mint, store, locked, authority) =>
      ⟨reserve, votes, price, mint, store, locked, authority⟩
    invFun := fun d => (d.reserveTotal, d.totalVotes, d.minPrice, d.mint, d.store, d.lockedMint, d.authority) }

def TokenInfoData.space : ℕ := 24 + 32 + 32 + 32 + 32

theorem TokenInfoData.sized : codec.Sized space :=
  (Codec.sized_word.both <| Codec.sized_word.both <| Codec.sized_word.both <| (Codec.sized_bytes 32).both <|
    (Codec.sized_bytes 32).both <| (Codec.sized_bytes 32).both (Codec.sized_bytes 32)).map _

def TokenInfo.stored (i : TokenInfo) : TokenInfoData :=
  ⟨i.reserveTotal, i.totalVotes, i.minPrice, address i.mint, address i.store, address i.lockedMint,
    address i.authority⟩

theorem TokenInfo.serialize_eq (i : TokenInfo) : i.serialize address = TokenInfoData.codec.write (i.stored address) :=
  rfl

/-! ## UserInfo -/

def UserInfo.codec : Codec UserInfo :=
  (Codec.word.both Codec.word).map {
    toFun := fun (price, votes) => ⟨price, votes⟩
    invFun := fun i => (i.price, i.votes) }

def UserInfo.space : ℕ := 16

theorem UserInfo.sized : codec.Sized space := (Codec.sized_word.both Codec.sized_word).map _

theorem UserInfo.serialize_eq (i : UserInfo) : i.serialize = codec.write i := rfl

/-! ## ExternalPriceAccount -/

structure PriceAccountData where
  key : UInt8
  pricePerShare : UInt64
  priceMint : Bytes 32
  allowedToCombine : Bool
deriving DecidableEq

def PriceAccountData.codec : Codec PriceAccountData :=
  (Codec.byte.both <| Codec.word.both <| (Codec.bytes 32).both Codec.flag).map {
    toFun := fun (key, price, mint, allowed) => ⟨key, price, mint, allowed⟩
    invFun := fun d => (d.key, d.pricePerShare, d.priceMint, d.allowedToCombine) }

def PriceAccountData.space : ℕ := 42

theorem PriceAccountData.sized : codec.Sized space :=
  (Codec.sized_byte.both <| Codec.sized_word.both <| (Codec.sized_bytes 32).both Codec.sized_flag).map _

def ExternalPriceAccount.stored (p : ExternalPriceAccount) : PriceAccountData :=
  ⟨p.key, p.pricePerShare, address p.priceMint, p.allowedToCombine⟩

theorem ExternalPriceAccount.serialize_eq (p : ExternalPriceAccount) :
    p.serialize address = PriceAccountData.codec.write (p.stored address) := by
  rw [serialize, ← Codec.write_flag]
  rfl

end FractionAuction.PriceTracker
