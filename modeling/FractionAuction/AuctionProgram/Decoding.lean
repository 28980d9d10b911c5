import FractionAuction.AuctionProgram.Vault
import FractionAuction.Library.Borsh

/-!
# The decoder for price accounts

`Price` as the auction program reads it from the data of an account. The discriminator and the key are read and not
looked at.
-/

namespace FractionAuction.AuctionProgram

open Borsh

inductive Key where
  | uninitialized
  | safetyDepositBoxV1
  | externalAccountKeyV1
  | vaultV1
deriving DecidableEq

def Key.variants : List Key := [uninitialized, safetyDepositBoxV1, externalAccountKeyV1, vaultV1]

/-- `Price` with all its fields; an address is its bytes. -/
structure PriceData where
  discriminator : UInt64
  key : Key
  pricePerShare : UInt64
  priceMint : Bytes 32
  allowedToCombine : Bool
deriving DecidableEq

namespace PriceData

def deserialize : Reader PriceData := do
  let discriminator ← readWord
  let key ← readVariant Key.variants
  let pricePerShare ← readWord
  let priceMint ← readBytes 32
  let allowedToCombine ← readFlag
  return { discriminator, key, pricePerShare, priceMint, allowedToCombine }

def tryDeserializeUnchecked (buf : List UInt8) : Option PriceData := tryFromSliceUnchecked deserialize buf

def tryDeserialize (buf : List UInt8) : Option PriceData := tryDeserializeUnchecked buf

/-- Any eight bytes, a key, and the fields of a price. -/
theorem tryDeserialize_append {discriminator : Bytes 8} {tag : UInt8} {key : Key} {price : UInt64} {mint : Bytes 32}
    {allowed : Bool} {rest : List UInt8} (hkey : Key.variants[tag.toNat]? = some key) :
    tryDeserialize (discriminator.toList ++ (tag :: ((word price).toList ++ (mint.toList ++ (flag allowed :: rest))))) =
      some ⟨ofWord discriminator, key, price, mint, allowed⟩ := by
  unfold tryDeserialize tryDeserializeUnchecked tryFromSliceUnchecked deserialize
  simp only [StateT.run_bind, readWord_bytes, ofWord_word, readVariant_cons hkey, readBytes_append, readFlag_cons,
    Option.bind_eq_bind, Option.bind_some]
  rfl

/-- Fifty bytes are read. Only the key and the last byte can be out of range. -/
theorem tryDeserialize_isSome_iff (buf : List UInt8) : (tryDeserialize buf).isSome ↔
    (∃ tag, buf[8]? = some tag ∧ tag.toNat < 4) ∧ ∃ b, buf[49]? = some b ∧ b.toNat < 2 := by
  have htakes := takes_word.bind fun discriminator => (takes_variant Key.variants).bind fun key =>
    takes_word.bind fun price => (takes_bytes 32).bind fun mint => takes_flag.bind fun allowed =>
      Takes.pure (PriceData.mk discriminator key price mint allowed)
  refine (htakes.unchecked buf).trans ?_
  simp only [List.length_drop, List.getElem?_drop, List.drop_drop]
  constructor
  · rintro ⟨-, hkey, -, -, hflag, -⟩
    exact ⟨hkey, hflag⟩
  · rintro ⟨hkey, b, hb, hlt⟩
    obtain ⟨hlength, -⟩ := List.getElem?_eq_some_iff.mp hb
    exact ⟨by omega, hkey, by omega, by omega, ⟨b, hb, hlt⟩, trivial⟩

end PriceData

end FractionAuction.AuctionProgram
