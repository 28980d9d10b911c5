import FractionAuction.Library.Borsh
import FractionAuction.PriceTracker.Lemmas.Effects

/-!
# The data of the accounts

Every account of the program is stored as the discriminator of its type and its fields. How an address is written in
bytes, and which bytes stand for the name of a type, is left open.
-/

namespace FractionAuction.PriceTracker

open Borsh Lts

variable (address : Pubkey → Bytes 32) (discriminator : String → Bytes 8)

/-! ## Serialization -/

def TokenInfo.serialize (i : TokenInfo) : List UInt8 :=
  (word i.reserveTotal).toList ++ ((word i.totalVotes).toList ++ ((word i.minPrice).toList ++
    ((address i.mint).toList ++ ((address i.store).toList ++ ((address i.lockedMint).toList ++
      (address i.authority).toList)))))

def UserInfo.serialize (i : UserInfo) : List UInt8 := (word i.price).toList ++ (word i.votes).toList

def ExternalPriceAccount.serialize (p : ExternalPriceAccount) : List UInt8 :=
  p.key :: ((word p.pricePerShare).toList ++ ((address p.priceMint).toList ++ [flag p.allowedToCombine]))

/-! ## Accounts -/

inductive Account where
  | tokenInfo (i : TokenInfo)
  | userInfo (i : UserInfo)
  | externalPriceAccount (p : ExternalPriceAccount)

def Account.data : Account → List UInt8
  | .tokenInfo i => (discriminator "TokenInfo").toList ++ i.serialize address
  | .userInfo i => (discriminator "UserInfo").toList ++ i.serialize
  | .externalPriceAccount p => (discriminator "ExternalPriceAccount").toList ++ p.serialize address

variable {T : TokenProgram Pubkey} {pa : Pubkey} {w₀ w w' : World T} {es : List Event}

/-- The program holds the account in `w`. -/
def World.Holds (w : World T) : Account → Prop
  | .tokenInfo i => w.tokenInfo = i
  | .userInfo i => ∃ u, w.users.lookup u = some i
  | .externalPriceAccount p => w.priceAccount = p

theorem key_zero (h₀ : Initial pa w₀) (h : Run (Step pa) w₀ es w) : w.priceAccount.key = 0 := by
  induction h with
  | nil =>
      obtain ⟨_, _, _, _, hp, _⟩ := h₀.elim
      rw [hp]
  | snoc _ hstep ih => exact hstep.price_frame.1.trans ih

/-! ## Two bytes -/

variable {address discriminator}

theorem tokenInfo_key (i : TokenInfo) : ∃ b, ((Account.tokenInfo i).data address discriminator)[8]? = some b ∧
    b.toNat = i.reserveTotal.toNat % 256 := by
  obtain ⟨b, hb, hmod⟩ := word_first i.reserveTotal
  refine ⟨b, ?_, hmod⟩
  rw [Account.data, TokenInfo.serialize, Bytes.getElem?_behind (k := 0), Bytes.getElem?_within _ (by decide)]
  exact hb

theorem tokenInfo_flag (i : TokenInfo) :
    ((Account.tokenInfo i).data address discriminator)[49]? = (address i.mint).toList[17]? := by
  rw [Account.data, TokenInfo.serialize, Bytes.getElem?_behind (k := 41), Bytes.getElem?_behind (k := 33),
    Bytes.getElem?_behind (k := 25), Bytes.getElem?_behind (k := 17), Bytes.getElem?_within _ (by decide)]

theorem userInfo_flag (i : UserInfo) : ((Account.userInfo i).data address discriminator)[49]? = none := by
  apply List.getElem?_eq_none
  simp only [Account.data, UserInfo.serialize, List.length_append, Bytes.length_toList]
  decide

end FractionAuction.PriceTracker
