import FractionAuction.AuctionProgram.Decoding
import FractionAuction.PriceTracker.Encoding
import FractionAuction.PriceTracker.SampleMarket

/-!
# What the auction reads of the price tracker

The auction decodes an account of the price tracker as a price account, without a look at which type it is.
-/

namespace FractionAuction

open AuctionProgram (PriceData)
open Borsh Lts PriceTracker Pubkey

variable (address : Pubkey → Bytes 32) (discriminator : String → Bytes 8) {T : TokenProgram Pubkey} {pa : Pubkey}
  {w₀ w : World T} {es : List Event}

/-- The account is decoded exactly if it is a price account, and then to what was stored. -/
structure ReadsExactly (account : Account) : Prop where
  accepts : (PriceData.tryDeserialize (account.data address discriminator)).isSome ↔
    ∃ p, account = .externalPriceAccount p
  fields p : account = .externalPriceAccount p →
    ∃ d, PriceData.tryDeserialize (account.data address discriminator) = some d ∧
      d.pricePerShare = p.pricePerShare ∧ d.priceMint = address p.priceMint ∧
      d.allowedToCombine = p.allowedToCombine

/-- A `TokenInfo` with a byte that no price account has: the lowest of the reserve total in the place of the key, or
the eighteenth of the mint in the place of the flag. -/
def SetApart : Account → Prop
  | .tokenInfo i => 4 ≤ i.reserveTotal.toNat % 256 ∨ 2 ≤ ((address i.mint).toList.getD 17 0).toNat
  | _ => True

variable {address discriminator}

theorem readsExactly_of_none {account : Account} (hno : ∀ p, account ≠ .externalPriceAccount p) :
    ReadsExactly address discriminator account ↔
      ¬ (PriceData.tryDeserialize (account.data address discriminator)).isSome := by
  constructor
  · intro h hsome
    obtain ⟨p, hp⟩ := h.accepts.mp hsome
    exact hno p hp
  · intro h
    exact ⟨iff_of_false h (fun ⟨p, hp⟩ => hno p hp), fun p hp => (hno p hp).elim⟩

theorem tokenInfo_accepted_iff (i : TokenInfo) :
    (PriceData.tryDeserialize ((Account.tokenInfo i).data address discriminator)).isSome ↔
      i.reserveTotal.toNat % 256 < 4 ∧ ((address i.mint).toList.getD 17 0).toNat < 2 := by
  obtain ⟨b, hb, hmod⟩ := @tokenInfo_key address discriminator i
  have hlength : 17 < (address i.mint).toList.length := by
    rw [(address i.mint).length_toList]
    decide
  rw [PriceData.tryDeserialize_isSome_iff, hb, tokenInfo_flag, List.getElem?_eq_getElem hlength,
    List.getD_eq_getElem _ _ hlength]
  simp only [Option.some.injEq, exists_eq_left', hmod]

theorem userInfo_refused (i : UserInfo) :
    ¬ (PriceData.tryDeserialize ((Account.userInfo i).data address discriminator)).isSome := by
  rw [PriceData.tryDeserialize_isSome_iff, userInfo_flag]
  rintro ⟨-, b, hb, -⟩
  cases hb

theorem priceAccount_reads {p : ExternalPriceAccount} (hkey : p.key = 0) :
    ReadsExactly address discriminator (.externalPriceAccount p) := by
  have hread : PriceData.tryDeserialize ((Account.externalPriceAccount p).data address discriminator) =
      some ⟨ofWord (discriminator "ExternalPriceAccount"), .uninitialized, p.pricePerShare, address p.priceMint,
        p.allowedToCombine⟩ := by
    rw [Account.data, ExternalPriceAccount.serialize, hkey]
    exact PriceData.tryDeserialize_append rfl
  refine ⟨iff_of_true ?_ ⟨p, rfl⟩, ?_⟩
  · rw [hread]
    rfl
  · intro q hq
    cases hq
    exact ⟨_, hread, rfl, rfl, rfl⟩

/-! ## The accounts of the price tracker -/

/-- Whatever was done to a price account, all of its accounts are read exactly but a `TokenInfo` that is not set
apart. -/
theorem price_accounts_read (h₀ : Initial pa w₀) (h : Run (Step pa) w₀ es w) {account : Account}
    (ha : w.Holds account) : ReadsExactly address discriminator account ↔ SetApart address account := by
  cases account with
  | tokenInfo i =>
      rw [readsExactly_of_none (by simp), tokenInfo_accepted_iff, not_and_or, not_lt, not_lt, SetApart]
  | userInfo i => exact iff_of_true ((readsExactly_of_none (by simp)).mpr (userInfo_refused i)) trivial
  | externalPriceAccount p =>
      have hkey : p.key = 0 := ha ▸ key_zero h₀ h
      exact iff_of_true (priceAccount_reads hkey) trivial

/-- Addresses as numbers. -/
def numbered : Pubkey → Bytes 32
  | key n => ⟨littleEndian 32 (n + 1), length_littleEndian _ _⟩
  | _ => ⟨littleEndian 32 0, length_littleEndian _ _⟩

/-- The first bytes of the hashed names. -/
def hashed (name : String) : Bytes 8 :=
  if name = "TokenInfo" then ⟨[109, 162, 52, 125, 77, 166, 37, 202], rfl⟩
  else if name = "UserInfo" then ⟨[83, 134, 200, 56, 144, 56, 10, 62], rfl⟩
  else ⟨[110, 157, 32, 206, 33, 19, 104, 237], rfl⟩

theorem price_accounts_read_majority : ∃ w₀ w : Concrete, Initial priceAccount w₀ ∧
    Run (Step priceAccount) w₀ [honestUser, .addVote honestVote 51 10] w ∧
      w.priceAccount.allowedToCombine = true ∧
      ReadsExactly numbered hashed (.externalPriceAccount w.priceAccount) := by
  obtain ⟨w₀, w, h₀, h, hflag⟩ := market_run (fun _ _ => True)
    [honestUser, .addVote honestVote 51 10]
    (fun w => w.priceAccount.allowedToCombine = true) (by decide +kernel)
  have hholds : w.Holds (.externalPriceAccount w.priceAccount) := rfl
  exact ⟨w₀, w, h₀, h.of_restrict, hflag, (price_accounts_read h₀ h.of_restrict hholds).mpr trivial⟩

/-- Before anybody votes the reserve total is zero, so a `TokenInfo` decodes wherever the mint has a flag for its
eighteenth byte. -/
theorem tokenInfo_misread : ∃ w₀ : Concrete, Initial priceAccount w₀ ∧ w₀.tokenInfo.reserveTotal = 0 ∧
    w₀.tokenInfo.mint = key 0 ∧ w₀.Holds (.tokenInfo w₀.tokenInfo) ∧
      (PriceData.tryDeserialize ((Account.tokenInfo w₀.tokenInfo).data numbered hashed)).isSome ∧
      ¬ ReadsExactly numbered hashed (.tokenInfo w₀.tokenInfo) := by
  obtain ⟨w₀, w, h₀, h, hreserve, hmint⟩ := market_run (fun _ _ => True) []
    (fun w => w.tokenInfo.reserveTotal = 0 ∧ w.tokenInfo.mint = key 0) (by decide +kernel)
  obtain rfl := h.nil_eq
  have hread : (PriceData.tryDeserialize ((Account.tokenInfo w.tokenInfo).data numbered hashed)).isSome := by
    rw [tokenInfo_accepted_iff, hreserve, hmint]
    decide
  exact ⟨w, h₀, hreserve, hmint, rfl, hread, fun hr => (readsExactly_of_none (by simp)).mp hr hread⟩

end FractionAuction
