import FractionAuction.AuctionProgram.Formats
import FractionAuction.Library.AccountStore
import FractionAuction.PriceReading
import FractionAuction.PriceTracker.Formats

/-!
# The data of all accounts

An account of either program is made with room for its record and written at the end of every transaction that
changes it. Which bytes stand for the name of a type is left open.
-/

namespace FractionAuction

open AccountStore.Schema AuctionProgram Borsh PriceTracker

inductive AccountType where
  | auction
  | bid
  | authority
  | settings
  | tokenInfo
  | userInfo
  | externalPriceAccount
deriving DecidableEq

namespace AccountType

/-! ## Types of accounts -/

def name : AccountType → String
  | auction => "Auction"
  | bid => "Bid"
  | authority => "Authority"
  | settings => "Settings"
  | tokenInfo => "TokenInfo"
  | userInfo => "UserInfo"
  | externalPriceAccount => "ExternalPriceAccount"

def Record : AccountType → Type
  | auction => AuctionData
  | bid => BidData
  | authority => AuthorityData
  | settings => Settings
  | tokenInfo => TokenInfoData
  | userInfo => UserInfo
  | externalPriceAccount => PriceAccountData

def codec : (t : AccountType) → Codec t.Record
  | auction => AuctionData.codec
  | bid => BidData.codec
  | authority => AuthorityData.codec
  | settings => Settings.codec
  | tokenInfo => TokenInfoData.codec
  | userInfo => UserInfo.codec
  | externalPriceAccount => PriceAccountData.codec

def space : AccountType → ℕ
  | auction => AuctionData.space
  | bid => BidData.space
  | authority => AuthorityData.space
  | settings => Settings.space
  | tokenInfo => TokenInfoData.space
  | userInfo => UserInfo.space
  | externalPriceAccount => PriceAccountData.space

theorem sized (t : AccountType) : t.codec.Sized t.space := by
  cases t with
  | auction => exact AuctionData.sized
  | bid => exact BidData.sized
  | authority => exact AuthorityData.sized
  | settings => exact Settings.sized
  | tokenInfo => exact TokenInfoData.sized
  | userInfo => exact UserInfo.sized
  | externalPriceAccount => exact PriceAccountData.sized

/-! ## The schema -/

section Schema

variable {discriminator : String → Bytes 8}

/-- The names have different discriminators, and an account has room for its own and its record. -/
def schema (hnames : Function.Injective fun t : AccountType => discriminator t.name) :
    AccountStore.Schema AccountType where
  Record := Record
  format t := t.codec.marked (discriminator t.name)
  size t := 8 + t.space
  sized t := t.sized.marked _
  apart {t u} r hne := by
    have hmark : discriminator u.name ≠ discriminator t.name := fun h => hne (hnames h)
    have hnone := Codec.marked_disjoint (c := u.codec) (d := t.codec) hmark r []
    rwa [List.append_nil] at hnone

end Schema

/-! ## Written and read back -/

variable {discriminator : String → Bytes 8}

/-- However often an account is written after `init`, there is room every time. The data are read as the last record
and its type, as no other record or type, and no other data of an account of the type are read as that record. -/
theorem account_keeps_last (hnames : Function.Injective fun t : AccountType => discriminator t.name) (t : AccountType)
    (records : List t.Record) (record : t.Record) : ∃ data,
    (records ++ [record]).foldlM (fun data r => (schema hnames).trySerialize data ⟨t, r⟩)
      ((schema hnames).allocate t) = some data ∧
    (∀ x : Σ t : AccountType, t.Record, (schema hnames).tryDeserialize x.1 data = some x.2 ↔ x = ⟨t, record⟩) ∧
    ∀ data', data'.length = 8 + t.space → (schema hnames).tryDeserialize t data' = some record → data' = data := by
  have hroom : ((schema hnames).allocate t).length = 8 + t.space := List.length_replicate
  exact ⟨_, trySerialize_run (S := schema hnames) hroom records record, tryDeserialize_write (S := schema hnames) ⟨t, record⟩,
    fun _ => eq_write_of_tryDeserialize (S := schema hnames)⟩

/-- The first bytes of the hashed names of all types. -/
def nameHash (name : String) : Bytes 8 :=
  if name = "Auction" then ⟨[218, 94, 247, 242, 126, 233, 131, 81], rfl⟩
  else if name = "Bid" then ⟨[143, 246, 48, 245, 42, 145, 180, 88], rfl⟩
  else if name = "Authority" then ⟨[36, 108, 254, 18, 167, 144, 27, 36], rfl⟩
  else if name = "Settings" then ⟨[223, 179, 163, 190, 177, 224, 67, 173], rfl⟩
  else hashed name

theorem nameHash_injective : Function.Injective fun t : AccountType => nameHash t.name := by
  intro t t' h
  cases t <;> cases t' <;> first | rfl | exact absurd h (by decide)

/-- A bid that is accepted and outbid. -/
def storedBid (withdrawable : Bool) : BidData :=
  ⟨⟨List.replicate 32 1, rfl⟩, ⟨List.replicate 32 2, rfl⟩, 2000, 77, withdrawable, ⟨List.replicate 32 3, rfl⟩, 255⟩

theorem account_keeps_last_bid : ∃ data,
    ([storedBid false] ++ [storedBid true]).foldlM
      (fun data r => (schema nameHash_injective).trySerialize data ⟨bid, r⟩)
      ((schema nameHash_injective).allocate bid) = some data ∧
    (∀ x : Σ t : AccountType, t.Record,
      (schema nameHash_injective).tryDeserialize x.1 data = some x.2 ↔ x = ⟨bid, storedBid true⟩) ∧
    ∀ data', data'.length = 8 + bid.space →
      (schema nameHash_injective).tryDeserialize bid data' = some (storedBid true) → data' = data :=
  account_keeps_last nameHash_injective bid [storedBid false] (storedBid true)

end AccountType

end FractionAuction
