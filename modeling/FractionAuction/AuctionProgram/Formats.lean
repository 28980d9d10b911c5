import FractionAuction.AuctionProgram.State
import FractionAuction.Library.Codec

/-!
# How the auction program stores its accounts

The records with all their fields, in the order in which they are written; an address is its bytes.
-/

namespace FractionAuction.AuctionProgram

open Borsh

variable (address : Pubkey → Bytes 32)

/-! ## Auction -/

structure AuctionData where
  startTimestamp : UInt64
  endTimestamp : UInt64
  paymentMint : Bytes 32
  topBid : UInt64
  topBidder : Bytes 32
  reservePrice : UInt64
  settings : Bytes 32
  vault : Bytes 32
  paymentTreasury : Bytes 32
  feePaid : Bool
  lockedPaymentPerFraction : UInt64
  bump : UInt8
deriving DecidableEq

def AuctionData.codec : Codec AuctionData :=
  (Codec.word.both <| Codec.word.both <| (Codec.bytes 32).both <| Codec.word.both <| (Codec.bytes 32).both <|
    Codec.word.both <| (Codec.bytes 32).both <| (Codec.bytes 32).both <| (Codec.bytes 32).both <|
      Codec.flag.both <| Codec.word.both Codec.byte).map {
    toFun := fun (start, fin, mint, bid, bidder, reserve, settings, vault, treasury, paid, locked, bump) =>
      ⟨start, fin, mint, bid, bidder, reserve, settings, vault, treasury, paid, locked, bump⟩
    invFun := fun d => (d.startTimestamp, d.endTimestamp, d.paymentMint, d.topBid, d.topBidder, d.reservePrice,
      d.settings, d.vault, d.paymentTreasury, d.feePaid, d.lockedPaymentPerFraction, d.bump) }

def AuctionData.space : ℕ := 5 * 8 + 5 * 32 + 2 * 1

theorem AuctionData.sized : codec.Sized space :=
  (Codec.sized_word.both <| Codec.sized_word.both <| (Codec.sized_bytes 32).both <| Codec.sized_word.both <|
    (Codec.sized_bytes 32).both <| Codec.sized_word.both <| (Codec.sized_bytes 32).both <|
      (Codec.sized_bytes 32).both <| (Codec.sized_bytes 32).both <| Codec.sized_flag.both <|
        Codec.sized_word.both Codec.sized_byte).map _

/-- No instruction sets `locked_payment_per_fraction`. -/
def Auction.data (a : Auction) (bump : UInt8) : AuctionData :=
  ⟨a.startTimestamp, a.endTimestamp, address a.paymentMint, a.topBid, address a.topBidder, a.reservePrice,
    address a.settings, address a.vault, address a.paymentTreasury, a.feePaid, 0, bump⟩

/-! ## Bid -/

structure BidData where
  bidder : Bytes 32
  auction : Bytes 32
  amount : UInt64
  timestamp : UInt64
  withdrawable : Bool
  tokenAccount : Bytes 32
  bump : UInt8
deriving DecidableEq

def BidData.codec : Codec BidData :=
  ((Codec.bytes 32).both <| (Codec.bytes 32).both <| Codec.word.both <| Codec.word.both <| Codec.flag.both <|
    (Codec.bytes 32).both Codec.byte).map {
    toFun := fun (bidder, auction, amount, time, withdrawable, account, bump) =>
      ⟨bidder, auction, amount, time, withdrawable, account, bump⟩
    invFun := fun d => (d.bidder, d.auction, d.amount, d.timestamp, d.withdrawable, d.tokenAccount, d.bump) }

def BidData.space : ℕ := 2 * 8 + 3 * 32 + 2

theorem BidData.sized : codec.Sized space :=
  ((Codec.sized_bytes 32).both <| (Codec.sized_bytes 32).both <| Codec.sized_word.both <| Codec.sized_word.both <|
    Codec.sized_flag.both <| (Codec.sized_bytes 32).both Codec.sized_byte).map _

def Bid.data (b : Bid) (bump : UInt8) : BidData :=
  ⟨address b.bidder, address b.auction, b.amount, b.timestamp, b.withdrawable, address b.tokenAccount, bump⟩

/-! ## Authority -/

structure AuthorityData where
  owner : Bytes 32
  bump : UInt8
deriving DecidableEq

def AuthorityData.codec : Codec AuthorityData :=
  ((Codec.bytes 32).both Codec.byte).map {
    toFun := fun (owner, bump) => ⟨owner, bump⟩
    invFun := fun d => (d.owner, d.bump) }

def AuthorityData.space : ℕ := 1 * 32 + 1

theorem AuthorityData.sized : codec.Sized space := ((Codec.sized_bytes 32).both Codec.sized_byte).map _

def Authority.data (a : Authority) (bump : UInt8) : AuthorityData := ⟨address a.owner, bump⟩

/-! ## Settings -/

def Settings.codec : Codec Settings :=
  (Codec.word.both <| Codec.word.both <| Codec.word.both Codec.word).map {
    toFun := fun (duration, softClose, increment, fee) => ⟨duration, softClose, increment, fee⟩
    invFun := fun s => (s.duration, s.softClosePeriod, s.bidIncrement, s.facilitatorFee) }

def Settings.space : ℕ := 4 * 8

theorem Settings.sized : codec.Sized space :=
  (Codec.sized_word.both <| Codec.sized_word.both <| Codec.sized_word.both Codec.sized_word).map _

end FractionAuction.AuctionProgram
