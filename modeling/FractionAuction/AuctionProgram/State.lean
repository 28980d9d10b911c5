import FractionAuction.AuctionProgram.Vault

/-!
# The accounts of the auction program
-/

namespace FractionAuction.AuctionProgram

/-! ## Constants -/

def maxFacilitatorFee : UInt64 := 1000000000

def maxBidIncrement : UInt64 := 1000000000

/-! ## Errors -/

inductive AuctionError where
  | numericalOverflowError
  | priceAccountDoesNotMatchVaultAccount
  | vaultCannotCurrentlyBeCombined
  | vaultNotInActiveState
  | vaultNotOwnedByAuctionAuthority
  | bidLessThanReservePrice
  | bidTooLow
  | auctionHasEnded
  | auctionHasNotEnded
  | notAuctionWinner
  | cannotWithdrawTopBid
  | invalidFacilitatorFee
  | insufficientFunds
  | feeAlreadyDelivered
  | feeHasNotBeenDelivered
deriving DecidableEq

/-- What a call returns instead of `Ok(())`: an error of the program, a failed account constraint, or the
error of a call to another program. -/
inductive ProgramError where
  | auction (e : AuctionError)
  | constraintRaw
  | constraintHasOne
  | accountNotProgramOwned
  | accountInUse
  | tokenProgram
  | vaultProgram
deriving DecidableEq

/-! ## Accounts of the program -/

structure Auction where
  startTimestamp : UInt64
  endTimestamp : UInt64
  paymentMint : Pubkey
  topBid : UInt64
  topBidder : Pubkey
  reservePrice : UInt64
  settings : Pubkey
  vault : Pubkey
  paymentTreasury : Pubkey
  feePaid : Bool
deriving DecidableEq

structure Bid where
  bidder : Pubkey
  auction : Pubkey
  amount : UInt64
  timestamp : UInt64
  withdrawable : Bool
  tokenAccount : Pubkey
deriving DecidableEq

structure Authority where
  owner : Pubkey
deriving DecidableEq

structure Settings where
  duration : UInt64
  softClosePeriod : UInt64
  bidIncrement : UInt64
  facilitatorFee : UInt64
deriving DecidableEq

/-! ## The state a call sees -/

/-- The clock's `unix_timestamp`, an `i64` that is not negative. -/
abbrev Clock := Fin (2 ^ 63)

/-- The accounts around one vault; `bids` holds the `bid` account of each bidder. -/
structure World {T : TokenProgram Pubkey} (V : VaultProgram T) where
  clock : Clock
  authority : Option Authority
  settings : Pubkey → Option Settings
  prices : Pubkey → Option Price
  vault : V.State
  auction : Option Auction
  bids : Pubkey → Option Bid
  ledger : T.Ledger

end FractionAuction.AuctionProgram
