import FractionAuction.AuctionProgram.State
import FractionAuction.Library.Guard

/-!
# Checks and prices
-/

namespace FractionAuction.AuctionProgram

open Guard FixedPoint

def getCurrentTimestamp (clock : Clock) : UInt64 := UInt64.ofNat clock

/-! ## Checks -/

def assertAuctionHasEnded (clock : Clock) (auction : Auction) : Except ProgramError Unit :=
  failIf (getCurrentTimestamp clock < auction.endTimestamp) (.auction .auctionHasNotEnded)

def assertFeeDelivered (auction : Auction) : Except ProgramError Unit :=
  failIf (!auction.feePaid) (.auction .feeHasNotBeenDelivered)

def assertFeeNotDelivered (auction : Auction) : Except ProgramError Unit :=
  failIf auction.feePaid (.auction .feeAlreadyDelivered)

def assertAuctionHasNotEnded (clock : Clock) (auction : Auction) : Except ProgramError Unit :=
  failIf (getCurrentTimestamp clock ≥ auction.endTimestamp) (.auction .auctionHasEnded)

def assertSufficientFunds (tokenAccount : TokenAccount Pubkey) (amount : UInt64) :
    Except ProgramError Unit :=
  failIf (tokenAccount.amount < amount) (.auction .insufficientFunds)

def assertVaultOwnedByAuctionProgramAuthority (vault : Vault) : Except ProgramError Unit :=
  failIf (vault.authority ≠ .authority) (.auction .vaultNotOwnedByAuctionAuthority)

def assertCorrectPricingAccount (vault : Vault) (externalPricingAccount : Pubkey) :
    Except ProgramError Unit :=
  failIf (vault.pricingLookupAddress ≠ externalPricingAccount)
    (.auction .priceAccountDoesNotMatchVaultAccount)

def assertVaultAllowedToCombine (externalPricingAccount : Price) : Except ProgramError Unit :=
  failIf (!externalPricingAccount.allowedToCombine) (.auction .vaultCannotCurrentlyBeCombined)

def assertVaultInActiveState (vault : Vault) : Except ProgramError Unit :=
  failIf (vault.state ≠ .active) (.auction .vaultNotInActiveState)

def assertBidMeetsReservePrice (bid reservePrice : UInt64) : Except ProgramError Unit :=
  failIf (bid < reservePrice) (.auction .bidLessThanReservePrice)

def assertNotTopBidder (bidder topBidder : Pubkey) : Except ProgramError Unit :=
  failIf (topBidder = bidder) (.auction .cannotWithdrawTopBid)

def assertAuctionWinner (claimer winner : Pubkey) : Except ProgramError Unit :=
  failIf (winner ≠ claimer) (.auction .notAuctionWinner)

/-! ## Prices

All four are one checked product, one checked quotient and one unchecked narrowing. -/

abbrev overflow : ProgramError := .auction .numericalOverflowError

def calculateMinimumStartingBid (reservePrice facilitatorFee : UInt64) : Except ProgramError UInt64 :=
  okOr (mulDiv reservePrice maxFacilitatorFee (maxFacilitatorFee - facilitatorFee)) overflow

def calculateMinimumBidIncrease (topBid bidIncrement : UInt64) : Except ProgramError UInt64 :=
  okOr (mulDiv topBid bidIncrement maxBidIncrement) overflow

def calculateFee (topBid facilitatorFee : UInt64) : Except ProgramError UInt64 :=
  okOr (mulDiv topBid facilitatorFee maxFacilitatorFee) overflow

def calculateRedeemPayment (remaining amount fractionSupply : UInt64) : Except ProgramError UInt64 :=
  okOr (mulDiv remaining amount fractionSupply) overflow

def assertSufficientBid (bid topBid bidIncrement : UInt64) : Except ProgramError Unit := do
  let minimumBidIncrease ← calculateMinimumBidIncrease topBid bidIncrement
  failIf (bid < topBid + minimumBidIncrease) (.auction .bidTooLow)

end FractionAuction.AuctionProgram
