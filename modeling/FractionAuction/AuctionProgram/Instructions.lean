import FractionAuction.AuctionProgram.Utils

/-!
# The instructions of the auction program

Each instruction is given the accounts that its caller names. An account whose address is forced by seeds
is not named; `v` is the address of the vault. Accounts are loaded first, then the new ones are made, then the
constraints are checked. Next to the new state an instruction returns the amounts it worked out.
-/

namespace FractionAuction.AuctionProgram

open Guard

variable {T : TokenProgram Pubkey} {V : VaultProgram T}

/-! ## Loading accounts -/

def loadToken (ledger : T.Ledger) (k : Pubkey) : Except ProgramError (TokenAccount Pubkey) :=
  okOr (T.account ledger k) .accountNotProgramOwned

def loadMint (ledger : T.Ledger) (k : Pubkey) : Except ProgramError UInt64 :=
  okOr (T.supply ledger k) .accountNotProgramOwned

def World.loadAuthority (w : World V) : Except ProgramError Authority :=
  okOr w.authority .accountNotProgramOwned

def World.loadAuction (w : World V) : Except ProgramError Auction :=
  okOr w.auction .accountNotProgramOwned

def World.loadSettings (w : World V) (k : Pubkey) : Except ProgramError Settings :=
  okOr (w.settings k) .accountNotProgramOwned

/-! ## init -/

structure Init where
  signer : Signer

def Init.handler (w : World V) (ctx : Init) : Except ProgramError (World V) := do
  ensure w.authority.isNone .accountInUse
  return { w with authority := some ⟨ctx.signer.key⟩ }

/-! ## set_owner -/

structure SetAuthority where
  owner : Signer

def SetAuthority.handler (w : World V) (ctx : SetAuthority) (newOwner : Pubkey) :
    Except ProgramError (World V) := do
  let authority ← w.loadAuthority
  ensure (authority.owner = ctx.owner.key) .constraintHasOne
  return { w with authority := some { authority with owner := newOwner } }

/-! ## create_settings -/

structure CreateSettings where
  settings : Pubkey
  owner : Signer

def CreateSettings.handler (w : World V) (ctx : CreateSettings)
    (duration softClosePeriod bidIncrement facilitatorFee : UInt64) : Except ProgramError (World V) := do
  let authority ← w.loadAuthority
  ensure (w.settings ctx.settings).isNone .accountInUse
  ensure (authority.owner = ctx.owner.key) .constraintHasOne
  failIf (facilitatorFee > maxFacilitatorFee) (.auction .invalidFacilitatorFee)
  let settings : Settings := { duration, softClosePeriod, bidIncrement, facilitatorFee }
  return { w with settings := Function.update w.settings ctx.settings (some settings) }

/-! ## start -/

structure Start where
  settings : Pubkey
  paymentTreasury : Pubkey
  bidTokenAccount : Pubkey
  payingTokenAccount : Pubkey
  bidder : Signer
  fractionMint : Pubkey
  paymentMint : Pubkey
  externalPricingAccount : Pubkey
  outstandingFractionsTokenAccount : Pubkey
  vaultFractionTreasury : Pubkey
  vaultRedeemTreasury : Pubkey
  vaultPda : Pubkey

namespace Start

/-- The accounts that the handler reads, and the ledger with the new token accounts. -/
structure Accounts (T : TokenProgram Pubkey) where
  settings : Settings
  payingTokenAccount : TokenAccount Pubkey
  externalPricingAccount : Price
  ledger : T.Ledger

def load (v : Pubkey) (w : World V) (ctx : Start) : Except ProgramError (Accounts T) := do
  let _ ← w.loadAuthority
  let settings ← w.loadSettings ctx.settings
  let payingTokenAccount ← loadToken w.ledger ctx.payingTokenAccount
  let _ ← loadMint w.ledger ctx.fractionMint
  let _ ← loadMint w.ledger ctx.paymentMint
  let price ← okOr (w.prices ctx.externalPricingAccount) .accountNotProgramOwned
  let _ ← loadToken w.ledger ctx.outstandingFractionsTokenAccount
  let _ ← loadToken w.ledger ctx.vaultFractionTreasury
  let _ ← loadToken w.ledger ctx.vaultRedeemTreasury
  ensure w.auction.isNone .accountInUse
  let ledger ← okOr (T.initializeAccount ctx.paymentTreasury ctx.paymentMint (.auction v) w.ledger)
    .tokenProgram
  ensure (w.bids ctx.bidder.key).isNone .accountInUse
  let ledger ← okOr (T.initializeAccount ctx.bidTokenAccount ctx.paymentMint
    (.bid ctx.bidder.key (.auction v)) ledger) .tokenProgram
  ensure (payingTokenAccount.mint = ctx.paymentMint) .constraintRaw
  ensure (payingTokenAccount.owner = ctx.bidder.key) .constraintRaw
  ensure (price.priceMint = ctx.paymentMint) .constraintRaw
  return ⟨settings, payingTokenAccount, price, ledger⟩

def combineContext (v : Pubkey) (ctx : Start) : Combine where
  vault := v
  vaultAuthority := .authority
  vaultPda := ctx.vaultPda
  externalPricingAccount := ctx.externalPricingAccount
  outstandingShareTokenAccount := ctx.outstandingFractionsTokenAccount
  payingTokenAccount := ctx.payingTokenAccount
  fractionMint := ctx.fractionMint
  fractionTreasury := ctx.vaultFractionTreasury
  redeemTreasury := ctx.vaultRedeemTreasury
  payer := ctx.bidder.key

/-- The reserve price is what the vault program took from the paying account. -/
def combineVault (v : Pubkey) (w : World V) (ctx : Start) (c : Accounts T) :
    Except ProgramError (UInt64 × V.State × T.Ledger) := do
  let (vault, ledger) ← okOr (V.combine (ctx.combineContext v) c.externalPricingAccount w.vault c.ledger)
    .vaultProgram
  let balanceAfter ← loadToken ledger ctx.payingTokenAccount
  return (c.payingTokenAccount.amount - balanceAfter.amount, vault, ledger)

def transferToTreasury (ctx : Start) (amount : UInt64) (ledger : T.Ledger) :
    Except ProgramError T.Ledger :=
  okOr (T.transfer ctx.payingTokenAccount ctx.paymentTreasury ctx.bidder.key amount ledger) .tokenProgram

def handler (v : Pubkey) (w : World V) (ctx : Start) (c : Accounts T) (bidAmount : UInt64) :
    Except ProgramError (World V × UInt64) := do
  assertSufficientFunds c.payingTokenAccount bidAmount
  assertVaultOwnedByAuctionProgramAuthority (V.vault w.vault)
  assertCorrectPricingAccount (V.vault w.vault) ctx.externalPricingAccount
  assertVaultAllowedToCombine c.externalPricingAccount
  assertVaultInActiveState (V.vault w.vault)
  let (reservePrice, vault, ledger) ← ctx.combineVault v w c
  let minimumBid ← calculateMinimumStartingBid reservePrice c.settings.facilitatorFee
  assertBidMeetsReservePrice bidAmount minimumBid
  let ledger ← ctx.transferToTreasury (bidAmount - reservePrice) ledger
  let currentTimestamp := getCurrentTimestamp w.clock
  let bid : Bid := {
    bidder := ctx.bidder.key
    auction := .auction v
    amount := bidAmount
    timestamp := currentTimestamp
    withdrawable := false
    tokenAccount := ctx.bidTokenAccount }
  let auction : Auction := {
    startTimestamp := currentTimestamp
    endTimestamp := currentTimestamp + c.settings.duration
    paymentMint := ctx.paymentMint
    topBid := bidAmount
    topBidder := ctx.bidder.key
    reservePrice
    settings := ctx.settings
    vault := v
    paymentTreasury := ctx.paymentTreasury
    feePaid := false }
  return ({ w with
    vault, ledger
    auction := some auction
    bids := Function.update w.bids ctx.bidder.key (some bid) }, reservePrice)

end Start

def start (v : Pubkey) (w : World V) (ctx : Start) (bidAmount : UInt64) :
    Except ProgramError (World V × UInt64) := do
  let c ← ctx.load v w
  ctx.handler v w c bidAmount

/-! ## place_bid -/

structure PlaceBid where
  settings : Pubkey
  paymentTreasury : Pubkey
  topBidTokenAccount : Pubkey
  bidTokenAccount : Pubkey
  paymentMint : Pubkey
  payingTokenAccount : Pubkey
  bidder : Signer

namespace PlaceBid

structure Accounts (T : TokenProgram Pubkey) where
  auction : Auction
  settings : Settings
  topBid : Bid
  payingTokenAccount : TokenAccount Pubkey
  ledger : T.Ledger

def load (v : Pubkey) (w : World V) (ctx : PlaceBid) : Except ProgramError (Accounts T) := do
  let auction ← w.loadAuction
  let settings ← w.loadSettings ctx.settings
  let _ ← loadToken w.ledger ctx.paymentTreasury
  -- the seeds of `top_bid` are those of the top bidder
  let topBid ← okOr (w.bids auction.topBidder) .accountNotProgramOwned
  let _ ← loadToken w.ledger ctx.topBidTokenAccount
  let _ ← loadMint w.ledger ctx.paymentMint
  let payingTokenAccount ← loadToken w.ledger ctx.payingTokenAccount
  ensure (w.bids ctx.bidder.key).isNone .accountInUse
  let ledger ← okOr (T.initializeAccount ctx.bidTokenAccount ctx.paymentMint
    (.bid ctx.bidder.key (.auction v)) w.ledger) .tokenProgram
  ensure (auction.paymentTreasury = ctx.paymentTreasury) .constraintHasOne
  ensure (auction.settings = ctx.settings) .constraintHasOne
  ensure (topBid.tokenAccount = ctx.topBidTokenAccount) .constraintRaw
  ensure (auction.paymentMint = ctx.paymentMint) .constraintRaw
  ensure (payingTokenAccount.mint = ctx.paymentMint) .constraintRaw
  ensure (payingTokenAccount.owner = ctx.bidder.key) .constraintRaw
  return ⟨auction, settings, topBid, payingTokenAccount, ledger⟩

def transferToTreasury (ctx : PlaceBid) (amount : UInt64) (ledger : T.Ledger) :
    Except ProgramError T.Ledger :=
  okOr (T.transfer ctx.payingTokenAccount ctx.paymentTreasury ctx.bidder.key amount ledger) .tokenProgram

def transferBackToTopBidder (v : Pubkey) (ctx : PlaceBid) (topBid : Bid) (ledger : T.Ledger) :
    Except ProgramError T.Ledger :=
  okOr (T.transfer ctx.paymentTreasury ctx.topBidTokenAccount (.auction v) topBid.amount ledger)
    .tokenProgram

/-- The auction stays open for at least the soft-close period after a bid. -/
def extend (endTimestamp currentTimestamp softClosePeriod : UInt64) : UInt64 :=
  if endTimestamp - currentTimestamp < softClosePeriod then currentTimestamp + softClosePeriod
  else endTimestamp

def handler (v : Pubkey) (w : World V) (ctx : PlaceBid) (c : Accounts T) (bidAmount : UInt64) :
    Except ProgramError (World V) := do
  assertSufficientFunds c.payingTokenAccount bidAmount
  assertAuctionHasNotEnded w.clock c.auction
  assertSufficientBid bidAmount c.auction.topBid c.settings.bidIncrement
  let ledger ← ctx.transferToTreasury bidAmount c.ledger
  let currentTimestamp := getCurrentTimestamp w.clock
  let bid : Bid := {
    bidder := ctx.bidder.key
    auction := .auction v
    amount := bidAmount
    timestamp := currentTimestamp
    withdrawable := false
    tokenAccount := ctx.bidTokenAccount }
  let ledger ← ctx.transferBackToTopBidder v c.topBid ledger
  let auction : Auction := { c.auction with
    topBid := bidAmount
    topBidder := ctx.bidder.key
    endTimestamp := extend c.auction.endTimestamp currentTimestamp c.settings.softClosePeriod }
  return { w with
    ledger
    auction := some auction
    bids := Function.update (Function.update w.bids c.auction.topBidder
      (some { c.topBid with withdrawable := true })) ctx.bidder.key (some bid) }

end PlaceBid

def placeBid (v : Pubkey) (w : World V) (ctx : PlaceBid) (bidAmount : UInt64) :
    Except ProgramError (World V) := do
  let c ← ctx.load v w
  ctx.handler v w c bidAmount

/-! ## withdraw_bid -/

structure WithdrawBid where
  settings : Pubkey
  bidTokenAccount : Pubkey
  toAccount : Pubkey
  bidder : Signer

namespace WithdrawBid

structure Accounts where
  auction : Auction
  bid : Bid
  bidTokenAccount : TokenAccount Pubkey

def load (w : World V) (ctx : WithdrawBid) : Except ProgramError Accounts := do
  let auction ← w.loadAuction
  let _ ← w.loadSettings ctx.settings
  let bid ← okOr (w.bids ctx.bidder.key) .accountNotProgramOwned
  let bidTokenAccount ← loadToken w.ledger ctx.bidTokenAccount
  let toAccount ← loadToken w.ledger ctx.toAccount
  ensure (auction.settings = ctx.settings) .constraintHasOne
  ensure (bid.tokenAccount = ctx.bidTokenAccount) .constraintRaw
  ensure (bid.bidder = ctx.bidder.key) .constraintHasOne
  ensure (toAccount.mint = auction.paymentMint) .constraintRaw
  return ⟨auction, bid, bidTokenAccount⟩

def returnFundsToBidder (v : Pubkey) (ctx : WithdrawBid) (amount : UInt64) (ledger : T.Ledger) :
    Except ProgramError T.Ledger :=
  okOr (T.transfer ctx.bidTokenAccount ctx.toAccount (.bid ctx.bidder.key (.auction v)) amount ledger)
    .tokenProgram

def closeBidAccount (v : Pubkey) (ctx : WithdrawBid) (ledger : T.Ledger) : Except ProgramError T.Ledger :=
  okOr (T.closeAccount ctx.bidTokenAccount (.bid ctx.bidder.key (.auction v)) ledger) .tokenProgram

def handler (v : Pubkey) (w : World V) (ctx : WithdrawBid) (c : Accounts) :
    Except ProgramError (World V × UInt64) := do
  assertNotTopBidder c.bid.bidder c.auction.topBidder
  let ledger ← ctx.returnFundsToBidder v c.bidTokenAccount.amount w.ledger
  let ledger ← ctx.closeBidAccount v ledger
  -- `close = bidder`
  return ({ w with ledger, bids := Function.update w.bids ctx.bidder.key none }, c.bidTokenAccount.amount)

end WithdrawBid

def withdrawBid (v : Pubkey) (w : World V) (ctx : WithdrawBid) : Except ProgramError (World V × UInt64) := do
  let c ← ctx.load w
  ctx.handler v w c

/-! ## end -/

structure End where
  settings : Pubkey
  paymentTreasury : Pubkey
  feeTokenAccount : Pubkey

namespace End

structure Accounts where
  auction : Auction
  settings : Settings

def load (w : World V) (ctx : End) : Except ProgramError Accounts := do
  let authority ← w.loadAuthority
  let auction ← w.loadAuction
  let settings ← w.loadSettings ctx.settings
  let _ ← loadToken w.ledger ctx.paymentTreasury
  let feeTokenAccount ← loadToken w.ledger ctx.feeTokenAccount
  ensure (auction.paymentTreasury = ctx.paymentTreasury) .constraintHasOne
  ensure (auction.settings = ctx.settings) .constraintHasOne
  ensure (feeTokenAccount.mint = auction.paymentMint) .constraintRaw
  ensure (feeTokenAccount.owner = authority.owner) .constraintRaw
  return ⟨auction, settings⟩

def transferFeeToOwner (v : Pubkey) (ctx : End) (fee : UInt64) (ledger : T.Ledger) :
    Except ProgramError T.Ledger :=
  okOr (T.transfer ctx.paymentTreasury ctx.feeTokenAccount (.auction v) fee ledger) .tokenProgram

def handler (v : Pubkey) (w : World V) (ctx : End) (c : Accounts) :
    Except ProgramError (World V × UInt64) := do
  assertFeeNotDelivered c.auction
  assertAuctionHasEnded w.clock c.auction
  let fee ← calculateFee c.auction.topBid c.settings.facilitatorFee
  let ledger ← ctx.transferFeeToOwner v fee w.ledger
  return ({ w with ledger, auction := some { c.auction with feePaid := true } }, fee)

end End

def endAuction (v : Pubkey) (w : World V) (ctx : End) : Except ProgramError (World V × UInt64) := do
  let c ← ctx.load w
  ctx.handler v w c

/-! ## claim -/

structure Claim where
  settings : Pubkey
  destinationTokenAccount : Pubkey
  bidder : Signer
  lockedTokenAccount : Pubkey
  safetyDepositBox : Pubkey
  vaultPda : Pubkey
  fractionMint : Pubkey

namespace Claim

def load (w : World V) (ctx : Claim) : Except ProgramError Auction := do
  let _ ← w.loadAuthority
  let auction ← w.loadAuction
  let _ ← w.loadSettings ctx.settings
  let _ ← loadToken w.ledger ctx.destinationTokenAccount
  let _ ← loadMint w.ledger ctx.fractionMint
  ensure (auction.settings = ctx.settings) .constraintHasOne
  return auction

def withdrawContext (v : Pubkey) (ctx : Claim) : Withdraw where
  vault := v
  vaultAuthority := .authority
  vaultPda := ctx.vaultPda
  destinationTokenAccount := ctx.destinationTokenAccount
  safetyDepositBox := ctx.safetyDepositBox
  lockedTokenAccount := ctx.lockedTokenAccount
  fractionMint := ctx.fractionMint

def handler (v : Pubkey) (w : World V) (ctx : Claim) (auction : Auction) (amount : UInt64) :
    Except ProgramError (World V) := do
  assertAuctionHasEnded w.clock auction
  assertAuctionWinner ctx.bidder.key auction.topBidder
  let (vault, ledger) ← okOr (V.withdraw (ctx.withdrawContext v) amount w.vault w.ledger) .vaultProgram
  return { w with vault, ledger }

end Claim

def claim (v : Pubkey) (w : World V) (ctx : Claim) (amount : UInt64) : Except ProgramError (World V) := do
  let auction ← ctx.load w
  ctx.handler v w auction amount

/-! ## redeem -/

structure Redeem where
  settings : Pubkey
  paymentTreasury : Pubkey
  redeemTreasury : Pubkey
  sourceTokenAccount : Pubkey
  destinationTokenAccount : Pubkey
  fractionMint : Pubkey
  vaultPda : Pubkey
  redeemer : Signer

namespace Redeem

structure Accounts where
  auction : Auction
  paymentTreasury : TokenAccount Pubkey
  sourceTokenAccount : TokenAccount Pubkey
  fractionSupply : UInt64

def load (w : World V) (ctx : Redeem) : Except ProgramError Accounts := do
  let auction ← w.loadAuction
  let _ ← w.loadSettings ctx.settings
  let paymentTreasury ← loadToken w.ledger ctx.paymentTreasury
  let _ ← loadToken w.ledger ctx.redeemTreasury
  let sourceTokenAccount ← loadToken w.ledger ctx.sourceTokenAccount
  let destinationTokenAccount ← loadToken w.ledger ctx.destinationTokenAccount
  let fractionSupply ← loadMint w.ledger ctx.fractionMint
  ensure (auction.paymentTreasury = ctx.paymentTreasury) .constraintHasOne
  ensure (auction.settings = ctx.settings) .constraintHasOne
  ensure ((V.vault w.vault).fractionMint = ctx.fractionMint) .constraintHasOne
  ensure ((V.vault w.vault).redeemTreasury = ctx.redeemTreasury) .constraintHasOne
  ensure (sourceTokenAccount.mint = ctx.fractionMint) .constraintRaw
  ensure (destinationTokenAccount.mint = paymentTreasury.mint) .constraintRaw
  return ⟨auction, paymentTreasury, sourceTokenAccount, fractionSupply⟩

def redeemContext (v : Pubkey) (ctx : Redeem) : RedeemShares where
  vault := v
  vaultPda := ctx.vaultPda
  srcAccount := ctx.sourceTokenAccount
  destAccount := ctx.destinationTokenAccount
  fractionMint := ctx.fractionMint
  redeemTreasury := ctx.redeemTreasury
  redeemer := ctx.redeemer.key

def transferToRedeemer (v : Pubkey) (ctx : Redeem) (amount : UInt64) (ledger : T.Ledger) :
    Except ProgramError T.Ledger :=
  okOr (T.transfer ctx.paymentTreasury ctx.destinationTokenAccount (.auction v) amount ledger)
    .tokenProgram

/-- Closes the treasury if nothing is left in it. -/
def closePaymentTreasury (v : Pubkey) (ctx : Redeem) (ledger : T.Ledger) :
    Except ProgramError T.Ledger := do
  let paymentTreasury ← loadToken ledger ctx.paymentTreasury
  if paymentTreasury.amount = 0 then
    okOr (T.closeAccount ctx.paymentTreasury (.auction v) ledger) .tokenProgram
  else
    return ledger

def handler (v : Pubkey) (w : World V) (ctx : Redeem) (c : Accounts) :
    Except ProgramError (World V × UInt64 × UInt64) := do
  assertAuctionHasEnded w.clock c.auction
  assertFeeDelivered c.auction
  let (vault, ledger) ← okOr (V.redeemShares (ctx.redeemContext v) w.vault w.ledger) .vaultProgram
  -- treasury, source and supply as they were before the burn
  let payment ← calculateRedeemPayment c.paymentTreasury.amount c.sourceTokenAccount.amount c.fractionSupply
  let ledger ← ctx.transferToRedeemer v payment ledger
  let ledger ← ctx.closePaymentTreasury v ledger
  return ({ w with vault, ledger }, c.sourceTokenAccount.amount, payment)

end Redeem

def redeem (v : Pubkey) (w : World V) (ctx : Redeem) :
    Except ProgramError (World V × UInt64 × UInt64) := do
  let c ← ctx.load w
  ctx.handler v w c

end FractionAuction.AuctionProgram
