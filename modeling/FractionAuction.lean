import FractionAuction.Library.FixedPoint
import FractionAuction.Library.Guard
import FractionAuction.Library.Lts
import FractionAuction.Library.Latch
import FractionAuction.Library.Mean
import FractionAuction.Library.ProRata
import FractionAuction.Library.Tally
import FractionAuction.Library.OpenBidding
import FractionAuction.Library.TokenProgram
import FractionAuction.Library.TokenLedger
import FractionAuction.Library.Borsh
import FractionAuction.Library.Codec
import FractionAuction.Library.AccountStore
import FractionAuction.Address
import FractionAuction.PriceTracker.State
import FractionAuction.PriceTracker.Instructions
import FractionAuction.PriceTracker.System
import FractionAuction.PriceTracker.Lemmas.Effects
import FractionAuction.PriceTracker.Lemmas.Custody
import FractionAuction.PriceTracker.Lemmas.Exact
import FractionAuction.PriceTracker.Lemmas.Reserve
import FractionAuction.PriceTracker.Lemmas.Published
import FractionAuction.PriceTracker.Lemmas.Majority
import FractionAuction.PriceTracker.Lemmas.Mandate
import FractionAuction.PriceTracker.Lemmas.Order
import FractionAuction.PriceTracker.Lemmas.Admission
import FractionAuction.PriceTracker.Lemmas.Leaving
import FractionAuction.PriceTracker.Lemmas.PriceBounds
import FractionAuction.PriceTracker.Encoding
import FractionAuction.PriceTracker.Formats
import FractionAuction.PriceTracker.SampleMarket
import FractionAuction.PriceTracker.Theorems.Totals
import FractionAuction.PriceTracker.Theorems.Voting
import FractionAuction.PriceTracker.Theorems.Voters
import FractionAuction.AuctionProgram.Vault
import FractionAuction.AuctionProgram.State
import FractionAuction.AuctionProgram.Utils
import FractionAuction.AuctionProgram.Instructions
import FractionAuction.AuctionProgram.System
import FractionAuction.AuctionProgram.Decoding
import FractionAuction.AuctionProgram.Formats
import FractionAuction.AuctionProgram.VaultInterface
import FractionAuction.AuctionProgram.Lemmas.Effects
import FractionAuction.AuctionProgram.Lemmas.Tokens
import FractionAuction.AuctionProgram.Lemmas.Custody
import FractionAuction.AuctionProgram.Lemmas.Treasury
import FractionAuction.AuctionProgram.Lemmas.Escrow
import FractionAuction.AuctionProgram.Lemmas.Secured
import FractionAuction.AuctionProgram.Lemmas.Outcome
import FractionAuction.AuctionProgram.Lemmas.Redemption
import FractionAuction.AuctionProgram.Lemmas.Closing
import FractionAuction.AuctionProgram.Lemmas.Deadline
import FractionAuction.AuctionProgram.Lemmas.Governance
import FractionAuction.AuctionProgram.Lemmas.Acceptance
import FractionAuction.AuctionProgram.Lemmas.Amounts
import FractionAuction.AuctionProgram.SampleVault
import FractionAuction.AuctionProgram.Theorems.Bidding
import FractionAuction.AuctionProgram.Theorems.Redemption
import FractionAuction.AuctionProgram.Theorems.Amounts
import FractionAuction.AuctionProgram.Theorems.Progress
import FractionAuction.PriceReading
import FractionAuction.AccountFormats
import FractionAuction.Chain.System
import FractionAuction.Chain.Lemmas.Frame
import FractionAuction.Chain.Lemmas.Projection
import FractionAuction.Chain.Lemmas.Solvency
import FractionAuction.Chain.Lemmas.Mandate
import FractionAuction.Chain.Lemmas.Refunds
import FractionAuction.Chain.Lemmas.Restrained
import FractionAuction.Chain.Lemmas.Personal
import FractionAuction.Chain.Lemmas.Storage
import FractionAuction.Chain.Lemmas.Reading
import FractionAuction.Chain.SampleChain
import FractionAuction.Chain.Theorems
