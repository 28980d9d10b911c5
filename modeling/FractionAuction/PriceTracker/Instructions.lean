import FractionAuction.Library.Guard
import FractionAuction.PriceTracker.State

/-!
# The instructions of the price tracker

Each instruction is given the accounts that its caller names. An account whose address is forced by seeds
is not named. `pa` is the address of the price account.
-/

namespace FractionAuction.PriceTracker

open Guard FixedPoint

variable {T : TokenProgram Pubkey}

abbrev overflow : Error := .code .numericalOverflowError

/-! ## initialize -/

structure Initialize where
  store : Pubkey
  storeMint : Pubkey
  redeemMint : Pubkey
  lockedMint : Pubkey
  signer : Signer

def Initialize.handler (pa : Pubkey) (ledger : T.Ledger) (ctx : Initialize) (minPrice : UInt64) :
    Except Error (World T) := do
  let _ ← okOr (T.supply ledger ctx.storeMint) .accountNotProgramOwned
  let _ ← okOr (T.supply ledger ctx.redeemMint) .accountNotProgramOwned
  let _ ← okOr (T.supply ledger ctx.lockedMint) .accountNotProgramOwned
  let ledger ← okOr (T.initializeAccount ctx.store ctx.storeMint (.storeAuthority pa) ledger) .tokenProgram
  -- a new account is all zero but for the fields the handler sets
  return {
    priceAccount := ⟨0, 0, ctx.redeemMint, false⟩
    tokenInfo := ⟨0, 0, minPrice, ctx.storeMint, ctx.store, ctx.lockedMint, ctx.signer.key⟩
    users := ∅
    ledger }

/-! ## set_min_price -/

structure SetMinPrice where
  authority : Signer

def SetMinPrice.handler (w : World T) (ctx : SetMinPrice) (minPrice : UInt64) : Except Error (World T) := do
  ensure (w.tokenInfo.authority = ctx.authority.key) .constraintHasOne
  return { w with tokenInfo := { w.tokenInfo with minPrice } }

/-! ## init_user_info -/

structure InitUserInfo where
  storeMint : Pubkey
  signer : Signer

def InitUserInfo.handler (w : World T) (ctx : InitUserInfo) : Except Error (World T) := do
  let _ ← okOr (T.supply w.ledger ctx.storeMint) .accountNotProgramOwned
  ensure (w.users.lookup ctx.signer.key = none) .accountInUse
  return { w with users := w.users.insert ctx.signer.key ⟨0, 0⟩ }

/-! ## Accounts of a vote

`AddVotes` and `RemoveVotes` declare the same constraints on the token accounts. -/

structure VoteAccounts where
  store : Pubkey
  userTokenAccount : Pubkey
  storeMint : Pubkey
  signer : Signer

structure VoteContext where
  store : TokenAccount Pubkey
  userTokenAccount : TokenAccount Pubkey
  storeMintSupply : UInt64

/-- All accounts are loaded before the constraints on any of them are checked. -/
def VoteAccounts.load (ledger : T.Ledger) (ctx : VoteAccounts) : Except Error VoteContext := do
  let store ← okOr (T.account ledger ctx.store) .accountNotProgramOwned
  let userTokenAccount ← okOr (T.account ledger ctx.userTokenAccount) .accountNotProgramOwned
  let storeMintSupply ← okOr (T.supply ledger ctx.storeMint) .accountNotProgramOwned
  return { store, userTokenAccount, storeMintSupply }

def VoteAccounts.check (pa : Pubkey) (ctx : VoteAccounts) (c : VoteContext) : Except Error Unit := do
  ensure (c.store.mint = ctx.storeMint) .constraintRaw
  ensure (c.store.owner = .storeAuthority pa) .constraintRaw
  ensure (c.userTokenAccount.owner = ctx.signer.key) .constraintRaw
  ensure (c.userTokenAccount.mint = ctx.storeMint) .constraintRaw

/-! ## Expressions that add_vote and remove_vote share -/

/-- `1e9 as u128` -/
def unit : UInt64 := 1000000000

/-- `votes * price / 1e9`, as a `u64`. -/
def contribution (votes price : UInt64) : Except Error UInt64 :=
  okOr (mulDiv votes price unit) overflow

def halfSupply (supply : UInt64) : Except Error UInt64 := okOr (checkedDiv64 supply 2) overflow

/-- What both handlers write to `price_account.price_per_share`. -/
def pricePerShare (tokenInfo : TokenInfo) : Except Error UInt64 :=
  if tokenInfo.totalVotes > 0 then do
    let val ← okOr (mulDiv tokenInfo.reserveTotal unit tokenInfo.totalVotes) overflow
    return max tokenInfo.minPrice val
  else
    return tokenInfo.minPrice

/-! ## add_vote -/

abbrev AddVotes := VoteAccounts

/-- The bounds around the present price, once there are votes. -/
def AddVotes.checkPrice (tokenInfo : TokenInfo) (priceAccount : ExternalPriceAccount) (price : UInt64) :
    Except Error Unit :=
  if tokenInfo.totalVotes > 0 then do
    let minPrice ← okOr (checkedDiv64 priceAccount.pricePerShare 5) overflow
    failIf (price < minPrice) (.code .priceTooLow)
    let maxPrice ← okOr (checkedMul64 priceAccount.pricePerShare 5) overflow
    failIf (price > maxPrice) (.code .priceTooHigh)
  else
    return ()

/-- The transfer to the store, left out when no votes are added. -/
def AddVotes.deposit (ctx : AddVotes) (votes : UInt64) (ledger : T.Ledger) : Except Error T.Ledger :=
  if votes > 0 then
    okOr (T.transfer ctx.userTokenAccount ctx.store ctx.signer.key votes ledger) .tokenProgram
  else
    return ledger

def AddVotes.handler (w : World T) (ctx : AddVotes) (c : VoteContext) (votes price : UInt64) :
    Except Error (World T) := do
  let userInfo := w.user ctx.signer.key
  failIf (c.userTokenAccount.amount < votes) (.code .notEnoughTokensInAccount)
  failIf (price < w.tokenInfo.minPrice) (.code .priceBelowMinimum)
  AddVotes.checkPrice w.tokenInfo w.priceAccount price
  let ledger ← AddVotes.deposit ctx votes w.ledger
  let old ← contribution userInfo.votes userInfo.price
  let userInfo : UserInfo := ⟨price, userInfo.votes + votes⟩
  let new ← contribution userInfo.votes userInfo.price
  let tokenInfo := { w.tokenInfo with
    reserveTotal := w.tokenInfo.reserveTotal - old + new
    totalVotes := w.tokenInfo.totalVotes + votes }
  let half ← halfSupply c.storeMintSupply
  let allowed := if tokenInfo.totalVotes > half then true else w.priceAccount.allowedToCombine
  let pricePerShare ← pricePerShare tokenInfo
  return {
    priceAccount := { w.priceAccount with pricePerShare, allowedToCombine := allowed }
    tokenInfo
    users := w.users.insert ctx.signer.key userInfo
    ledger }

def addVote (pa : Pubkey) (w : World T) (ctx : AddVotes) (votes price : UInt64) :
    Except Error (World T) := do
  let c ← ctx.load w.ledger
  ctx.check pa c
  AddVotes.handler w ctx c votes price

/-! ## remove_vote -/

abbrev RemoveVotes := VoteAccounts

def RemoveVotes.handler (pa : Pubkey) (w : World T) (ctx : RemoveVotes) (c : VoteContext)
    (userInfo : UserInfo) (votes : UInt64) : Except Error (World T) := do
  failIf (votes = 0) (.code .amountIsZero)
  failIf (userInfo.votes < votes) (.code .notEnoughVotesToRemove)
  let removed ← contribution votes userInfo.price
  let tokenInfo := { w.tokenInfo with
    reserveTotal := w.tokenInfo.reserveTotal - removed
    totalVotes := w.tokenInfo.totalVotes - votes }
  let half ← halfSupply c.storeMintSupply
  let allowed := if tokenInfo.totalVotes ≤ half then false else w.priceAccount.allowedToCombine
  let pricePerShare ← pricePerShare tokenInfo
  let ledger ← okOr (T.transfer ctx.store ctx.userTokenAccount (.storeAuthority pa) votes w.ledger)
    .tokenProgram
  return {
    priceAccount := { w.priceAccount with pricePerShare, allowedToCombine := allowed }
    tokenInfo
    users := w.users.insert ctx.signer.key { userInfo with votes := userInfo.votes - votes }
    ledger }

def removeVote (pa : Pubkey) (w : World T) (ctx : RemoveVotes) (votes : UInt64) :
    Except Error (World T) := do
  let c ← ctx.load w.ledger
  let userInfo ← okOr (w.users.lookup ctx.signer.key) .accountNotProgramOwned
  ctx.check pa c
  RemoveVotes.handler pa w ctx c userInfo votes

end FractionAuction.PriceTracker
