import FractionAuction.Address
import FractionAuction.Library.Tally
import FractionAuction.Library.TokenProgram

/-!
# The accounts of the price tracker

One price account, its `TokenInfo` and the `UserInfo` of everyone who voted on it. The ledger is the token
program's.
-/

namespace FractionAuction.PriceTracker

inductive ErrorCode where
  | notEnoughTokensInAccount
  | notEnoughVotesToRemove
  | numericalOverflowError
  | priceTooHigh
  | priceBelowMinimum
  | priceTooLow
  | amountIsZero
deriving DecidableEq

/-- What a call returns instead of `Ok(())`: an error of the program, a failed account constraint, or the
error of a call to the token program. -/
inductive Error where
  | code (e : ErrorCode)
  | constraintRaw
  | constraintHasOne
  | accountNotProgramOwned
  | accountInUse
  | tokenProgram
deriving DecidableEq

structure TokenInfo where
  reserveTotal : UInt64
  totalVotes : UInt64
  minPrice : UInt64
  mint : Pubkey
  store : Pubkey
  lockedMint : Pubkey
  authority : Pubkey
deriving DecidableEq

structure UserInfo where
  price : UInt64
  votes : UInt64
deriving DecidableEq

structure ExternalPriceAccount where
  key : UInt8
  pricePerShare : UInt64
  priceMint : Pubkey
  allowedToCombine : Bool
deriving DecidableEq

/-- The accounts that belong to one price account; `users` holds the `user_pda` of each signer. -/
structure World (T : TokenProgram Pubkey) where
  priceAccount : ExternalPriceAccount
  tokenInfo : TokenInfo
  users : AList fun _ : Pubkey => UserInfo
  ledger : T.Ledger

/-- The `user_pda` of `u`, all zero where it is not initialised. -/
def World.user {T : TokenProgram Pubkey} (w : World T) (u : Pubkey) : UserInfo :=
  (w.users.lookup u).getD ⟨0, 0⟩

end FractionAuction.PriceTracker
