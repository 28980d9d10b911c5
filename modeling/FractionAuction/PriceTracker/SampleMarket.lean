import FractionAuction.Library.TokenLedger
import FractionAuction.PriceTracker.System

/-!
# A small market

One price account with mint 0 and store 3, a holder with wallet 10, and a holder with wallet 20 who also owns
everything of the mint 4 and keeps some of it at 5, in the name of the store authority.
-/

namespace FractionAuction.PriceTracker

open Lts Pubkey

abbrev Concrete := World (TokenLedger.program Pubkey)

def priceAccount : Pubkey := key 100

def opening : Option (TokenLedger Pubkey) :=
  TokenLedger.ofEntries [(key 0, 100), (key 1, 0), (key 2, 0), (key 4, 50)]
    [(key 11, ⟨key 0, key 10, 60⟩), (key 22, ⟨key 0, key 20, 0⟩), (key 21, ⟨key 4, key 20, 50⟩),
      (key 5, ⟨key 4, storeAuthority priceAccount, 0⟩)]

def founder : Initialize := ⟨key 3, key 0, key 1, key 2, ⟨key 9, rfl⟩⟩

def honestVote : VoteAccounts := ⟨key 3, key 11, key 0, ⟨key 10, rfl⟩⟩

/-- A store and a mint made up by the caller. -/
def forgedVote : VoteAccounts := ⟨key 5, key 21, key 4, ⟨key 20, rfl⟩⟩

/-- The recorded store, named by the caller who voted with forged tokens. -/
def forgerRemoval : VoteAccounts := ⟨key 3, key 22, key 0, ⟨key 20, rfl⟩⟩

/-- A holder with two billion fractions. -/
def largeOpening : Option (TokenLedger Pubkey) :=
  TokenLedger.ofEntries [(key 0, 2000000000), (key 1, 0), (key 2, 0)] [(key 11, ⟨key 0, key 10, 2000000000⟩)]

def twoHolders : Option (TokenLedger Pubkey) :=
  TokenLedger.ofEntries [(key 0, 100), (key 1, 0), (key 2, 0)]
    [(key 11, ⟨key 0, key 10, 60⟩), (key 22, ⟨key 0, key 20, 40⟩)]

def secondVote : VoteAccounts := ⟨key 3, key 22, key 0, ⟨key 20, rfl⟩⟩

/-! ## Calls in the market -/

def honestUser : Event := .initUserInfo ⟨key 0, ⟨key 10, rfl⟩⟩

def secondUser : Event := .initUserInfo ⟨key 0, ⟨key 20, rfl⟩⟩

def newMinimum (minPrice : UInt64) : Event := .setMinPrice ⟨⟨key 9, rfl⟩⟩ minPrice

/-! ## Runs that are computed -/

/-- A run of the founder's price account on some ledger that comes out as computed. -/
theorem founded_run (ledger : Option (TokenLedger Pubkey)) (ok : Concrete → Event → Prop)
    [∀ w e, Decidable (ok w e)] (es : List Event) (P : Concrete → Prop) [DecidablePred P]
    (h : (replay (T := TokenLedger.program Pubkey) priceAccount ok ledger founder 10 es).any P = true) :
    ∃ w₀ w, Initial priceAccount w₀ ∧ Run (restrict (Step priceAccount) ok) w₀ es w ∧ P w :=
  run_of_replay priceAccount ok h

theorem market_run (ok : Concrete → Event → Prop) [∀ w e, Decidable (ok w e)] (es : List Event)
    (P : Concrete → Prop) [DecidablePred P]
    (h : (replay (T := TokenLedger.program Pubkey) priceAccount ok opening founder 10 es).any P = true) :
    ∃ w₀ w, Initial priceAccount w₀ ∧ Run (restrict (Step priceAccount) ok) w₀ es w ∧ P w :=
  founded_run opening ok es P h

/-! ## Burning -/

/-- Tokens are burned outside by whoever owns them, and never those of the store authority. -/
theorem outside_of_burn {pa k o : Pubkey} {n : UInt64} {L L' : TokenLedger Pubkey} (h : L.burn k o n = some L')
    (ho : o ≠ storeAuthority pa) : Outside (T := TokenLedger.program Pubkey) pa L L' := by
  obtain ⟨a, s, ha, -, rfl, -, -, haccounts, -⟩ := TokenLedger.burn_eq_some h
  intro k' m hk
  have hne : k' ≠ k := by
    rintro rfl
    obtain ⟨n', hn⟩ := hk
    have : a = ⟨m, storeAuthority pa, n'⟩ := Option.some.inj (ha.symm.trans hn)
    exact ho (congrArg TokenAccount.owner this)
  have hsame : (TokenLedger.program Pubkey).account L' k' = (TokenLedger.program Pubkey).account L k' := by
    change L'.accounts.lookup k' = L.accounts.lookup k'
    rw [haccounts, AList.lookup_insert_ne hne]
  exact ⟨(TokenProgram.Holds.congr hsame).mpr hk, (TokenProgram.balance_congr hsame).ge⟩

end FractionAuction.PriceTracker
