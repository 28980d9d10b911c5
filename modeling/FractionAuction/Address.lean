import Mathlib

/-!
# Addresses

A program-derived address is written as its seeds, so that different seeds give different addresses and a
bump seed carries no information. `key` stands for every address that neither program derives: wallets,
mints, token accounts, and the addresses of other programs.
-/

namespace FractionAuction

inductive Pubkey where
  | key (n : ℕ)
  /-- `[b"price", price_account, price_tracker::id()]` -/
  | storeAuthority (priceAccount : Pubkey)
  /-- `[b"authority", auction::id()]` -/
  | authority
  /-- `[b"auction", vault]` -/
  | auction (vault : Pubkey)
  /-- `[b"bid", bidder, auction]` -/
  | bid (bidder auction : Pubkey)
deriving DecidableEq

namespace Pubkey

/-- Only its program can sign for a program-derived address. -/
def isDerived : Pubkey → Bool
  | key _ => false
  | _ => true

/-- The addresses in whose name the auction program keeps tokens. -/
def isEscrow : Pubkey → Bool
  | auction _ => true
  | bid _ _ => true
  | _ => false

/-- The addresses in whose name one of the two programs keeps tokens. -/
def isHolder : Pubkey → Bool
  | storeAuthority _ => true
  | o => o.isEscrow

/-- The addresses in whose name the auction of the vault `v` keeps tokens. -/
def inAuction (owner v : Pubkey) : Bool :=
  match owner with
  | auction vault => vault = v
  | bid _ (auction vault) => vault = v
  | _ => false

@[simp] theorem inAuction_auction (v : Pubkey) : (auction v).inAuction v = true := by simp [inAuction]

@[simp] theorem inAuction_bid (v b : Pubkey) : (bid b (auction v)).inAuction v = true := by
  simp [inAuction]

theorem isHolder_of_escrow {o : Pubkey} (h : o.isEscrow = true) : o.isHolder = true := by
  cases o <;> simp_all [isEscrow, isHolder]

theorem isDerived_of_holder {o : Pubkey} (h : o.isHolder = true) : o.isDerived = true := by
  cases o <;> simp_all [isEscrow, isHolder, isDerived]

theorem isEscrow_of_inAuction {o v : Pubkey} (h : o.inAuction v = true) : o.isEscrow = true := by
  cases o <;> simp_all [inAuction, isEscrow]

/-- An owner belongs to the auction of one vault. -/
theorem inAuction_unique {o v u : Pubkey} (h : o.inAuction v = true) (h' : o.inAuction u = true) : v = u := by
  cases o with
  | auction vault =>
      simp only [inAuction, decide_eq_true_eq] at h h'
      exact h.symm.trans h'
  | bid b a =>
      cases a with
      | auction vault =>
          simp only [inAuction, decide_eq_true_eq] at h h'
          exact h.symm.trans h'
      | key n => cases h
      | storeAuthority p => cases h
      | authority => cases h
      | bid b a => cases h
  | key n => cases h
  | storeAuthority p => cases h
  | authority => cases h

end Pubkey

/-- `Signer<'info>`: an account that signed the transaction from outside. -/
structure Signer where
  key : Pubkey
  signed : key.isDerived = false

namespace Signer

variable (s : Signer) {k : Pubkey}

theorem key_ne (h : k.isDerived = true) : s.key ≠ k := by
  rintro rfl
  simp [s.signed] at h

theorem not_escrow : s.key.isEscrow = false := by
  have := s.signed
  cases h : s.key <;> simp_all [Pubkey.isDerived, Pubkey.isEscrow]

theorem not_holder : s.key.isHolder = false := by
  have := s.signed
  cases h : s.key <;> simp_all [Pubkey.isDerived, Pubkey.isHolder, Pubkey.isEscrow]

end Signer

end FractionAuction
