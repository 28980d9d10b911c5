import FractionAuction.Chain.System
import FractionAuction.AuctionProgram.Lemmas.Effects
import FractionAuction.PriceTracker.Lemmas.Effects

/-!
# Whose records they are

A bid belongs to its bidder, votes to their voter, and the minimum price to the authority that is recorded with it.
-/

namespace FractionAuction.Chain

open Lts

variable {T : TokenProgram Pubkey} {V : AuctionProgram.VaultProgram T}
  {misread : PriceTracker.TokenInfo → Option AuctionProgram.Price} {c c' : State V} {e : Event} {es : List Event}

/-! ## Bids -/

section Bids

open AuctionProgram

/-- The call takes back the bid of `b`. -/
def TakesBack (b : Pubkey) : AuctionProgram.Event → Prop
  | .withdrawBid ctx _ => ctx.bidder.key = b
  | _ => False

/-- What others can do to a bid: they outbid it. -/
structure Marked (x x' : Bid) : Prop where
  same : x' = { x with withdrawable := x'.withdrawable }
  mark : x.withdrawable = true → x'.withdrawable = true

theorem Marked.refl (x : Bid) : Marked x x := ⟨rfl, id⟩

theorem Marked.trans {x y z : Bid} (h : Marked x y) (h' : Marked y z) : Marked x z where
  same := by
    rw [h'.same, h.same]
  mark hx := h'.mark (h.mark hx)

theorem bid_of_call {v b : Pubkey} {w w' : World V} {f : AuctionProgram.Event} {x : Bid}
    (h : AuctionProgram.Step v w f w') (hb : w.bids b = some x) (hno : ¬ TakesBack b f) :
    ∃ x', w'.bids b = some x' ∧ Marked x x' := by
  cases h with
  | init hi =>
      obtain rfl := Init.effect hi
      exact ⟨x, hb, .refl x⟩
  | setOwner ho =>
      obtain rfl := SetAuthority.effect ho
      exact ⟨x, hb, .refl x⟩
  | createSettings hs =>
      obtain ⟨-, -, rfl⟩ := CreateSettings.effect hs
      exact ⟨x, hb, .refl x⟩
  | @start ctx _ _ _ hs =>
      obtain ⟨s, vault, L, he, rfl⟩ := start_effect hs
      have hne : b ≠ ctx.bidder.key := by
        rintro rfl
        cases hb.symm.trans he.bidder
      exact ⟨x, (Function.update_of_ne hne _ _).trans hb, .refl x⟩
  | @placeBid ctx _ _ hp =>
      obtain ⟨a, s, top, L, he, rfl⟩ := placeBid_effect hp
      have hne : b ≠ ctx.bidder.key := by
        rintro rfl
        cases hb.symm.trans he.bidder
      by_cases htop : b = a.topBidder
      · subst htop
        obtain rfl : top = x := Option.some.inj (he.leading.symm.trans hb)
        refine ⟨{ top with withdrawable := true }, ?_, rfl, fun _ => rfl⟩
        exact (Function.update_of_ne hne _ _).trans (Function.update_self _ _ _)
      · exact ⟨x, (Function.update_of_ne hne _ _).trans ((Function.update_of_ne htop _ _).trans hb), .refl x⟩
  | @withdrawBid ctx _ _ hw =>
      obtain ⟨a, y, L, he, rfl⟩ := withdrawBid_effect hw
      have hne : b ≠ ctx.bidder.key := fun heq => hno heq.symm
      exact ⟨x, (Function.update_of_ne hne _ _).trans hb, .refl x⟩
  | endAuction hend =>
      obtain ⟨a, s, L, he, rfl⟩ := endAuction_effect hend
      exact ⟨x, hb, .refl x⟩
  | claim hc =>
      obtain ⟨a, vault, L, he, rfl⟩ := claim_effect hc
      exact ⟨x, hb, .refl x⟩
  | redeem hr =>
      obtain ⟨a, vault, L, he, rfl⟩ := redeem_effect hr
      exact ⟨x, hb, .refl x⟩
  | tick _ => exact ⟨x, hb, .refl x⟩
  | outside ho => exact ⟨x, ho.bids ▸ hb, .refl x⟩

end Bids

/-- The transaction takes back the bid of `b` at the vault `v`. -/
def Event.TakesBack (v b : Pubkey) : Event → Prop
  | .auction u f => u = v ∧ Chain.TakesBack b f
  | _ => False

theorem Step.bid {v b : Pubkey} {x : AuctionProgram.Bid} (h : Step misread c e c') (hb : c.bids v b = some x)
    (hno : ¬ e.TakesBack v b) : ∃ x', c'.bids v b = some x' ∧ Marked x x' := by
  cases h with
  | @auction u f w _ hs =>
      by_cases hu : v = u
      · subst hu
        obtain ⟨x', hx', hmarked⟩ := bid_of_call hs hb fun h => hno ⟨rfl, h⟩
        refine ⟨x', ?_, hmarked⟩
        exact (congrFun (Function.update_self _ _ _) b).trans hx'
      · exact ⟨x, (congrFun (Function.update_of_ne hu _ _) b).trans hb, .refl x⟩
  | initializeMarket _ _ | market _ _ _ | tick _ => exact ⟨x, hb, .refl x⟩
  | outside ho => exact ⟨x, ho.bids ▸ hb, .refl x⟩

section Markets

open PriceTracker

/-- The voter `u` signs. -/
def SignedBy (u : Pubkey) : PriceTracker.Event → Prop
  | .initUserInfo ctx => ctx.signer.key = u
  | .addVote ctx _ _ => ctx.signer.key = u
  | .removeVote ctx _ => ctx.signer.key = u
  | _ => False

/-- The authority `a` sets the minimum price. -/
def SetsMinPrice (a : Pubkey) : PriceTracker.Event → Prop
  | .setMinPrice ctx _ => ctx.authority.key = a
  | _ => False

/-- A transaction at the price account `pa` with `P`. -/
def Event.At (pa : Pubkey) (P : PriceTracker.Event → Prop) : Event → Prop
  | .market p f => p = pa ∧ P f
  | _ => False

/-- What the transactions `es` can do to the accounts of the price account `pa`. -/
structure Tended (pa : Pubkey) (es : List Event) (m m' : Market) : Prop where
  price : m'.priceAccount = { m.priceAccount with
    pricePerShare := m'.priceAccount.pricePerShare
    allowedToCombine := m'.priceAccount.allowedToCombine }
  tokenInfo : m'.tokenInfo = { m.tokenInfo with
    totalVotes := m'.tokenInfo.totalVotes
    reserveTotal := m'.tokenInfo.reserveTotal
    minPrice := m'.tokenInfo.minPrice }
  user u : (∀ e ∈ es, ¬ e.At pa (SignedBy u)) → m'.users.lookup u = m.users.lookup u
  minPrice : (∀ e ∈ es, ¬ e.At pa (SetsMinPrice m.tokenInfo.authority)) →
    m'.tokenInfo.minPrice = m.tokenInfo.minPrice

theorem Tended.refl (pa : Pubkey) (es : List Event) (m : Market) : Tended pa es m m :=
  ⟨rfl, rfl, fun _ _ => rfl, fun _ => rfl⟩

theorem Tended.trans {pa : Pubkey} {es es' : List Event} {m m' m'' : Market} (h : Tended pa es m m')
    (h' : Tended pa es' m' m'') : Tended pa (es ++ es') m m'' where
  price := by
    rw [h'.price, h.price]
  tokenInfo := by
    rw [h'.tokenInfo, h.tokenInfo]
  user u hno := by
    rw [List.forall_mem_append] at hno
    exact (h'.user u hno.2).trans (h.user u hno.1)
  minPrice hno := by
    rw [List.forall_mem_append] at hno
    have hauthority : m'.tokenInfo.authority = m.tokenInfo.authority := by rw [h.tokenInfo]
    exact (h'.minPrice (hauthority ▸ hno.2)).trans (h.minPrice hno.1)

variable {pa : Pubkey} {m : Market} {L : T.Ledger} {f : PriceTracker.Event} {w : PriceTracker.World T}

end Markets

end FractionAuction.Chain
