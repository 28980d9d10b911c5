import FractionAuction.AuctionProgram.Lemmas.Effects

/-!
# What the instructions do to token accounts

Here the assumptions about the token program and the vault program come in.
-/

namespace FractionAuction.AuctionProgram

open FixedPoint

variable {T : TokenProgram Pubkey} {V : VaultProgram T} {v : Pubkey} {w w' : World V}

/-! ## start -/

/-- The reserve price goes to the vault, the rest of the bid to the new treasury. -/
structure Start.Money (v : Pubkey) (w : World V) (ctx : Start) (n r : UInt64) (L : T.Ledger) : Prop where
  reserve_le : r.toNat ≤ n.toNat
  treasury : T.Holds L ctx.paymentTreasury ctx.paymentMint (.auction v)
  treasury_balance : T.balance L ctx.paymentTreasury + r.toNat = n.toNat
  escrow : T.Holds L ctx.bidTokenAccount ctx.paymentMint (.bid ctx.bidder.key (.auction v))
  escrow_balance : T.balance L ctx.bidTokenAccount = 0
  paid : T.balance L ctx.payingTokenAccount + n.toNat = T.balance w.ledger ctx.payingTokenAccount

theorem Start.Effect.money (hT : T.Lawful) (hV : V.Lawful) {ctx : Start} {n r : UInt64} {s : Settings}
    {vault : V.State} {L : T.Ledger} (he : ctx.Effect v w n r s vault L) : ctx.Money v w n r L := by
  obtain ⟨L₁, L₂, L₃, _, before, after, -, h₁, h₂, hpay, hcombine, hafter, hr, hfunds, h₄⟩ := he.tokens
  -- the two new accounts
  have hne₁ : ctx.payingTokenAccount ≠ ctx.paymentTreasury :=
    (TokenProgram.holds_of_account hpay).ne_of_none (hT.initializeAccount_fresh h₁)
  have hpay₁ := (hT.initializeAccount_other h₁ hne₁).trans hpay
  have htreasury₁ := hT.initializeAccount_self h₁
  have hne₂ : ctx.payingTokenAccount ≠ ctx.bidTokenAccount :=
    (TokenProgram.holds_of_account hpay₁).ne_of_none (hT.initializeAccount_fresh h₂)
  have hne : ctx.paymentTreasury ≠ ctx.bidTokenAccount :=
    (TokenProgram.holds_of_account htreasury₁).ne_of_none (hT.initializeAccount_fresh h₂)
  have hpay₂ := (hT.initializeAccount_other h₂ hne₂).trans hpay₁
  have htreasury₂ := (hT.initializeAccount_other h₂ hne).trans htreasury₁
  have hescrow₂ := hT.initializeAccount_self h₂
  -- the vault program takes the reserve price
  have hkept {k m o n} (ho : o.isEscrow = true) (h : T.account L₂ k = some ⟨m, o, n⟩) :
      T.account L₃ k = some ⟨m, o, n⟩ :=
    (hV.combine_escrow hcombine ctx.bidder.not_escrow ho (TokenProgram.holds_of_account h)).trans h
  have htreasury₃ := hkept rfl htreasury₂
  have hescrow₃ := hkept rfl hescrow₂
  have htaken : after.amount.toNat ≤ before.toNat := by
    have h := (hV.combine_payer hcombine (TokenProgram.holds_of_account hpay₂)).2
    change T.balance L₃ ctx.payingTokenAccount ≤ T.balance L₂ ctx.payingTokenAccount at h
    rwa [TokenProgram.balance_of_account hafter, TokenProgram.balance_of_account hpay₂] at h
  have hreserve : r.toNat = before.toNat - after.amount.toNat := by rw [hr, toNat_sub_of_le htaken]
  -- a wrapped difference could not be paid
  have hle : r.toNat ≤ n.toNat := by
    by_contra hlt
    have hwrapped : (n - r).toNat = 2 ^ 64 + n.toNat - r.toNat := toNat_sub_of_lt (by omega)
    have hpaid := hT.transfer_funds h₄
    rw [TokenProgram.balance_of_account hafter] at hpaid
    have hcovered := UInt64.le_iff_toNat_le.mp hfunds
    have hword := toNat_lt before
    omega
  have hrest : (n - r).toNat = n.toNat - r.toNat := toNat_sub_of_le hle
  have hmoved := hT.transfer_balance_destination h₄ hne₁
  have hdebited := hT.transfer_balance_source h₄ hne₁
  have hempty : T.balance L₃ ctx.paymentTreasury = 0 := TokenProgram.balance_of_account htreasury₃
  have hpurse : T.balance w.ledger ctx.payingTokenAccount = before.toNat :=
    TokenProgram.balance_of_account hpay
  rw [TokenProgram.balance_of_account hafter] at hdebited
  have hescrow₄ := (hT.transfer_other h₄ hne₂.symm hne.symm).trans hescrow₃
  exact {
    reserve_le := hle
    treasury := (hT.transfer_holds h₄).mpr (TokenProgram.holds_of_account htreasury₃)
    treasury_balance := by omega
    escrow := TokenProgram.holds_of_account hescrow₄
    escrow_balance := TokenProgram.balance_of_account hescrow₄
    paid := by omega }

/-! ## place_bid -/

/-- The bid goes to the treasury, and the bid before it from the treasury to its escrow. -/
structure PlaceBid.Money (v : Pubkey) (w : World V) (ctx : PlaceBid) (n : UInt64) (a : Auction) (top : Bid)
    (L : T.Ledger) : Prop where
  fresh : T.account w.ledger ctx.bidTokenAccount = none
  escrow : T.Holds L ctx.bidTokenAccount a.paymentMint (.bid ctx.bidder.key (.auction v))
  escrow_balance : T.balance L ctx.bidTokenAccount = 0
  treasury_balance : T.balance L a.paymentTreasury + top.amount.toNat =
    T.balance w.ledger a.paymentTreasury + n.toNat
  refund : T.balance L top.tokenAccount = T.balance w.ledger top.tokenAccount + top.amount.toNat
  paid : T.balance L ctx.payingTokenAccount + n.toNat = T.balance w.ledger ctx.payingTokenAccount
  holds {k m o} : T.Holds w.ledger k m o → T.Holds L k m o
  other {k m o} : T.Holds w.ledger k m o → k ≠ ctx.payingTokenAccount → k ≠ a.paymentTreasury →
    k ≠ top.tokenAccount → T.account L k = T.account w.ledger k
  supply : T.supply L = T.supply w.ledger

theorem PlaceBid.Effect.money (hT : T.Lawful) {ctx : PlaceBid} {n : UInt64} {a : Auction} {s : Settings}
    {top : Bid} {L : T.Ledger} (he : ctx.Effect v w n a s top L)
    (htreasury : T.Holds w.ledger a.paymentTreasury a.paymentMint (.auction v))
    (htop : T.Holds w.ledger top.tokenAccount a.paymentMint (.bid a.topBidder (.auction v))) :
    ctx.Money v w n a top L := by
  obtain ⟨L₁, L₂, h₁, h₂, h₃⟩ := he.tokens
  rw [← he.treasury] at h₂ h₃
  rw [← he.escrow] at h₃
  have hfresh := hT.initializeAccount_fresh h₁
  -- four different accounts: their owners differ, and the new one is none of the others
  have hpt : ctx.payingTokenAccount ≠ a.paymentTreasury := he.payer.ne htreasury (ctx.bidder.key_ne rfl)
  have hpe : ctx.payingTokenAccount ≠ top.tokenAccount := he.payer.ne htop (ctx.bidder.key_ne rfl)
  have hte : a.paymentTreasury ≠ top.tokenAccount := htreasury.ne htop (by simp)
  have hkeep {k m o} (h : T.Holds w.ledger k m o) : T.account L₁ k = T.account w.ledger k :=
    hT.initializeAccount_other h₁ (h.ne_of_none hfresh)
  have hnew {k m o} (h : T.Holds w.ledger k m o) : ctx.bidTokenAccount ≠ k := (h.ne_of_none hfresh).symm
  have hescrow := (hT.transfer_other h₃ (hnew htreasury) (hnew htop)).trans
    ((hT.transfer_other h₂ (hnew he.payer) (hnew htreasury)).trans (hT.initializeAccount_self h₁))
  have hin := hT.transfer_balance_destination h₂ hpt
  have hout := hT.transfer_balance_source h₃ hte
  rw [TokenProgram.balance_congr (hkeep htreasury)] at hin
  exact {
    fresh := hfresh
    escrow := TokenProgram.holds_of_account hescrow
    escrow_balance := TokenProgram.balance_of_account hescrow
    treasury_balance := by omega
    refund := by
      rw [hT.transfer_balance_destination h₃ hte, hT.transfer_balance_other h₂ hpe.symm hte.symm,
        TokenProgram.balance_congr (hkeep htop)]
    paid := by
      rw [hT.transfer_balance_other h₃ hpt hpe, hT.transfer_balance_source h₂ hpt,
        TokenProgram.balance_congr (hkeep he.payer)]
    holds := fun h => (hT.transfer_holds h₃).mpr ((hT.transfer_holds h₂).mpr
      ((TokenProgram.Holds.congr (hkeep h)).mpr h))
    other := fun h hp ht hx => by rw [hT.transfer_other h₃ ht hx, hT.transfer_other h₂ hp ht, hkeep h]
    supply := by
      rw [hT.transfer_supply h₃, hT.transfer_supply h₂, hT.initializeAccount_supply h₁] }

/-! ## withdraw_bid -/

/-- All that is in the escrow goes to the account that the bidder names, and the escrow is closed. -/
structure WithdrawBid.Money (w : World V) (ctx : WithdrawBid) (n : UInt64) (L : T.Ledger) : Prop where
  amount : n.toNat = T.balance w.ledger ctx.bidTokenAccount
  holds {k m o} : k ≠ ctx.bidTokenAccount → T.Holds w.ledger k m o → T.Holds L k m o
  gains {k} : k ≠ ctx.bidTokenAccount → T.balance w.ledger k ≤ T.balance L k
  other {k} : k ≠ ctx.bidTokenAccount → k ≠ ctx.toAccount → T.account L k = T.account w.ledger k
  paid : ctx.toAccount ≠ ctx.bidTokenAccount →
    T.balance L ctx.toAccount = T.balance w.ledger ctx.toAccount + n.toNat
  supply : T.supply L = T.supply w.ledger

theorem WithdrawBid.Effect.money (hT : T.Lawful) {ctx : WithdrawBid} {n : UInt64} {a : Auction} {b : Bid}
    {L : T.Ledger} (he : ctx.Effect v w n a b L) : ctx.Money w n L := by
  obtain ⟨L₁, h₁, h₂⟩ := he.tokens
  obtain ⟨x, hx, hn⟩ := he.amount
  exact {
    amount := by rw [TokenProgram.balance_of_account hx, hn]
    holds := fun hk h => by
      rw [TokenProgram.Holds.congr (hT.closeAccount_other h₂ hk)]
      exact (hT.transfer_holds h₁).mpr h
    gains := fun hk => by
      rw [TokenProgram.balance_congr (hT.closeAccount_other h₂ hk)]
      exact hT.transfer_balance_ge h₁ hk
    other := fun hk hto => by rw [hT.closeAccount_other h₂ hk, hT.transfer_other h₁ hk hto]
    paid := fun hto => by
      rw [TokenProgram.balance_congr (hT.closeAccount_other h₂ hto),
        hT.transfer_balance_destination h₁ hto.symm]
    supply := by rw [hT.closeAccount_supply h₂, hT.transfer_supply h₁] }

/-! ## redeem -/

/-- The source is burned, and its share of the treasury goes to the destination. -/
structure Redeem.Money (v : Pubkey) (w : World V) (ctx : Redeem) (n p : UInt64) (a : Auction) (L : T.Ledger) :
    Prop where
  owned : ∃ m, T.Holds w.ledger a.paymentTreasury m (.auction v)
  supply_pos : 0 < T.outstanding w.ledger ctx.fractionMint
  burned : T.outstanding L ctx.fractionMint + n.toNat = T.outstanding w.ledger ctx.fractionMint
  share : p.toNat = T.balance w.ledger a.paymentTreasury * n.toNat / T.outstanding w.ledger ctx.fractionMint
  treasury_balance : ctx.destinationTokenAccount ≠ a.paymentTreasury →
    T.balance L a.paymentTreasury + p.toNat = T.balance w.ledger a.paymentTreasury
  treasury_ge : ctx.destinationTokenAccount = a.paymentTreasury →
    T.balance w.ledger a.paymentTreasury ≤ T.balance L a.paymentTreasury
  treasury_open {m} : T.Holds w.ledger a.paymentTreasury m (.auction v) →
    0 < T.balance L a.paymentTreasury → T.Holds L a.paymentTreasury m (.auction v)
  holds {k m o} : k ≠ a.paymentTreasury → T.Holds w.ledger k m o → T.Holds L k m o
  gains {k m o} : o.isEscrow → T.Holds w.ledger k m o → k ≠ a.paymentTreasury →
    T.balance w.ledger k ≤ T.balance L k
  other {k m o} : o.isEscrow → T.Holds w.ledger k m o → k ≠ a.paymentTreasury →
    k ≠ ctx.destinationTokenAccount → T.account L k = T.account w.ledger k

/-- The treasury is closed when it is empty and else left alone; either way its balance is what it was. -/
theorem Redeem.closePaymentTreasury_ok (hT : T.Lawful) {ctx : Redeem} {L L' : T.Ledger}
    (h : ctx.closePaymentTreasury v L = .ok L') :
    (∀ k, k ≠ ctx.paymentTreasury → T.account L' k = T.account L k) ∧
      T.balance L' ctx.paymentTreasury = T.balance L ctx.paymentTreasury ∧ T.supply L' = T.supply L ∧
      (0 < T.balance L ctx.paymentTreasury →
        T.account L' ctx.paymentTreasury = T.account L ctx.paymentTreasury) := by
  simp only [Redeem.closePaymentTreasury, loadToken, Guard.bind_ok_iff, Guard.okOr_ok_iff] at h
  obtain ⟨x, hx, h⟩ := h
  have hbal := TokenProgram.balance_of_account hx
  split at h
  · rename_i hzero
    have hclose := Guard.okOr_ok_iff.mp h
    rw [hzero, UInt64.toNat_zero] at hbal
    refine ⟨fun k hk => hT.closeAccount_other hclose hk, ?_, hT.closeAccount_supply hclose, ?_⟩
    · rw [TokenProgram.balance_of_none (hT.closeAccount_self hclose), hbal]
    · intro hpos
      omega
  · obtain rfl := Guard.pure_ok_iff.mp h
    exact ⟨fun _ _ => rfl, rfl, rfl, fun _ => rfl⟩

theorem Redeem.Effect.money (hT : T.Lawful) (hV : V.Lawful) {ctx : Redeem} {n p : UInt64} {a : Auction}
    {vault : V.State} {L : T.Ledger} (he : ctx.Effect v w n p a vault L) : ctx.Money v w n p a L := by
  obtain ⟨treasury, source, supply, L₁, L₂, ht, hs, rfl, hsupply, h₁, hp, h₂, h₃⟩ := he.tokens
  have hkey := he.treasury
  rw [← hkey] at ht h₂
  obtain ⟨hkept, hsame, hsupply₃, hopen⟩ := Redeem.closePaymentTreasury_ok hT h₃
  rw [← hkey] at hkept hsame hopen
  obtain ⟨hburn, hleft⟩ := hV.redeem_burns h₁ hs hsupply
  have hle := UInt64.le_iff_toNat_le.mp hburn
  have hescrow := hV.redeem_pays h₁ ctx.redeemer.not_escrow
  obtain ⟨m, _, hm, _⟩ := hT.transfer_source h₂
  have howned : T.Holds w.ledger a.paymentTreasury m (.auction v) := (hV.redeem_holds h₁).mp hm
  -- the payment is a share, so its narrowing is exact
  obtain ⟨hpos, hpay⟩ := calculateRedeemPayment_ok.mp hp
  have hfits : treasury.amount.toNat * source.amount.toNat / supply.toNat < 2 ^ 64 :=
    lt_of_le_of_lt (mulDiv_fits hle) (toNat_lt _)
  have hbefore := TokenProgram.outstanding_of_supply hsupply
  have hafter : T.outstanding L ctx.fractionMint = supply.toNat - source.amount.toNat := by
    rw [TokenProgram.outstanding_of_supply (n := supply - source.amount), toNat_sub_of_le hle]
    rw [hsupply₃, hT.transfer_supply h₂]
    exact hleft
  have hgain : T.balance w.ledger a.paymentTreasury ≤ T.balance L₁ a.paymentTreasury :=
    hescrow.gains rfl howned
  exact {
    owned := ⟨m, howned⟩
    supply_pos := by rw [hbefore]; omega
    burned := by rw [hafter, hbefore]; omega
    share := by rw [hpay, toNat_narrow_of_lt hfits, hbefore, TokenProgram.balance_of_account ht]
    treasury_balance := fun hne => by
      have hstill := hescrow.other rfl howned hne.symm
      rw [hsame, hT.transfer_balance_source h₂ hne.symm, TokenProgram.balance_congr hstill]
    treasury_ge := fun heq => by
      rw [heq] at h₂
      rw [hsame, TokenProgram.balance_congr (congrFun (hT.transfer_self h₂) _)]
      exact hgain
    treasury_open := fun h hbal => by
      rw [hsame] at hbal
      rw [TokenProgram.Holds.congr (hopen hbal), hT.transfer_holds h₂, hV.redeem_holds h₁]
      exact h
    holds := fun hk h => by
      rw [TokenProgram.Holds.congr (hkept _ hk), hT.transfer_holds h₂, hV.redeem_holds h₁]
      exact h
    gains := fun ho h hk => by
      rw [TokenProgram.balance_congr (hkept _ hk)]
      exact le_trans (hescrow.gains ho h) (hT.transfer_balance_ge h₂ hk)
    other := fun ho h hk hd => by
      rw [hkept _ hk, hT.transfer_other h₂ hk hd]
      exact hescrow.other ho h hd }

end FractionAuction.AuctionProgram
