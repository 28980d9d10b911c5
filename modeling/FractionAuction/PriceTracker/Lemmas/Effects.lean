import FractionAuction.PriceTracker.System

/-!
# What a successful instruction does

One lemma for each instruction. The later proofs use these and never unfold a handler.
-/

namespace FractionAuction.PriceTracker

open Guard FixedPoint

variable {T : TokenProgram Pubkey} {pa : Pubkey} {w w' : World T}

/-! ## The shared expressions -/

/-- The value of votes at a price, over the integers. -/
def share (votes price : UInt64) : ℕ := votes.toNat * price.toNat / 1000000000

/-- The weighted average of all prices, over the integers. -/
def average (tokenInfo : TokenInfo) : ℕ :=
  tokenInfo.reserveTotal.toNat * 1000000000 / tokenInfo.totalVotes.toNat

/-- The price both vote instructions publish. -/
def published (tokenInfo : TokenInfo) : UInt64 :=
  if tokenInfo.totalVotes > 0 then max tokenInfo.minPrice (narrow (average tokenInfo))
  else tokenInfo.minPrice

theorem unit_toNat : unit.toNat = 1000000000 := rfl

theorem contribution_ok {votes price c : UInt64} :
    contribution votes price = .ok c ↔ c = narrow (share votes price) := by
  simp [contribution, mulDiv_eq_some, share, unit_toNat]

theorem halfSupply_ok {supply h : UInt64} : halfSupply supply = .ok h ↔ h = supply / 2 := by
  rw [halfSupply, okOr_ok_iff, checkedDiv64, if_neg (by decide), Option.some.injEq, eq_comm]

theorem pricePerShare_ok {tokenInfo : TokenInfo} {p : UInt64} :
    pricePerShare tokenInfo = .ok p ↔ p = published tokenInfo := by
  unfold pricePerShare published
  split
  · rename_i h
    have h0 : tokenInfo.totalVotes.toNat ≠ 0 := by
      have := UInt64.lt_iff_toNat_lt.mp h
      simpa using this.ne'
    simp only [bind_ok_iff, okOr_ok_iff, mulDiv_eq_some, pure_ok_iff, unit_toNat]
    constructor
    · rintro ⟨_, ⟨-, rfl⟩, rfl⟩
      rfl
    · rintro rfl
      exact ⟨_, ⟨h0, rfl⟩, rfl⟩
  · rw [pure_ok_iff, eq_comm]

/-! ## Accounts -/

theorem VoteAccounts.check_ok {ledger : T.Ledger} {ctx : VoteAccounts} {c : VoteContext}
    (hload : ctx.load ledger = .ok c) (hcheck : ctx.check pa c = .ok ()) :
    T.Holds ledger ctx.store ctx.storeMint (.storeAuthority pa) ∧
      T.Holds ledger ctx.userTokenAccount ctx.storeMint ctx.signer.key ∧
      T.account ledger ctx.userTokenAccount = some c.userTokenAccount ∧
      T.supply ledger ctx.storeMint = some c.storeMintSupply := by
  simp only [VoteAccounts.load, bind_ok_iff, okOr_ok_iff, pure_ok_iff] at hload
  obtain ⟨store, hstore, user, huser, supply, hsupply, rfl⟩ := hload
  simp only [VoteAccounts.check, bind_ok_iff, ensure_ok_iff] at hcheck
  obtain ⟨_, hm, _, ho, _, huo, hum⟩ := hcheck
  exact ⟨hm ▸ ho ▸ TokenProgram.holds_of_account hstore,
    hum ▸ huo ▸ TokenProgram.holds_of_account huser, huser, hsupply⟩

/-! ## Instructions -/

theorem Initial.elim (h : Initial pa w) : ∃ (ledger : T.Ledger) (ctx : Initialize) (minPrice : UInt64),
    T.initializeAccount ctx.store ctx.storeMint (.storeAuthority pa) ledger = some w.ledger ∧
      w.priceAccount = ⟨0, 0, ctx.redeemMint, false⟩ ∧
      w.tokenInfo = ⟨0, 0, minPrice, ctx.storeMint, ctx.store, ctx.lockedMint, ctx.signer.key⟩ ∧
      w.users = ∅ := by
  obtain ⟨ledger, ctx, minPrice, h⟩ := h
  simp only [Initialize.handler, bind_ok_iff, okOr_ok_iff, pure_ok_iff] at h
  obtain ⟨_, _, _, _, _, _, ledger', hl, rfl⟩ := h
  exact ⟨ledger, ctx, minPrice, hl, rfl, rfl, rfl⟩

theorem InitUserInfo.effect {ctx : InitUserInfo} (h : ctx.handler w = .ok w') :
    w.users.lookup ctx.signer.key = none ∧
      w' = { w with users := w.users.insert ctx.signer.key ⟨0, 0⟩ } := by
  simp only [InitUserInfo.handler, bind_ok_iff, okOr_ok_iff, ensure_ok_iff, pure_ok_iff] at h
  obtain ⟨_, _, _, hnone, rfl⟩ := h
  exact ⟨hnone, rfl⟩

theorem SetMinPrice.effect {ctx : SetMinPrice} {m : UInt64} (h : ctx.handler w m = .ok w') :
    w.tokenInfo.authority = ctx.authority.key ∧
      w' = { w with tokenInfo := { w.tokenInfo with minPrice := m } } := by
  simp only [SetMinPrice.handler, bind_ok_iff, ensure_ok_iff, pure_ok_iff] at h
  obtain ⟨_, ha, rfl⟩ := h
  exact ⟨ha, rfl⟩

structure AddVotes.Effect (pa : Pubkey) (w : World T) (ctx : AddVotes) (votes price : UInt64)
    (w' : World T) : Prop where
  store : T.Holds w.ledger ctx.store ctx.storeMint (.storeAuthority pa)
  payer : T.Holds w.ledger ctx.userTokenAccount ctx.storeMint ctx.signer.key
  funds : votes.toNat ≤ T.balance w.ledger ctx.userTokenAccount
  minimum : w.tokenInfo.minPrice ≤ price
  bounds : AddVotes.checkPrice w.tokenInfo w.priceAccount price = .ok ()
  deposit : AddVotes.deposit ctx votes w.ledger = .ok w'.ledger
  tokenInfo : w'.tokenInfo = { w.tokenInfo with
    reserveTotal := w.tokenInfo.reserveTotal
      - narrow (share (w.user ctx.signer.key).votes (w.user ctx.signer.key).price)
      + narrow (share ((w.user ctx.signer.key).votes + votes) price)
    totalVotes := w.tokenInfo.totalVotes + votes }
  users : w'.users = w.users.insert ctx.signer.key ⟨price, (w.user ctx.signer.key).votes + votes⟩
  published : w'.priceAccount.pricePerShare = published w'.tokenInfo
  allowed : ∃ supply, T.supply w.ledger ctx.storeMint = some supply ∧
    w'.priceAccount.allowedToCombine =
      if w'.tokenInfo.totalVotes > supply / 2 then true else w.priceAccount.allowedToCombine

theorem addVote_effect {ctx : AddVotes} {votes price : UInt64}
    (h : addVote pa w ctx votes price = .ok w') : AddVotes.Effect pa w ctx votes price w' := by
  simp only [addVote, bind_ok_iff] at h
  obtain ⟨c, hload, _, hcheck, h⟩ := h
  obtain ⟨hstore, hpayer, huser, hsupply⟩ := VoteAccounts.check_ok hload hcheck
  simp only [AddVotes.handler, bind_ok_iff, failIf_ok_iff, contribution_ok, halfSupply_ok,
    pricePerShare_ok, pure_ok_iff] at h
  obtain ⟨_, hfunds, _, hmin, _, hbounds, ledger, hdep, _, rfl, _, rfl, _, rfl, _, rfl, rfl⟩ := h
  exact {
    store := hstore
    payer := hpayer
    funds := by
      rw [TokenProgram.balance_of_account huser]
      exact UInt64.le_iff_toNat_le.mp (UInt64.not_lt.mp hfunds)
    minimum := UInt64.not_lt.mp hmin
    bounds := hbounds
    deposit := hdep
    tokenInfo := rfl
    users := rfl
    published := rfl
    allowed := ⟨_, hsupply, rfl⟩ }

structure RemoveVotes.Effect (pa : Pubkey) (w : World T) (ctx : RemoveVotes) (votes : UInt64)
    (w' : World T) : Prop where
  store : T.Holds w.ledger ctx.store ctx.storeMint (.storeAuthority pa)
  payee : T.Holds w.ledger ctx.userTokenAccount ctx.storeMint ctx.signer.key
  user : w.users.lookup ctx.signer.key = some (w.user ctx.signer.key)
  some_votes : votes ≠ 0
  enough : votes ≤ (w.user ctx.signer.key).votes
  withdrawal : T.transfer ctx.store ctx.userTokenAccount (.storeAuthority pa) votes w.ledger =
    some w'.ledger
  tokenInfo : w'.tokenInfo = { w.tokenInfo with
    reserveTotal := w.tokenInfo.reserveTotal - narrow (share votes (w.user ctx.signer.key).price)
    totalVotes := w.tokenInfo.totalVotes - votes }
  users : w'.users = w.users.insert ctx.signer.key
    ⟨(w.user ctx.signer.key).price, (w.user ctx.signer.key).votes - votes⟩
  published : w'.priceAccount.pricePerShare = published w'.tokenInfo
  allowed : ∃ supply, T.supply w.ledger ctx.storeMint = some supply ∧
    w'.priceAccount.allowedToCombine =
      if w'.tokenInfo.totalVotes ≤ supply / 2 then false else w.priceAccount.allowedToCombine

theorem removeVote_effect {ctx : RemoveVotes} {votes : UInt64}
    (h : removeVote pa w ctx votes = .ok w') : RemoveVotes.Effect pa w ctx votes w' := by
  simp only [removeVote, bind_ok_iff, okOr_ok_iff] at h
  obtain ⟨c, hload, userInfo, huserInfo, _, hcheck, h⟩ := h
  obtain ⟨hstore, hpayee, -, hsupply⟩ := VoteAccounts.check_ok hload hcheck
  have hu : w.user ctx.signer.key = userInfo := by simp [World.user, huserInfo]
  simp only [RemoveVotes.handler, bind_ok_iff, failIf_ok_iff, contribution_ok, halfSupply_ok,
    pricePerShare_ok, okOr_ok_iff, pure_ok_iff] at h
  obtain ⟨_, hzero, _, henough, _, rfl, _, rfl, _, rfl, ledger, hl, rfl⟩ := h
  subst hu
  exact {
    store := hstore
    payee := hpayee
    user := huserInfo
    some_votes := hzero
    enough := UInt64.not_lt.mp henough
    withdrawal := hl
    tokenInfo := rfl
    users := rfl
    published := rfl
    allowed := ⟨_, hsupply, rfl⟩ }

/-! ## What no instruction writes -/

theorem Step.price_frame {e : Event} (h : Step pa w e w') :
    w'.priceAccount.key = w.priceAccount.key ∧ w'.priceAccount.priceMint = w.priceAccount.priceMint := by
  cases h with
  | initUserInfo hi =>
      obtain ⟨-, rfl⟩ := InitUserInfo.effect hi
      exact ⟨rfl, rfl⟩
  | setMinPrice hm =>
      obtain ⟨-, rfl⟩ := SetMinPrice.effect hm
      exact ⟨rfl, rfl⟩
  | addVote ha =>
      simp only [PriceTracker.addVote, AddVotes.handler, bind_ok_iff, pure_ok_iff] at ha
      obtain ⟨_, _, _, _, _, _, _, _, _, _, _, _, _, _, _, _, _, _, _, _, rfl⟩ := ha
      exact ⟨rfl, rfl⟩
  | removeVote hr =>
      simp only [PriceTracker.removeVote, RemoveVotes.handler, bind_ok_iff, pure_ok_iff] at hr
      obtain ⟨_, _, _, _, _, _, _, _, _, _, _, _, _, _, _, _, _, _, rfl⟩ := hr
      exact ⟨rfl, rfl⟩
  | outside _ => exact ⟨rfl, rfl⟩

end FractionAuction.PriceTracker
