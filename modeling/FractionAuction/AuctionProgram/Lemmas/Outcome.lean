import FractionAuction.AuctionProgram.Lemmas.Custody

/-!
# The outcome

What never changes once it is set, and what is settled when the time is over.
-/

namespace FractionAuction.AuctionProgram

open FixedPoint Lts

variable {T : TokenProgram Pubkey} {V : VaultProgram T} {v : Pubkey} {w w' u : World V} {e : Event}
  {es : List Event}

/-! ## Later states -/

/-- What an auction may have become: its terms are fixed, a paid fee stays paid, and once it is over by `clock`
so is its outcome. -/
structure Auction.Later (clock : Clock) (a a' : Auction) : Prop where
  settings : a'.settings = a.settings
  paymentMint : a'.paymentMint = a.paymentMint
  paymentTreasury : a'.paymentTreasury = a.paymentTreasury
  reservePrice : a'.reservePrice = a.reservePrice
  paid : a.feePaid = true → a'.feePaid = true
  outcome : a.endTimestamp ≤ getCurrentTimestamp clock →
    a'.topBid = a.topBid ∧ a'.topBidder = a.topBidder ∧ a'.endTimestamp = a.endTimestamp

structure Later (w w' : World V) : Prop where
  clock : w.clock ≤ w'.clock
  settings {k s} : w.settings k = some s → w'.settings k = some s
  auction {a} : w.auction = some a → ∃ a', w'.auction = some a' ∧ a.Later w.clock a'

theorem Auction.Later.refl (clock : Clock) (a : Auction) : a.Later clock a :=
  ⟨rfl, rfl, rfl, rfl, id, fun _ => ⟨rfl, rfl, rfl⟩⟩

theorem Auction.Later.trans {c c' : Clock} {a b d : Auction} (hc : c ≤ c') (h : a.Later c b)
    (h' : b.Later c' d) : a.Later c d where
  settings := h'.settings.trans h.settings
  paymentMint := h'.paymentMint.trans h.paymentMint
  paymentTreasury := h'.paymentTreasury.trans h.paymentTreasury
  reservePrice := h'.reservePrice.trans h.reservePrice
  paid hp := h'.paid (h.paid hp)
  outcome hover := by
    obtain ⟨hbid, hbidder, hend⟩ := h.outcome hover
    obtain ⟨hbid', hbidder', hend'⟩ :=
      h'.outcome (hend ▸ UInt64.le_trans hover (getCurrentTimestamp_mono hc))
    exact ⟨hbid'.trans hbid, hbidder'.trans hbidder, hend'.trans hend⟩

theorem Later.refl (w : World V) : Later w w :=
  ⟨le_rfl, id, fun {a} ha => ⟨a, ha, Auction.Later.refl _ a⟩⟩

theorem Later.trans (h : Later w u) (h' : Later u w') : Later w w' where
  clock := le_trans h.clock h'.clock
  settings hs := h'.settings (h.settings hs)
  auction ha := by
    obtain ⟨b, hb, hab⟩ := h.auction ha
    obtain ⟨d, hd, hbd⟩ := h'.auction hb
    exact ⟨d, hd, hab.trans h.clock hbd⟩

/-- A step that touches neither the clock, the settings nor the auction. -/
theorem Later.of_eq (hc : w'.clock = w.clock) (hs : w'.settings = w.settings) (ha : w'.auction = w.auction) :
    Later w w' :=
  ⟨le_of_eq hc.symm, fun h => hs ▸ h, fun {a} h => ⟨a, ha ▸ h, Auction.Later.refl _ a⟩⟩

theorem Step.later (h : Step v w e w') : Later w w' := by
  cases h with
  | init hi =>
      obtain rfl := Init.effect hi
      exact Later.of_eq rfl rfl rfl
  | setOwner ho =>
      obtain rfl := SetAuthority.effect ho
      exact Later.of_eq rfl rfl rfl
  | createSettings hs =>
      obtain ⟨hnone, -, rfl⟩ := CreateSettings.effect hs
      refine ⟨le_rfl, fun {k s} hk => ?_, fun {a} ha => ⟨a, ha, Auction.Later.refl _ a⟩⟩
      refine (Function.update_of_ne ?_ _ _).trans hk
      rintro rfl
      simp [hnone] at hk
  | start hs =>
      obtain ⟨s, vault, L, he, rfl⟩ := start_effect hs
      refine ⟨le_rfl, id, fun ha => ?_⟩
      cases he.fresh.symm.trans ha
  | placeBid hb =>
      obtain ⟨a, s, top, L, he, rfl⟩ := placeBid_effect hb
      refine ⟨le_rfl, id, fun {b} hb => ⟨_, rfl, ?_⟩⟩
      obtain rfl : a = b := Option.some.inj (he.auction.symm.trans hb)
      exact ⟨rfl, rfl, rfl, rfl, id, fun hover => absurd he.not_ended (UInt64.not_lt.mpr hover)⟩
  | withdrawBid hw =>
      obtain ⟨a, b, L, he, rfl⟩ := withdrawBid_effect hw
      exact Later.of_eq rfl rfl rfl
  | endAuction hend =>
      obtain ⟨a, s, L, he, rfl⟩ := endAuction_effect hend
      refine ⟨le_rfl, id, fun {b} hb => ⟨_, rfl, ?_⟩⟩
      obtain rfl : a = b := Option.some.inj (he.auction.symm.trans hb)
      exact ⟨rfl, rfl, rfl, rfl, fun _ => rfl, fun _ => ⟨rfl, rfl, rfl⟩⟩
  | claim hc =>
      obtain ⟨a, vault, L, he, rfl⟩ := claim_effect hc
      exact Later.of_eq rfl rfl rfl
  | redeem hr =>
      obtain ⟨a, vault, L, he, rfl⟩ := redeem_effect hr
      exact Later.of_eq rfl rfl rfl
  | tick hle => exact ⟨hle, id, fun {a} ha => ⟨a, ha, Auction.Later.refl _ a⟩⟩
  | outside ho => exact Later.of_eq ho.clock ho.settings ho.auction

theorem later_of_run (h : Run (Step v) w es w') : Later w w' :=
  h.relates Later.refl (fun _ _ _ => Later.trans) fun _ _ _ hstep => hstep.later

/-! ## What cannot happen again -/

theorem no_start_later {a : Auction} (ha : w.auction = some a) (h : Run (Step v) w es w') (ctx : Start)
    (n r : UInt64) : Event.start ctx n r ∉ es := by
  intro hmem
  obtain ⟨_, x, y, _, -, hbefore, hstep, -⟩ := h.of_mem hmem
  obtain ⟨a', ha', -⟩ := (later_of_run hbefore).auction ha
  cases hstep with
  | start hs =>
      obtain ⟨_, _, _, he, -⟩ := start_effect hs
      cases he.fresh.symm.trans ha'

theorem no_bid_later {a : Auction} (ha : w.auction = some a)
    (hover : a.endTimestamp ≤ getCurrentTimestamp w.clock) (h : Run (Step v) w es w') (ctx : PlaceBid)
    (n : UInt64) : Event.placeBid ctx n ∉ es := by
  intro hmem
  obtain ⟨_, x, y, _, -, hbefore, hstep, -⟩ := h.of_mem hmem
  have hlater := later_of_run hbefore
  obtain ⟨a', ha', hsame⟩ := hlater.auction ha
  cases hstep with
  | placeBid hb =>
      obtain ⟨b, _, _, _, he, -⟩ := placeBid_effect hb
      obtain rfl : a' = b := Option.some.inj (ha'.symm.trans he.auction)
      have hopen := he.not_ended
      rw [(hsame.outcome hover).2.2] at hopen
      exact absurd hopen (UInt64.not_lt.mpr (UInt64.le_trans hover (getCurrentTimestamp_mono hlater.clock)))

theorem no_end_later {a : Auction} (ha : w.auction = some a) (hp : a.feePaid = true)
    (h : Run (Step v) w es w') (ctx : End) (f : UInt64) : Event.endAuction ctx f ∉ es := by
  intro hmem
  obtain ⟨_, x, y, _, -, hbefore, hstep, -⟩ := h.of_mem hmem
  obtain ⟨a', ha', hsame⟩ := (later_of_run hbefore).auction ha
  cases hstep with
  | endAuction hend =>
      obtain ⟨b, _, _, he, -⟩ := endAuction_effect hend
      obtain rfl : a' = b := Option.some.inj (ha'.symm.trans he.auction)
      exact absurd ((hsame.paid hp).symm.trans he.not_paid) (by decide)

/-! ## What the events tell -/

def Event.bid : Event → Option (Pubkey × UInt64)
  | .start ctx n _ => some (ctx.bidder.key, n)
  | .placeBid ctx n => some (ctx.bidder.key, n)
  | _ => none

/-- The accepted bids, in order. -/
def bids (es : List Event) : List (Pubkey × UInt64) := es.filterMap Event.bid

theorem bids_append (es : List Event) (e : Event) : bids (es ++ [e]) = bids es ++ e.bid.toList := by
  rw [bids, List.filterMap_append, bids]
  cases h : e.bid <;> simp [h]

/-- The top bid is the last one accepted, and the fee is paid by `end`. -/
structure Told (es : List Event) (w : World V) : Prop where
  bid {a} : w.auction = some a → (bids es).getLast? = some (a.topBidder, a.topBid)
  paid {a} : w.auction = some a → a.feePaid = true → ∃ ctx f, Event.endAuction ctx f ∈ es

theorem Told.congr (ht : Told es w) (hbid : e.bid = none) (ha : w'.auction = w.auction) :
    Told (es ++ [e]) w' := by
  constructor
  · intro a h
    simpa [bids_append, hbid] using ht.bid (ha ▸ h)
  · intro a h hp
    obtain ⟨ctx, f, hmem⟩ := ht.paid (ha ▸ h) hp
    exact ⟨ctx, f, List.mem_append_left _ hmem⟩

theorem Told.step (ht : Told es w) (h : Step v w e w') : Told (es ++ [e]) w' := by
  cases h with
  | init hi =>
      obtain rfl := Init.effect hi
      exact ht.congr rfl rfl
  | setOwner ho =>
      obtain rfl := SetAuthority.effect ho
      exact ht.congr rfl rfl
  | createSettings hs =>
      obtain ⟨-, -, rfl⟩ := CreateSettings.effect hs
      exact ht.congr rfl rfl
  | start hs =>
      obtain ⟨s, vault, L, he, rfl⟩ := start_effect hs
      constructor
      · intro a' ha'
        cases ha'
        simp [bids_append, Event.bid, Start.opened]
      · intro a' ha' hp
        cases ha'
        cases hp
  | placeBid hb =>
      obtain ⟨a, s, top, L, he, rfl⟩ := placeBid_effect hb
      constructor
      · intro a' ha'
        cases ha'
        simp [bids_append, Event.bid, Auction.outbid]
      · intro a' ha' hp
        cases ha'
        obtain ⟨ctx, f, hmem⟩ := ht.paid he.auction hp
        exact ⟨ctx, f, List.mem_append_left _ hmem⟩
  | withdrawBid hw =>
      obtain ⟨a, b, L, he, rfl⟩ := withdrawBid_effect hw
      exact ht.congr rfl rfl
  | endAuction hend =>
      obtain ⟨a, s, L, he, rfl⟩ := endAuction_effect hend
      constructor
      · intro a' ha'
        cases ha'
        have := ht.bid he.auction
        simpa [bids_append, Event.bid] using this
      · intro a' ha' _
        cases ha'
        exact ⟨_, _, List.mem_append_right _ (List.mem_singleton_self _)⟩
  | claim hc =>
      obtain ⟨a, vault, L, he, rfl⟩ := claim_effect hc
      exact ht.congr rfl rfl
  | redeem hr =>
      obtain ⟨a, vault, L, he, rfl⟩ := redeem_effect hr
      exact ht.congr rfl rfl
  | tick _ => exact ht.congr rfl rfl
  | outside ho => exact ht.congr rfl ho.auction

theorem Told.run {w₀ : World V} (h₀ : Genesis w₀) (h : Run (Step v) w₀ es w) : Told es w :=
  h.invariant_trace (fun _ _ _ _ ht hstep => ht.step hstep)
    ⟨fun ha => by simp [h₀.auction] at ha, fun ha => by simp [h₀.auction] at ha⟩

/-! ## Closing events -/

/-- The transactions that need the auction to be over. -/
def Event.Closes : Event → Prop
  | .endAuction _ _ => True
  | .claim _ _ => True
  | .redeem _ _ _ => True
  | _ => False

theorem over_of_closes (h : Step v w e w') (hc : e.Closes) :
    ∃ a, w.auction = some a ∧ a.endTimestamp ≤ getCurrentTimestamp w.clock := by
  cases h with
  | endAuction hend =>
      obtain ⟨a, _, _, he, -⟩ := endAuction_effect hend
      exact ⟨a, he.auction, he.ended⟩
  | claim hcl =>
      obtain ⟨a, _, _, he, -⟩ := claim_effect hcl
      exact ⟨a, he.auction, he.ended⟩
  | redeem hr =>
      obtain ⟨a, _, _, he, -⟩ := redeem_effect hr
      exact ⟨a, he.auction, he.ended⟩
  | init _ | setOwner _ | createSettings _ | start _ | placeBid _ | withdrawBid _ | tick _ | outside _ =>
      exact hc.elim

/-- `w` has the top bid, the top bidder and the end of `u`. -/
def SameOutcome (u w : World V) : Prop := ∃ a a', u.auction = some a ∧ w.auction = some a' ∧
  a'.topBid = a.topBid ∧ a'.topBidder = a.topBidder ∧ a'.endTimestamp = a.endTimestamp

theorem settled_of_closes (hstep : Step v u e w) (hc : e.Closes) (h : Run (Step v) w es w') :
    (∀ ctx n, Event.placeBid ctx n ∉ es) ∧ SameOutcome u w' := by
  obtain ⟨a, ha, hover⟩ := over_of_closes hstep hc
  have hrun := h.cons hstep
  obtain ⟨a', ha', hsame⟩ := (later_of_run hrun).auction ha
  refine ⟨fun ctx n hmem => ?_, a, a', ha, ha', hsame.outcome hover⟩
  exact no_bid_later ha hover hrun ctx n (List.mem_cons_of_mem _ hmem)

/-- The winner signs every claim. -/
theorem winner_of_step {ctx : Claim} {n : UInt64} (h : Step v w (.claim ctx n) w') :
    ∃ a, w.auction = some a ∧ ctx.bidder.key = a.topBidder := by
  cases h with
  | claim hc =>
      obtain ⟨a, _, _, he, -⟩ := claim_effect hc
      exact ⟨a, he.auction, he.winner⟩

theorem fee_of_step {ctx : End} {f : UInt64} (h : Step v w (.endAuction ctx f) w') :
    ∃ a s, w.auction = some a ∧ w.settings a.settings = some s ∧ calculateFee a.topBid s.facilitatorFee = .ok f ∧
      a.endTimestamp ≤ getCurrentTimestamp w.clock := by
  cases h with
  | endAuction hend =>
      obtain ⟨a, s, _, he, -⟩ := endAuction_effect hend
      exact ⟨a, s, he.auction, he.settings, he.fee, he.ended⟩

theorem settings_of_step {ctx : Start} {n r : UInt64} (h : Step v w (.start ctx n r) w') :
    ∃ a s, w'.auction = some a ∧ a.settings = ctx.settings ∧ w.settings ctx.settings = some s := by
  cases h with
  | start hs =>
      obtain ⟨s, _, _, he, rfl⟩ := start_effect hs
      exact ⟨_, s, rfl, rfl, he.settings⟩

theorem paid_of_step {ctx : Redeem} {n p : UInt64} (h : Step v w (.redeem ctx n p) w') :
    ∃ a, w.auction = some a ∧ a.feePaid = true := by
  cases h with
  | redeem hr =>
      obtain ⟨a, _, _, he, -⟩ := redeem_effect hr
      exact ⟨a, he.auction, he.paid⟩

theorem paid_after_end {ctx : End} {f : UInt64} (h : Step v w (.endAuction ctx f) w') :
    ∃ a, w'.auction = some a ∧ a.feePaid = true := by
  cases h with
  | endAuction hend =>
      obtain ⟨a, _, _, -, rfl⟩ := endAuction_effect hend
      exact ⟨_, rfl, rfl⟩

/-- The fee is transferred to where `end` was told, and arrives there unless that is the treasury itself. -/
theorem delivered_of_step (hT : T.Lawful) {ctx : End} {f : UInt64} (h : Step v w (.endAuction ctx f) w') :
    ∃ a, w.auction = some a ∧
      T.transfer a.paymentTreasury ctx.feeTokenAccount (.auction v) f w.ledger = some w'.ledger ∧
      (a.paymentTreasury ≠ ctx.feeTokenAccount →
        T.balance w'.ledger ctx.feeTokenAccount = T.balance w.ledger ctx.feeTokenAccount + f.toNat ∧
        T.balance w'.ledger a.paymentTreasury + f.toNat = T.balance w.ledger a.paymentTreasury) := by
  cases h with
  | endAuction hend =>
      obtain ⟨a, s, L, he, rfl⟩ := endAuction_effect hend
      have htransfer := he.tokens
      rw [← he.treasury] at htransfer
      refine ⟨a, he.auction, htransfer, fun hne => ?_⟩
      exact ⟨hT.transfer_balance_destination htransfer hne, hT.transfer_balance_source htransfer hne⟩

/-! ## The outcome of a run -/

structure Final (v : Pubkey) (w₀ : World V) (es : List Event) (w : World V) : Prop where
  closed {before u e u' after} : Passage (Step v) w₀ es w before u e u' after → e.Closes →
    (∀ ctx n, Event.placeBid ctx n ∉ after) ∧ SameOutcome u w
  winner {ctx n} : Event.claim ctx n ∈ es → ∃ m, (bids es).getLast? = some (ctx.bidder.key, m)
  end_once {before ctx f after} : es = before ++ .endAuction ctx f :: after →
    ∀ ctx' f', Event.endAuction ctx' f' ∉ after
  /-- The fee is that of the final top bid, at the rate of the settings that `start` named. -/
  fee {before u ctx n r u' after} : Passage (Step v) w₀ es w before u (.start ctx n r) u' after →
    ∃ a s, w.auction = some a ∧ u.settings ctx.settings = some s ∧
      ∀ ctx' f, Event.endAuction ctx' f ∈ es → calculateFee a.topBid s.facilitatorFee = .ok f
  delivered {before u ctx f u' after} : Passage (Step v) w₀ es w before u (.endAuction ctx f) u' after →
    ∃ a, u.auction = some a ∧
      T.transfer a.paymentTreasury ctx.feeTokenAccount (.auction v) f u.ledger = some u'.ledger ∧
      (a.paymentTreasury ≠ ctx.feeTokenAccount →
        T.balance u'.ledger ctx.feeTokenAccount = T.balance u.ledger ctx.feeTokenAccount + f.toNat ∧
        T.balance u'.ledger a.paymentTreasury + f.toNat = T.balance u.ledger a.paymentTreasury)
  end_first {before ctx n p after} : es = before ++ .redeem ctx n p :: after →
    ∃ ctx' f, Event.endAuction ctx' f ∈ before
  start_once {before ctx n r after} : es = before ++ .start ctx n r :: after →
    ∀ ctx' n' r', Event.start ctx' n' r' ∉ after

theorem last_bidder_of_claim {w₀ : World V} (h₀ : Genesis w₀) (h : Run (Step v) w₀ es w) {ctx : Claim}
    {n : UInt64} (hmem : Event.claim ctx n ∈ es) :
    ∃ m, (bids es).getLast? = some (ctx.bidder.key, m) := by
  obtain ⟨before, u, u', after, hp⟩ := h.of_mem hmem
  obtain ⟨a, ha, hwinner⟩ := winner_of_step hp.taken
  obtain ⟨-, b, b', hb, hb', -, hbidder, -⟩ := settled_of_closes hp.taken trivial hp.rest
  obtain rfl : a = b := Option.some.inj (ha.symm.trans hb)
  refine ⟨b'.topBid, ?_⟩
  rw [(Told.run h₀ h).bid hb', hbidder, hwinner]

/-- The auction of a started run, with the settings that `start` named. -/
theorem fee_of_end {w₀ : World V} {before after : List Event} {ctx : Start} {n r : UInt64}
    (hp : Passage (Step v) w₀ es w before u (.start ctx n r) w' after) :
    ∃ a s, w.auction = some a ∧ u.settings ctx.settings = some s ∧
      ∀ ctx' f, Event.endAuction ctx' f ∈ es → calculateFee a.topBid s.facilitatorFee = .ok f := by
  obtain ⟨b, s, hb, hset, hs⟩ := settings_of_step hp.taken
  obtain ⟨a, ha, hlater⟩ := (later_of_run hp.rest).auction hb
  refine ⟨a, s, ha, hs, fun ctx' f hmem => ?_⟩
  rw [hp.events, List.mem_append, List.mem_cons] at hmem
  rcases hmem with hbefore | hthis | hafter
  · -- nothing can end before `start`
    obtain ⟨_, x, y, rest, hq⟩ := hp.reached.of_mem hbefore
    obtain ⟨c, _, hc, -⟩ := fee_of_step hq.taken
    obtain ⟨d, hd, -⟩ := (later_of_run (hq.rest.cons hq.taken)).auction hc
    cases hp.taken with
    | start hst =>
        obtain ⟨_, _, _, he, -⟩ := start_effect hst
        cases he.fresh.symm.trans hd
  · cases hthis
  · obtain ⟨_, x, y, rest, hq⟩ := hp.rest.of_mem hafter
    obtain ⟨c, s', hc, hs', hfee, -⟩ := fee_of_step hq.taken
    obtain ⟨-, c', a', hc', ha', htop, -, -⟩ := settled_of_closes hq.taken trivial hq.rest
    obtain rfl : c = c' := Option.some.inj (hc.symm.trans hc')
    obtain rfl : a = a' := Option.some.inj (ha.symm.trans ha')
    obtain ⟨c', hc', hsame⟩ := (later_of_run hq.reached).auction hb
    obtain rfl : c = c' := Option.some.inj (hc.symm.trans hc')
    have hkept := (later_of_run (hq.reached.cons hp.taken)).settings hs
    rw [hsame.settings, hset] at hs'
    obtain rfl : s = s' := Option.some.inj (hkept.symm.trans hs')
    rwa [htop]

theorem Final.run (hT : T.Lawful) {w₀ : World V} (h₀ : Genesis w₀) (h : Run (Step v) w₀ es w) :
    Final v w₀ es w where
  closed hp hc := settled_of_closes hp.taken hc hp.rest
  winner hmem := last_bidder_of_claim h₀ h hmem
  end_once hes := by
    subst hes
    obtain ⟨u, u', hp⟩ := h.passage
    obtain ⟨a, ha, hpaid⟩ := paid_after_end hp.taken
    exact no_end_later ha hpaid hp.rest
  fee hp := fee_of_end hp
  delivered hp := delivered_of_step hT hp.taken
  end_first hes := by
    subst hes
    obtain ⟨u, u', hp⟩ := h.passage
    obtain ⟨a, ha, hpaid⟩ := paid_of_step hp.taken
    exact (Told.run h₀ hp.reached).paid ha hpaid
  start_once hes := by
    subst hes
    obtain ⟨u, u', hp⟩ := h.passage
    obtain ⟨a, _, ha, -⟩ := settings_of_step hp.taken
    exact no_start_later ha hp.rest

/-! ## Rising bids -/

/-- The increment over the top bid, over the integers. -/
def increment (topBid bidIncrement : UInt64) : ℕ := topBid.toNat * bidIncrement.toNat / 1000000000

/-- The bids that pass the check are above the top bid and its increment exactly if the increment is not zero
and the sum fits 64 bits. -/
theorem sufficient_iff (t i : UInt64) :
    (∀ b, assertSufficientBid b t i = .ok () → t < b ∧ t.toNat + increment t i ≤ b.toNat) ↔
      1 ≤ increment t i ∧ t.toNat + increment t i < 2 ^ 64 := by
  constructor
  · intro h
    by_contra hno
    rcases Nat.eq_zero_or_pos (increment t i) with h0 | hpos
    · -- without an increment the top bid itself passes
      have hpass : assertSufficientBid t t i = .ok () := by
        rw [assertSufficientBid_ok, UInt64.le_iff_toNat_le]
        change (t + narrow (increment t i)).toNat ≤ t.toNat
        rw [h0, toNat_add_of_lt (by simpa [toNat_narrow] using toNat_lt t), toNat_narrow]
        simp
      exact absurd (h t hpass).1 (UInt64.lt_irrefl t)
    · -- a sum that does not fit is above every word
      have hlarge : 2 ^ 64 ≤ t.toNat + increment t i := by omega
      have hpass : assertSufficientBid (narrow (2 ^ 64 - 1)) t i = .ok () := by
        rw [assertSufficientBid_ok, UInt64.le_iff_toNat_le, toNat_narrow_of_lt (by omega)]
        have := toNat_lt (t + narrow (t.toNat * i.toNat / 1000000000))
        omega
      have hsum := (h _ hpass).2
      rw [toNat_narrow_of_lt (by omega)] at hsum
      omega
  · rintro ⟨hpos, hfits⟩ b hb
    have hi : (narrow (increment t i)).toNat = increment t i := toNat_narrow_of_lt (by omega)
    have hle : (t + narrow (increment t i)).toNat ≤ b.toNat :=
      UInt64.le_iff_toNat_le.mp (assertSufficientBid_ok.mp hb)
    rw [toNat_add_of_lt (by omega), hi] at hle
    exact ⟨UInt64.lt_iff_toNat_lt.mpr (by omega), hle⟩

/-- A bid that has an increment to make, which does not wrap. -/
def Raises (w : World V) : Event → Prop
  | .placeBid _ _ => ∀ a ∈ w.auction, ∀ s ∈ w.settings a.settings,
      1 ≤ increment a.topBid s.bidIncrement ∧ a.topBid.toNat + increment a.topBid s.bidIncrement < 2 ^ 64
  | _ => True

instance (w : World V) (e : Event) : Decidable (Raises w e) :=
  match e with
  | .placeBid _ _ => inferInstanceAs (Decidable (∀ a ∈ w.auction, _))
  | .init _ | .setOwner _ _ | .createSettings _ _ _ _ _ | .start _ _ _ | .withdrawBid _ _ | .endAuction _ _
  | .claim _ _ | .redeem _ _ _ | .tick _ | .outside _ => inferInstanceAs (Decidable True)

theorem raised_of_step {ctx : PlaceBid} {n : UInt64} (h : restrict (Step v) Raises w (.placeBid ctx n) w') :
    ∃ a s, w.auction = some a ∧ w.settings a.settings = some s ∧ a.topBid < n ∧
      a.topBid.toNat + increment a.topBid s.bidIncrement ≤ n.toNat := by
  obtain ⟨hstep, hk⟩ := h
  cases hstep with
  | placeBid hb =>
      obtain ⟨a, s, top, L, he, rfl⟩ := placeBid_effect hb
      exact ⟨a, s, he.auction, he.settings,
        (sufficient_iff _ _).mpr (hk a he.auction s he.settings) n he.sufficient⟩

/-- The accepted bids rise, the last is the top bid, and it is not below the minimum of `start`. -/
structure Rising (es : List Event) (w : World V) : Prop where
  unstarted : w.auction = none → bids es = []
  sorted : (bids es).Pairwise fun x y => x.2 < y.2
  below {a} : w.auction = some a → ∀ x ∈ bids es, x.2 ≤ a.topBid
  settings {a} : w.auction = some a → ∃ s, w.settings a.settings = some s
  minimum {a s m} : w.auction = some a → w.settings a.settings = some s →
    calculateMinimumStartingBid a.reservePrice s.facilitatorFee = .ok m → m ≤ a.topBid

theorem Rising.congr (hr : Rising es w) (hbid : e.bid = none)
    (ha : ∀ a' ∈ w'.auction, ∃ a ∈ w.auction, a'.topBid = a.topBid ∧ a'.settings = a.settings ∧
      a'.reservePrice = a.reservePrice) (hsome : w'.auction = none → w.auction = none)
    (hs : ∀ a ∈ w.auction, w'.settings a.settings = w.settings a.settings) : Rising (es ++ [e]) w' := by
  have hbids : bids (es ++ [e]) = bids es := by simp [bids_append, hbid]
  constructor
  case unstarted => exact fun h => hbids.trans (hr.unstarted (hsome h))
  case sorted => exact hbids ▸ hr.sorted
  case below =>
    intro a' ha'
    obtain ⟨a, h, htop, -, -⟩ := ha a' ha'
    rw [hbids, htop]
    exact hr.below h
  case settings =>
    intro a' ha'
    obtain ⟨a, h, -, hset, -⟩ := ha a' ha'
    rw [hset, hs a h]
    exact hr.settings h
  case minimum =>
    intro a' s m ha'
    obtain ⟨a, h, htop, hset, hres⟩ := ha a' ha'
    rw [hset, hs a h, hres, htop]
    exact hr.minimum h

theorem Rising.step (hr : Rising es w) (h : restrict (Step v) Raises w e w') : Rising (es ++ [e]) w' := by
  obtain ⟨hstep, hk⟩ := h
  have hsame {a : Auction} (ha : w.auction = some a) : ∃ b ∈ w.auction, a.topBid = b.topBid ∧
      a.settings = b.settings ∧ a.reservePrice = b.reservePrice := ⟨a, ha, rfl, rfl, rfl⟩
  cases hstep with
  | init hi =>
      obtain rfl := Init.effect hi
      exact hr.congr rfl (fun _ ha => hsame ha) id (fun _ _ => rfl)
  | setOwner ho =>
      obtain rfl := SetAuthority.effect ho
      exact hr.congr rfl (fun _ ha => hsame ha) id (fun _ _ => rfl)
  | createSettings hs =>
      obtain ⟨hnone, -, rfl⟩ := CreateSettings.effect hs
      refine hr.congr rfl (fun _ ha => hsame ha) id (fun a ha => Function.update_of_ne ?_ _ _)
      intro heq
      obtain ⟨s, hs⟩ := hr.settings ha
      rw [heq, hnone] at hs
      cases hs
  | start hs =>
      obtain ⟨s, vault, L, he, rfl⟩ := start_effect hs
      have hbids := bids_append es
      rw [hr.unstarted he.fresh] at hbids
      constructor
      case unstarted => exact nofun
      case sorted => simp [hbids, Event.bid]
      case below =>
        intro a' ha'
        cases ha'
        simp [hbids, Event.bid, Start.opened]
      case settings =>
        intro a' ha'
        cases ha'
        exact ⟨s, he.settings⟩
      case minimum =>
        intro a' s' m ha' hs' hm
        cases ha'
        obtain rfl : s = s' := Option.some.inj (he.settings.symm.trans hs')
        obtain ⟨m', hm', hle⟩ := he.minimum
        obtain rfl : m' = m := Except.ok.inj (hm'.symm.trans hm)
        exact hle
  | placeBid hb =>
      obtain ⟨a, s, ha, hset, hlt, -⟩ := raised_of_step ⟨.placeBid hb, hk⟩
      obtain ⟨a', s', top, L, he, rfl⟩ := placeBid_effect hb
      obtain rfl : a = a' := Option.some.inj (ha.symm.trans he.auction)
      have hup {x : UInt64} (hx : x ≤ a.topBid) : x < _ := UInt64.lt_of_le_of_lt hx hlt
      constructor
      case unstarted => exact nofun
      case sorted =>
        simp only [bids_append, Event.bid, Option.toList_some, List.pairwise_append]
        refine ⟨hr.sorted, List.pairwise_singleton _ _, ?_⟩
        intro x hx y hy
        obtain rfl := List.mem_singleton.mp hy
        exact hup (hr.below ha x hx)
      case below =>
        intro a' ha' x hx
        cases ha'
        simp only [bids_append, Event.bid, Option.toList_some, List.mem_append, List.mem_singleton] at hx
        rcases hx with hx | rfl
        · exact UInt64.le_of_lt (hup (hr.below ha x hx))
        · exact UInt64.le_refl _
      case settings =>
        intro a' ha'
        cases ha'
        exact ⟨s, hset⟩
      case minimum =>
        intro a' s' m ha' hs' hm
        cases ha'
        exact UInt64.le_of_lt (hup (hr.minimum ha hs' hm))
  | withdrawBid hw =>
      obtain ⟨a, b, L, he, rfl⟩ := withdrawBid_effect hw
      exact hr.congr rfl (fun _ ha => hsame ha) id (fun _ _ => rfl)
  | endAuction hend =>
      obtain ⟨a, s, L, he, rfl⟩ := endAuction_effect hend
      refine hr.congr rfl ?_ nofun (fun _ _ => rfl)
      intro a' ha'
      cases ha'
      exact ⟨a, he.auction, rfl, rfl, rfl⟩
  | claim hc =>
      obtain ⟨a, vault, L, he, rfl⟩ := claim_effect hc
      exact hr.congr rfl (fun _ ha => hsame ha) id (fun _ _ => rfl)
  | redeem hred =>
      obtain ⟨a, vault, L, he, rfl⟩ := redeem_effect hred
      exact hr.congr rfl (fun _ ha => hsame ha) id (fun _ _ => rfl)
  | tick _ => exact hr.congr rfl (fun _ ha => hsame ha) id (fun _ _ => rfl)
  | outside ho =>
      refine hr.congr rfl (fun _ ha => hsame (ho.auction ▸ ha)) (fun h => ho.auction ▸ h) ?_
      rw [ho.settings]
      exact fun _ _ => rfl

theorem Rising.run {w₀ : World V} (h₀ : Genesis w₀) (h : Run (restrict (Step v) Raises) w₀ es w) :
    Rising es w :=
  h.invariant_trace (fun _ _ _ _ hr hstep => hr.step hstep)
    { unstarted := fun _ => rfl
      sorted := .nil
      below := fun ha => by simp [h₀.auction] at ha
      settings := fun ha => by simp [h₀.auction] at ha
      minimum := fun ha => by simp [h₀.auction] at ha }

end FractionAuction.AuctionProgram
