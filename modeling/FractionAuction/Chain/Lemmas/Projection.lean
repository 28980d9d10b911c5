import FractionAuction.Chain.Lemmas.Frame

/-!
# One vault, one price account

Whatever all the others do in between, the accounts around one vault go through a run of `AuctionProgram.Step`, and
those of one price account through a run of `PriceTracker.Step`: the transactions of the others are what happens
outside.
-/

namespace FractionAuction.Chain

open Lts

variable {T : TokenProgram Pubkey} {V : AuctionProgram.VaultProgram T}
  {misread : PriceTracker.TokenInfo → Option AuctionProgram.Price} {c c' : State V} {e : Event} {es : List Event}
  {u v : Pubkey}

/-! ## The views -/

/-- Calls about the program itself, which all vaults share. -/
def IsShared : AuctionProgram.Event → Prop
  | .init _ => True
  | .setOwner _ _ => True
  | .createSettings _ _ _ _ _ => True
  | _ => False

theorem prices_put (w : AuctionProgram.World V) : (c.put v w).prices misread = c.prices misread := rfl

theorem around_put_self {w : AuctionProgram.World V} (hclock : w.clock = c.clock)
    (hprices : w.prices = c.prices misread) : (c.put v w).around misread v = w := by
  obtain ⟨clock, authority, settings, prices, vault, auction, bids, ledger⟩ := w
  obtain rfl : clock = c.clock := hclock
  obtain rfl : prices = c.prices misread := hprices
  simp only [State.around, prices_put]
  simp only [State.put, Function.update_self]

theorem around_put_ne {w : AuctionProgram.World V} (hne : v ≠ u) : (c.put u w).around misread v =
    { c.around misread v with authority := w.authority, settings := w.settings, ledger := w.ledger } := by
  simp only [State.around, prices_put]
  simp only [State.put, Function.update_of_ne hne]

/-! ## What a call leaves alone -/

section Frame

open AuctionProgram

variable {w w' : World V} {f : AuctionProgram.Event}

theorem frame_of_call (h : AuctionProgram.Step v w f w') (hcall : IsCall f) :
    w'.clock = w.clock ∧ w'.prices = w.prices ∧
      (¬ IsShared f → w'.authority = w.authority ∧ w'.settings = w.settings) := by
  cases h with
  | init hi =>
      obtain rfl := Init.effect hi
      exact ⟨rfl, rfl, fun hno => (hno trivial).elim⟩
  | setOwner ho =>
      obtain rfl := SetAuthority.effect ho
      exact ⟨rfl, rfl, fun hno => (hno trivial).elim⟩
  | createSettings hs =>
      obtain ⟨-, -, rfl⟩ := CreateSettings.effect hs
      exact ⟨rfl, rfl, fun hno => (hno trivial).elim⟩
  | start hs =>
      obtain ⟨_, _, _, _, rfl⟩ := start_effect hs
      exact ⟨rfl, rfl, fun _ => ⟨rfl, rfl⟩⟩
  | placeBid hb =>
      obtain ⟨_, _, _, _, _, rfl⟩ := placeBid_effect hb
      exact ⟨rfl, rfl, fun _ => ⟨rfl, rfl⟩⟩
  | withdrawBid hw =>
      obtain ⟨_, _, _, _, rfl⟩ := withdrawBid_effect hw
      exact ⟨rfl, rfl, fun _ => ⟨rfl, rfl⟩⟩
  | endAuction hend =>
      obtain ⟨_, _, _, _, rfl⟩ := endAuction_effect hend
      exact ⟨rfl, rfl, fun _ => ⟨rfl, rfl⟩⟩
  | claim hc =>
      obtain ⟨_, _, _, _, rfl⟩ := claim_effect hc
      exact ⟨rfl, rfl, fun _ => ⟨rfl, rfl⟩⟩
  | redeem hr =>
      obtain ⟨_, _, _, _, rfl⟩ := redeem_effect hr
      exact ⟨rfl, rfl, fun _ => ⟨rfl, rfl⟩⟩
  | tick _ | outside _ => exact hcall.elim

/-- A shared call is the same call around every vault. -/
theorem shared_call (h : AuctionProgram.Step u (c.around misread u) f w') (hshared : IsShared f) (hne : v ≠ u) :
    AuctionProgram.Step v (c.around misread v) f ((c.put u w').around misread v) := by
  rw [around_put_ne hne]
  cases h with
  | init hi =>
      apply AuctionProgram.Step.init
      simp only [Init.handler, Guard.bind_ok_iff, Guard.ensure_ok_iff, Guard.pure_ok_iff] at hi ⊢
      obtain ⟨_, hnone, rfl⟩ := hi
      exact ⟨(), hnone, rfl⟩
  | setOwner ho =>
      apply AuctionProgram.Step.setOwner
      simp only [SetAuthority.handler, World.loadAuthority, Guard.bind_ok_iff, Guard.okOr_ok_iff,
        Guard.ensure_ok_iff, Guard.pure_ok_iff] at ho ⊢
      obtain ⟨a, ha, _, howner, rfl⟩ := ho
      exact ⟨a, ha, (), howner, rfl⟩
  | createSettings hs =>
      apply AuctionProgram.Step.createSettings
      simp only [CreateSettings.handler, World.loadAuthority, Guard.bind_ok_iff, Guard.okOr_ok_iff,
        Guard.ensure_ok_iff, Guard.failIf_ok_iff, Guard.pure_ok_iff] at hs ⊢
      obtain ⟨a, ha, _, hnone, _, howner, _, hfee, rfl⟩ := hs
      exact ⟨a, ha, (), hnone, (), howner, (), hfee, rfl⟩
  | start _ | placeBid _ | withdrawBid _ | endAuction _ | claim _ | redeem _ | tick _ | outside _ =>
      exact hshared.elim

end Frame

/-! ## A vault -/

/-- What the accounts around `v` see of a transaction: a call there, a shared call, the time, and otherwise something
outside. -/
inductive Event.SeenFrom (v : Pubkey) : Event → AuctionProgram.Event → Prop
  | call {f} : SeenFrom v (.auction v f) f
  | shared {u f} : IsShared f → SeenFrom v (.auction u f) f
  | tick {now} : SeenFrom v (.tick now) (.tick now)
  | elsewhere {u f d} : u ≠ v → ¬ IsShared f → SeenFrom v (.auction u f) (.outside d)
  | initializeMarket {pa ctx m d} : SeenFrom v (.initializeMarket pa ctx m) (.outside d)
  | market {pa f d} : SeenFrom v (.market pa f) (.outside d)
  | outside {d n d'} : SeenFrom v (.outside d n) (.outside d')

/-- The accounts around `v` and their program accounts stay as they are, and the token accounts lose nothing. -/
theorem outside_of_keeps (c c' : State V) (hclock : c'.clock = c.clock) (hauthority : c'.authority = c.authority)
    (hsettings : c'.settings = c.settings) (hvault : c'.vaults v = c.vaults v)
    (hauction : c'.auctions v = c.auctions v) (hbids : c'.bids v = c.bids v)
    (hsupply : ∀ m, T.outstanding c'.ledger m ≤ T.outstanding c.ledger m)
    (hkeeps : ∀ {k m o}, o.inAuction v = true → T.Holds c.ledger k m o →
      T.Holds c'.ledger k m o ∧ T.balance c.ledger k ≤ T.balance c'.ledger k) :
    ∃ d, AuctionProgram.Step v (c.around misread v) (.outside d) (c'.around misread v) := by
  refine ⟨fun k => T.balance c'.ledger k - T.balance c.ledger k, .outside ?_⟩
  exact {
    clock := hclock
    authority := hauthority
    settings := hsettings
    auction := hauction
    bids := hbids
    fractionMint := by simp only [State.around, hvault]
    redeemTreasury := by simp only [State.around, hvault]
    fractions := fun _ => hsupply _
    holds := fun ho hk => (hkeeps ho hk).1
    kept := fun ho hk => (Nat.add_sub_cancel' (hkeeps ho hk).2).symm
    gained := fun k => by
      change T.balance c'.ledger k ≤ T.balance c.ledger k + (T.balance c'.ledger k - T.balance c.ledger k)
      omega }

theorem Step.seenFrom (hT : T.Lawful) (hM : Modest V) (h : Step misread c e c') (v : Pubkey) :
    ∃ f, e.SeenFrom v f ∧ AuctionProgram.Step v (c.around misread v) f (c'.around misread v) := by
  have hkeeps {k m o : Pubkey} (ho : o.inAuction v = true) (hno : ¬ e.Debits o) (hk : T.Holds c.ledger k m o) :=
    h.keeps hT hM (Pubkey.isHolder_of_escrow (Pubkey.isEscrow_of_inAuction ho)) hno hk
  have hsupply (hin : ¬ e.IsOutside) (m : Pubkey) : T.outstanding c'.ledger m ≤ T.outstanding c.ledger m :=
    (h.protects hT hM hin (P := fun _ => False) fun _ => False.elim).supply m
  cases h with
  | @auction u f w hcall hs =>
      obtain ⟨hclock, hprices, hsame⟩ := frame_of_call hs hcall
      by_cases huv : u = v
      · subst huv
        refine ⟨f, .call, ?_⟩
        rw [around_put_self hclock hprices]
        exact hs
      by_cases hshared : IsShared f
      · exact ⟨f, .shared hshared, shared_call hs hshared (Ne.symm huv)⟩
      obtain ⟨hauthority, hsettings⟩ := hsame hshared
      have hno {o : Pubkey} (ho : o.inAuction v = true) : ¬ SignsFor u o f := fun hsigns =>
        huv (Pubkey.inAuction_unique (inAuction_of_signsFor hsigns) ho)
      have hne := Ne.symm huv
      obtain ⟨d, hd⟩ := outside_of_keeps c (c.put u w) rfl hauthority hsettings (Function.update_of_ne hne _ _)
        (Function.update_of_ne hne _ _) (Function.update_of_ne hne _ _) (hsupply id)
        fun ho hk => hkeeps ho (hno ho) hk
      exact ⟨.outside d, .elsewhere huv hshared, hd⟩
  | @initializeMarket pa ctx m w hnone hi =>
      obtain ⟨d, hd⟩ := outside_of_keeps c (c.putMarket pa.key w) rfl rfl rfl rfl rfl rfl (hsupply id)
        fun ho hk => hkeeps ho id hk
      exact ⟨.outside d, .initializeMarket, hd⟩
  | @market pa m f w hm hne hs =>
      have hno {o : Pubkey} (ho : o.inAuction v = true) : ¬ (Event.market pa f).Debits o := by
        cases f with
        | removeVote ctx votes =>
            rintro rfl
            cases ho
        | initUserInfo _ | setMinPrice _ _ | addVote _ _ _ | outside => exact id
      obtain ⟨d, hd⟩ := outside_of_keeps c (c.putMarket pa w) rfl rfl rfl rfl rfl rfl (hsupply id)
        fun ho hk => hkeeps ho (hno ho) hk
      exact ⟨.outside d, .market, hd⟩
  | tick hle => exact ⟨_, .tick, .tick hle⟩
  | @outside d n _ ho =>
      refine ⟨.outside d, .outside, .outside ?_⟩
      have hholder {o : Pubkey} (h : o.inAuction v = true) : o.isHolder = true :=
        Pubkey.isHolder_of_escrow (Pubkey.isEscrow_of_inAuction h)
      exact {
        clock := ho.clock
        authority := ho.authority
        settings := ho.settings
        auction := congrFun ho.auctions v
        bids := congrFun ho.bids v
        fractionMint := ho.fractionMint v
        redeemTreasury := ho.redeemTreasury v
        fractions := ho.fractions v
        holds := fun h hk => ho.holds (hholder h) hk
        kept := fun h hk => ho.kept (hholder h) hk
        gained := ho.gained }

theorem Genesis.around (h : Genesis c) (v : Pubkey) : AuctionProgram.Genesis (c.around misread v) where
  authority := h.authority
  settings := h.settings
  auction := h.auctions v
  bids := h.bids v

theorem around_run (hT : T.Lawful) (hM : Modest V) {c₀ : State V} (h : Run (Step misread) c₀ es c) (v : Pubkey) :
    ∃ fs, List.Forall₂ (Event.SeenFrom v) es fs ∧
      Run (AuctionProgram.Step v) (c₀.around misread v) fs (c.around misread v) :=
  h.project fun _ _ _ hstep => hstep.seenFrom hT hM v

/-! ## A price account -/

/-- What the accounts of the price account `pa` see of a transaction. -/
def Event.seenAt (pa : Pubkey) : Event → PriceTracker.Event
  | .market p f => if p = pa then f else .outside
  | _ => .outside

variable {pa : Pubkey} {m : Market}

/-- The tokens kept for `pa` are safe from transactions that do not debit them. -/
theorem Step.stores (hT : T.Lawful) (hM : Modest V) (h : Step misread c e c')
    (hno : ¬ e.Debits (.storeAuthority pa)) : PriceTracker.Outside pa c.ledger c'.ledger :=
  fun _ _ hk => h.keeps hT hM rfl hno hk

/-- Nothing happens at `pa`. -/
theorem unseen_step (w : PriceTracker.World T) {L : T.Ledger} (h : PriceTracker.Outside pa w.ledger L) :
    PriceTracker.Step pa w .outside { w with ledger := L } := .outside h

theorem Step.seenAt (hT : T.Lawful) (hM : Modest V) (h : Step misread c e c') (hm : c.markets pa = some m) :
    ∃ m', c'.markets pa = some m' ∧
      PriceTracker.Step pa (m.world c.ledger) (e.seenAt pa) (m'.world c'.ledger) := by
  have hstores : ¬ e.Debits (.storeAuthority pa) → PriceTracker.Outside pa c.ledger c'.ledger := h.stores hT hM
  cases h with
  | @auction u f w hcall hs =>
      have hno : ¬ SignsFor u (.storeAuthority pa) f := fun hsigns =>
        absurd (inAuction_of_signsFor hsigns) (by simp [Pubkey.inAuction])
      exact ⟨m, hm, unseen_step (m.world c.ledger) (hstores hno)⟩
  | @initializeMarket p ctx minPrice w hnone hi =>
      have hne : pa ≠ p.key := by
        rintro rfl
        cases hnone.symm.trans hm
      exact ⟨m, (Function.update_of_ne hne _ _).trans hm, unseen_step (m.world c.ledger) (hstores id)⟩
  | @market p m' f w hm' hne hs =>
      by_cases hp : p = pa
      · subst hp
        obtain rfl : m = m' := Option.some.inj (hm.symm.trans hm')
        refine ⟨Market.ofWorld w, Function.update_self _ _ _, ?_⟩
        simp only [Event.seenAt, ↓reduceIte]
        exact hs
      · have hno : ¬ (Event.market p f).Debits (.storeAuthority pa) := by
          cases f with
          | removeVote ctx votes =>
              intro hd
              exact hp (Pubkey.storeAuthority.inj hd).symm
          | initUserInfo _ | setMinPrice _ _ | addVote _ _ _ | outside => exact id
        refine ⟨m, (Function.update_of_ne (Ne.symm hp) _ _).trans hm, ?_⟩
        simp only [Event.seenAt, hp, ↓reduceIte]
        exact unseen_step (m.world c.ledger) (hstores hno)
  | tick hle => exact ⟨m, hm, unseen_step (m.world c.ledger) (hstores id)⟩
  | outside ho => exact ⟨m, (congrFun ho.markets pa).trans hm, unseen_step (m.world c.ledger) (hstores id)⟩

theorem market_run (hT : T.Lawful) (hM : Modest V) (h : Run (Step misread) c es c') (hm : c.markets pa = some m) :
    ∃ m', c'.markets pa = some m' ∧
      Run (PriceTracker.Step pa) (m.world c.ledger) (es.map (Event.seenAt pa)) (m'.world c'.ledger) := by
  obtain ⟨w, hw, m', hm', rfl⟩ := h.simulate (R := fun c w => ∃ m, c.markets pa = some m ∧ m.world c.ledger = w)
    (fun e => [e.seenAt pa]) (fun c e c' w hR hstep => by
      obtain ⟨m, hm, rfl⟩ := hR
      obtain ⟨m', hm', hseen⟩ := hstep.seenAt hT hM hm
      exact ⟨_, .single hseen, m', hm', rfl⟩) ⟨m, hm, rfl⟩
  refine ⟨m', hm', ?_⟩
  rw [List.map_eq_flatMap]
  exact hw

/-- Only `initialize` makes the accounts of a price account. -/
theorem Step.founds (h : Step misread c e c') (hnone : c.markets pa = none) (hm : c'.markets pa = some m) :
    ∃ s ctx minPrice, e = .initializeMarket s ctx minPrice ∧ s.key = pa ∧
      PriceTracker.Initialize.handler pa c.ledger ctx minPrice = .ok (m.world c'.ledger) := by
  cases h with
  | @initializeMarket s ctx minPrice w _ hi =>
      by_cases hs : pa = s.key
      · subst hs
        have hw : (c.putMarket s.key w).markets s.key = some (Market.ofWorld w) := Function.update_self _ _ _
        obtain rfl : Market.ofWorld w = m := Option.some.inj (hw.symm.trans hm)
        exact ⟨s, ctx, minPrice, rfl, rfl, hi⟩
      · cases hnone.symm.trans ((Function.update_of_ne hs _ _).symm.trans hm)
  | @market p m₁ f w hm₁ hne hs =>
      by_cases hp : pa = p
      · subst hp
        cases hnone.symm.trans hm₁
      · cases hnone.symm.trans ((Function.update_of_ne hp _ _).symm.trans hm)
  | auction _ _ => cases hnone.symm.trans hm
  | tick _ => cases hnone.symm.trans hm
  | outside ho => cases hnone.symm.trans ((congrFun ho.markets pa).symm.trans hm)

/-- An `initialize` of the price account `pa`. -/
def Event.Founds (pa : Pubkey) : Event → Prop
  | .initializeMarket s _ _ => s.key = pa
  | _ => False

theorem Step.founded (h : Step misread c e c') (hf : e.Founds pa) :
    c.markets pa = none ∧ ∃ m, c'.markets pa = some m := by
  cases h with
  | initializeMarket hnone hi =>
      cases hf
      exact ⟨hnone, _, Function.update_self _ _ _⟩
  | auction _ _ | market _ _ _ | tick _ | outside _ => exact hf.elim

/-- Price accounts stay, so where there is none there never was one. -/
theorem unfounded_of_run (hT : T.Lawful) (hM : Modest V) (h : Run (Step misread) c es c')
    (hnone : c'.markets pa = none) : ∀ e ∈ es, ¬ e.Founds pa := by
  intro e he hf
  obtain ⟨before, u, u', after, hp⟩ := h.of_mem he
  obtain ⟨-, m, hm⟩ := hp.taken.founded hf
  obtain ⟨m', hm', -⟩ := market_run hT hM hp.rest hm
  cases hnone.symm.trans hm'

/-- The accounts of `pa` were made by one `initialize`, the only one there is of `pa`, and have gone through a run of
the price tracker since. -/
structure Founded (misread : PriceTracker.TokenInfo → Option AuctionProgram.Price) (c₀ : State V) (es : List Event)
    (c : State V) (pa : Pubkey) (m : Market) (before : List Event) (s : Signer) (ctx : PriceTracker.Initialize)
    (minPrice : UInt64) (w₀ : PriceTracker.World T) (after : List Event) : Prop where
  events : es = before ++ .initializeMarket s ctx minPrice :: after
  address : s.key = pa
  once : ∀ e ∈ before ++ after, ¬ e.Founds pa
  made : ∃ u, Run (Step misread) c₀ before u ∧ u.markets pa = none ∧
    PriceTracker.Initialize.handler pa u.ledger ctx minPrice = .ok w₀
  run : Run (PriceTracker.Step pa) w₀ (after.map (Event.seenAt pa)) (m.world c.ledger)

theorem Founded.initial {c₀ : State V} {before after : List Event} {s : Signer} {ctx : PriceTracker.Initialize}
    {minPrice : UInt64} {w₀ : PriceTracker.World T}
    (h : Founded misread c₀ es c pa m before s ctx minPrice w₀ after) : PriceTracker.Initial pa w₀ := by
  obtain ⟨u, -, -, hi⟩ := h.made
  exact ⟨u.ledger, ctx, minPrice, hi⟩

theorem founded_of_run (hT : T.Lawful) (hM : Modest V) {c₀ : State V} (h₀ : ∀ pa, c₀.markets pa = none)
    (h : Run (Step misread) c₀ es c) (hm : c.markets pa = some m) :
    ∃ before s ctx minPrice w₀ after, Founded misread c₀ es c pa m before s ctx minPrice w₀ after := by
  induction h generalizing m with
  | nil => cases (h₀ pa).symm.trans hm
  | @snoc es e c c' hrun hstep ih =>
      cases hc : c.markets pa with
      | some m₁ =>
          obtain ⟨before, s, ctx, minPrice, w₀, after, hf⟩ := ih hc
          obtain ⟨m₂, hm₂, hseen⟩ := hstep.seenAt hT hM hc
          obtain rfl : m₂ = m := Option.some.inj (hm₂.symm.trans hm)
          refine ⟨before, s, ctx, minPrice, w₀, after ++ [e], ?_, hf.address, ?_, hf.made, ?_⟩
          · rw [hf.events, List.append_assoc, List.cons_append]
          · intro f hmem hfounds
            rw [← List.append_assoc, List.mem_append, List.mem_singleton] at hmem
            rcases hmem with hold | rfl
            · exact hf.once f hold hfounds
            · cases (hstep.founded hfounds).1.symm.trans hc
          · rw [List.map_append]
            exact hf.run.snoc hseen
      | none =>
          obtain ⟨s, ctx, minPrice, rfl, rfl, hi⟩ := hstep.founds hc hm
          have honce : ∀ e ∈ es ++ [], ¬ e.Founds s.key := by
            rw [List.append_nil]
            exact unfounded_of_run hT hM hrun hc
          exact ⟨es, s, ctx, minPrice, m.world c'.ledger, [], rfl, rfl, honce, ⟨c, hrun, hc, hi⟩, .nil⟩

end FractionAuction.Chain
