import FractionAuction.AuctionProgram.Lemmas.Closing

/-!
# When the auction closes

Where the periods fit a word, the closing time is worked out from the start, the settings and the time of the top bid.
-/

namespace FractionAuction.AuctionProgram

open FixedPoint Lts

variable {T : TokenProgram Pubkey} {V : VaultProgram T} {v : Pubkey} {w w' : World V} {e : Event} {es : List Event}

def Event.isBid : Event → Bool
  | .placeBid _ _ => true
  | _ => false

/-- Once there was a bid after the one that started the auction, it closes a soft-close period after the top bid, but
not before its duration is over. -/
def Auction.closing (a : Auction) (s : Settings) (top : Bid) (bids : ℕ) : ℕ :=
  if bids = 0 then a.startTimestamp.toNat + s.duration.toNat
  else max (a.startTimestamp.toNat + s.duration.toNat) (top.timestamp.toNat + s.softClosePeriod.toNat)

/-! ## A bid -/

/-- `closing` is the later of the duration's end and a soft-close period after some earlier time `t`, or the former
alone. -/
theorem extend_closing {c : Clock} {closing period : UInt64} {duration t : ℕ}
    (hopen : getCurrentTimestamp c < closing) (hfits : c.val + period.toNat < 2 ^ 64) (ht : t ≤ c.val)
    (hclosing : closing.toNat = duration ∨ closing.toNat = max duration (t + period.toNat)) :
    (PlaceBid.extend closing (getCurrentTimestamp c) period).toNat = max duration (c.val + period.toNat) := by
  have hlt := UInt64.lt_iff_toNat_lt.mp hopen
  have hleft := toNat_sub_of_le (le_of_lt hlt)
  rw [getCurrentTimestamp_toNat] at hlt hleft
  unfold PlaceBid.extend
  split
  · rename_i hshort
    rw [UInt64.lt_iff_toNat_lt, hleft] at hshort
    have hsum : (getCurrentTimestamp c + period).toNat = c.val + period.toNat := by
      rw [← getCurrentTimestamp_toNat c] at hfits ⊢
      exact toNat_add_of_lt hfits
    rw [hsum]
    omega
  · rename_i hlong
    have hlong := UInt64.le_iff_toNat_le.mp (UInt64.not_lt.mp hlong)
    rw [hleft] at hlong
    omega

/-! ## The invariant -/

/-- After the events `es` the auction closes when it should. -/
structure Timed (es : List Event) (w : World V) : Prop where
  unopened : w.auction = none → es.countP Event.isBid = 0
  timed {a} : w.auction = some a → ∃ s b, w.settings a.settings = some s ∧ w.bids a.topBidder = some b ∧
    b.timestamp.toNat ≤ w.clock.val ∧ a.endTimestamp.toNat = a.closing s b (es.countP Event.isBid)

theorem Timed.genesis (h : Genesis w) : Timed [] w :=
  ⟨fun _ => rfl, fun ha => by simp [h.auction] at ha⟩

/-- No bid is placed, and what the closing time depends on stays. -/
theorem Timed.congr (ht : Timed es w) (he : e.isBid = false) (hnone : w'.auction = none → w.auction = none)
    (hclock : w.clock.val ≤ w'.clock.val)
    (hkept : ∀ {a'}, w'.auction = some a' → ∃ a, w.auction = some a ∧ a'.startTimestamp = a.startTimestamp ∧
      a'.endTimestamp = a.endTimestamp ∧ a'.settings = a.settings ∧
      w'.bids a'.topBidder = w.bids a.topBidder ∧ ∀ s, w.settings a.settings = some s → w'.settings a.settings = some s) :
    Timed (es ++ [e]) w' := by
  have hcount : (es ++ [e]).countP Event.isBid = es.countP Event.isBid := by simp [List.countP_append, he]
  refine ⟨fun h => hcount.trans (ht.unopened (hnone h)), fun {a'} ha' => ?_⟩
  obtain ⟨a, ha, hstart, hend, hset, hbid, hsettings⟩ := hkept ha'
  obtain ⟨s, b, hs, hb, htime, hclosing⟩ := ht.timed ha
  refine ⟨s, b, hset ▸ hsettings s hs, hbid.trans hb, le_trans htime hclock, ?_⟩
  rw [hcount, hend, hclosing, Auction.closing, Auction.closing, hstart]

theorem Timed.start (ht : Timed es w) {ctx : Start} {n r : UInt64} (h : start v w ctx n = .ok (w', r))
    (hfits : PeriodFits w (.start ctx n r)) : Timed (es ++ [.start ctx n r]) w' := by
  obtain ⟨s, vault, L, he, rfl⟩ := start_effect h
  have hcount : (es ++ [Event.start ctx n r]).countP Event.isBid = 0 := by
    rw [List.countP_append, ht.unopened he.fresh]
    rfl
  refine ⟨nofun, fun {a} ha => ?_⟩
  obtain rfl := Option.some.inj ha
  refine ⟨s, _, he.settings, Function.update_self _ _ _, (getCurrentTimestamp_toNat w.clock).le, ?_⟩
  simp only [PeriodFits, Event.period, he.settings, Option.map_some, Option.getD_some] at hfits
  rw [hcount, Auction.closing, if_pos rfl]
  rw [← getCurrentTimestamp_toNat w.clock] at hfits
  exact toNat_add_of_lt hfits

theorem Timed.placeBid (ht : Timed es w) {ctx : PlaceBid} {n : UInt64} (h : placeBid v w ctx n = .ok w')
    (hfits : PeriodFits w (.placeBid ctx n)) : Timed (es ++ [.placeBid ctx n]) w' := by
  obtain ⟨a, s, top, L, he, rfl⟩ := placeBid_effect h
  have hcount : (es ++ [Event.placeBid ctx n]).countP Event.isBid = es.countP Event.isBid + 1 := by
    rw [List.countP_append]
    rfl
  refine ⟨nofun, fun {a'} ha' => ?_⟩
  obtain rfl := Option.some.inj ha'
  refine ⟨s, _, he.settings, Function.update_self _ _ _, (getCurrentTimestamp_toNat w.clock).le, ?_⟩
  obtain ⟨s', b, hs', hb, htime, hclosing⟩ := ht.timed he.auction
  obtain rfl : s = s' := Option.some.inj (he.settings.symm.trans hs')
  simp only [PeriodFits, Event.period, he.auction, he.settings, Option.bind_some, Option.map_some,
    Option.getD_some] at hfits
  have hcases : a.endTimestamp.toNat = a.startTimestamp.toNat + s.duration.toNat ∨ a.endTimestamp.toNat =
      max (a.startTimestamp.toNat + s.duration.toNat) (b.timestamp.toNat + s.softClosePeriod.toNat) := by
    rw [hclosing, Auction.closing]
    split
    · exact .inl rfl
    · exact .inr rfl
  rw [hcount, Auction.closing, if_neg (Nat.succ_ne_zero _)]
  refine (extend_closing he.not_ended hfits htime hcases).trans ?_
  rw [← getCurrentTimestamp_toNat w.clock]
  rfl

/-- Only the token accounts and the vault change. -/
theorem Timed.unmoved (ht : Timed es w) (he : e.isBid = false) (hauction : w'.auction = w.auction)
    (hclock : w.clock.val ≤ w'.clock.val) (hsettings : w'.settings = w.settings) (hbids : w'.bids = w.bids) :
    Timed (es ++ [e]) w' := by
  refine ht.congr he (fun h => hauction.symm.trans h) hclock fun {a'} ha' => ?_
  exact ⟨a', hauction.symm.trans ha', rfl, rfl, rfl, congrFun hbids _, fun s hs => hsettings ▸ hs⟩

theorem Timed.step (ht : Timed es w) (h : restrict (Step v) PeriodFits w e w') : Timed (es ++ [e]) w' := by
  obtain ⟨hstep, hfits⟩ := h
  cases hstep with
  | init hi =>
      obtain rfl := Init.effect hi
      exact ht.unmoved rfl rfl le_rfl rfl rfl
  | setOwner ho =>
      obtain rfl := SetAuthority.effect ho
      exact ht.unmoved rfl rfl le_rfl rfl rfl
  | createSettings hs =>
      obtain ⟨hnone, -, rfl⟩ := CreateSettings.effect hs
      refine ht.congr rfl id le_rfl fun {a} ha => ⟨a, ha, rfl, rfl, rfl, rfl, fun s hs => ?_⟩
      refine (Function.update_of_ne ?_ _ _).trans hs
      rintro heq
      cases hnone.symm.trans (heq ▸ hs)
  | start hs => exact ht.start hs hfits
  | placeBid hb => exact ht.placeBid hb hfits
  | withdrawBid hw =>
      obtain ⟨a, b, L, he, rfl⟩ := withdrawBid_effect hw
      refine ht.congr rfl id le_rfl fun {a'} ha' => ⟨a', ha', rfl, rfl, rfl, ?_, fun _ => id⟩
      obtain rfl : a = a' := Option.some.inj (he.auction.symm.trans ha')
      exact Function.update_of_ne (Ne.symm he.not_top) _ _
  | endAuction hend =>
      obtain ⟨a, s, L, he, rfl⟩ := endAuction_effect hend
      refine ht.congr rfl nofun le_rfl fun {a'} ha' => ?_
      obtain rfl := Option.some.inj ha'
      exact ⟨a, he.auction, rfl, rfl, rfl, rfl, fun _ => id⟩
  | claim hc =>
      obtain ⟨_, _, _, _, rfl⟩ := claim_effect hc
      exact ht.unmoved rfl rfl le_rfl rfl rfl
  | redeem hr =>
      obtain ⟨_, _, _, _, rfl⟩ := redeem_effect hr
      exact ht.unmoved rfl rfl le_rfl rfl rfl
  | tick hle => exact ht.unmoved rfl rfl hle rfl rfl
  | outside ho => exact ht.unmoved rfl ho.auction ho.clock.ge ho.settings ho.bids

theorem Timed.run {w₀ : World V} (h₀ : Genesis w₀) (h : Run (restrict (Step v) PeriodFits) w₀ es w) : Timed es w :=
  h.invariant_trace (fun _ _ _ _ ht hstep => ht.step hstep) (Timed.genesis h₀)

end FractionAuction.AuctionProgram
