import MarketBenchmark.Feeds.Frames
import MarketBenchmark.Foundation.HashMaps

/-!
# Trades from the websocket and from account fills

One feed sends finished trades.  The other sends the two account-side fills of
each trade, among those of other trades, and the fills are paired by coin, time
and trade identifier.  A pair that belongs together is written as the same
trade.
-/

namespace MarketBenchmark.Feeds

open Foundation.HashMaps

/-- `str::to_ascii_lowercase`. -/
def toAsciiLowercase (text : String) : String := String.ofList (text.toList.map Char.toLower)

/-- `str::eq_ignore_ascii_case`. -/
def eqIgnoreAsciiCase (first second : String) : Bool :=
  toAsciiLowercase first = toAsciiLowercase second

theorem toAsciiLowercase_idem (text : String) :
    toAsciiLowercase (toAsciiLowercase text) = toAsciiLowercase text := by
  simp only [toAsciiLowercase, String.toList_ofList, List.map_map]
  refine congrArg String.ofList (List.map_congr_left fun symbol _ => ?_)
  exact Char.toLower_toLower_eq_toLower symbol

theorem toAsciiLowercase_eq_empty {text : String} : toAsciiLowercase text = "" ↔ text = "" := by
  rw [← String.toList_eq_nil_iff, toAsciiLowercase, String.toList_ofList, List.map_eq_nil_iff,
    String.toList_eq_nil_iff]

variable (decimals : Decimals)

/-- `canonical_trade`. -/
def canonicalTrade (trade : WsTrade) : Option EventKey :=
  if trade.coin = "" ∨ ¬(trade.side = "A" ∨ trade.side = "B") ∨ trade.hash = "" ∨ trade.time = 0 ∨
      trade.users.1 = "" ∨ trade.users.2 = "" then none
  else
    match canonicalPositiveDecimal decimals trade.px with
    | none => none
    | some px =>
        match canonicalPositiveDecimal decimals trade.sz with
        | none => none
        | some sz =>
            some
              { coin := trade.coin
                eventMs := trade.time
                content := .trade trade.tid trade.side px sz (toAsciiLowercase trade.hash)
                  (toAsciiLowercase trade.users.1, toAsciiLowercase trade.users.2) }

/-! ## Finished trades -/

/-- `parse_ws_trades`. -/
def parseWsTrades {Value : Type} (serde : Serde Value) (frame : WsFrame Value) : List EventKey :=
  if frame.channel ≠ some Dataset.fills.channel then []
  else
    match frame.data with
    | none => []
    | some data =>
        match serde.trades data with
        | none => []
        | some trades => trades.filterMap (canonicalTrade decimals)

/-! ## Account fills -/

/-- A fill and the user whose account it is of. -/
abbrev UserFill : Type := String × QuickNodeFill

/-- The key of `pairs`: coin, time and trade identifier. -/
abbrev FillKey : Type := String × Nat × Nat

/-- The first fill of each side: ask, then bid. -/
abbrev QuickNodeFillPair : Type := Option UserFill × Option UserFill

def QuickNodeFill.key (fill : QuickNodeFill) : FillKey := (fill.coin, fill.time, fill.tid)

/-- One step of the loop that fills `pairs`. -/
def addFill (pairs : HashMap FillKey QuickNodeFillPair) (event : UserFill) :
    HashMap FillKey QuickNodeFillPair :=
  let pair := (pairs.lookup event.2.key).getD (none, none)
  if event.2.side = "A" then pairs.insert event.2.key (pair.1.or (some event), pair.2)
  else if event.2.side = "B" then pairs.insert event.2.key (pair.1, pair.2.or (some event))
  else pairs

/-- The event of a pair, if its fills belong together. -/
def pairEvent : QuickNodeFillPair → Option EventKey
  | (some (seller, ask), some (buyer, bid)) =>
      match canonicalPositiveDecimal decimals ask.px, canonicalPositiveDecimal decimals bid.px,
        canonicalPositiveDecimal decimals ask.sz, canonicalPositiveDecimal decimals bid.sz with
      | some askPx, some bidPx, some askSz, some bidSz =>
          if ask.coin ≠ bid.coin ∨ ask.time ≠ bid.time ∨ ask.tid ≠ bid.tid ∨ askPx ≠ bidPx ∨
              askSz ≠ bidSz ∨ ¬eqIgnoreAsciiCase ask.hash bid.hash ∨
              ask.crossed = bid.crossed then none
          else
            canonicalTrade decimals
              { coin := ask.coin
                side := if ask.crossed then "A" else "B"
                px := askPx
                sz := askSz
                hash := ask.hash
                time := ask.time
                tid := ask.tid
                users := (buyer, seller) }
      | _, _, _, _ => none
  | _ => none

/-- `parse_quicknode_fill_batch`; the pairs come in the order of the hash map. -/
def parseQuicknodeFillBatch {Value : Type} (serde : Serde Value) (order : IterationOrder)
    (payload : String) : List EventKey :=
  match serde.fillBatch payload with
  | none => []
  | some batch =>
      (order.arrange (batch.events.foldl addFill ∅).entries).filterMap fun entry =>
        pairEvent decimals entry.2

/-! ## The pairs of a batch -/

/-- The first fill of the key on the given side. -/
def firstFill (events : List UserFill) (side : String) (key : FillKey) : Option UserFill :=
  events.find? fun event => event.2.side = side ∧ event.2.key = key

/-- The first fills of the key on both sides. -/
def pairOf (events : List UserFill) (key : FillKey) : QuickNodeFillPair :=
  (firstFill events "A" key, firstFill events "B" key)

theorem addFill_lookup (pairs : HashMap FillKey QuickNodeFillPair) (event : UserFill)
    (key : FillKey) :
    ((addFill pairs event).lookup key).getD (none, none) =
      (((pairs.lookup key).getD (none, none)).1.or (firstFill [event] "A" key),
        ((pairs.lookup key).getD (none, none)).2.or (firstFill [event] "B" key)) := by
  by_cases own : event.2.key = key
  · subst own
    unfold addFill
    by_cases ask : event.2.side = "A"
    · simp [ask, firstFill, AList.lookup_insert]
    · by_cases bid : event.2.side = "B"
      · simp [bid, firstFill, AList.lookup_insert]
      · simp [ask, bid, firstFill]
  · have other : (addFill pairs event).lookup key = pairs.lookup key := by
      have apart : key ≠ event.2.key := fun same => own same.symm
      unfold addFill
      dsimp only
      split
      · exact AList.lookup_insert_ne apart
      · split
        · exact AList.lookup_insert_ne apart
        · rfl
    simp [other, firstFill, own]

/-- The loop finds the first fills of both sides. -/
theorem foldl_addFill_lookup (events : List UserFill)
    (pairs : HashMap FillKey QuickNodeFillPair) (key : FillKey) :
    ((events.foldl addFill pairs).lookup key).getD (none, none) =
      (((pairs.lookup key).getD (none, none)).1.or (firstFill events "A" key),
        ((pairs.lookup key).getD (none, none)).2.or (firstFill events "B" key)) := by
  induction events generalizing pairs with
  | nil => simp [firstFill]
  | cons event rest ih =>
      have split : ∀ side, firstFill (event :: rest) side key =
          (firstFill [event] side key).or (firstFill rest side key) := by
        intro side
        unfold firstFill
        rw [← List.singleton_append, List.find?_append]
      rw [List.foldl_cons, ih, addFill_lookup, split "A", split "B"]
      simp only [Option.or_assoc]

theorem lookup_foldl_addFill (events : List UserFill) (key : FillKey) :
    ((events.foldl addFill ∅).lookup key).getD (none, none) = pairOf events key := by
  rw [foldl_addFill_lookup]
  rfl

theorem pairOf_of_mem_entries {events : List UserFill}
    {entry : Sigma fun _ : FillKey => QuickNodeFillPair}
    (member : entry ∈ (events.foldl addFill ∅).entries) : entry.2 = pairOf events entry.1 := by
  have found := HashMap.mem_entries_iff.mp member
  rw [← lookup_foldl_addFill, found]
  rfl

theorem firstFill_spec {events : List UserFill} {side : String} {key : FillKey} {event : UserFill}
    (found : firstFill events side key = some event) :
    event ∈ events ∧ event.2.side = side ∧ event.2.key = key := by
  have matched := List.find?_some found
  exact ⟨List.mem_of_find?_eq_some found, of_decide_eq_true matched⟩

variable {decimals}

/-! ## Fills that belong together -/

theorem canonicalPositiveDecimal_congr {first second : String}
    (same : decimals.fromStr first = decimals.fromStr second) :
    canonicalPositiveDecimal decimals first = canonicalPositiveDecimal decimals second := by
  unfold canonicalPositiveDecimal
  rw [same]

theorem canonicalPositiveDecimal_eq_some {text canonical : String} :
    canonicalPositiveDecimal decimals text = some canonical ↔
      ∃ value, decimals.fromStr text = some value ∧ 0 < value ∧
        decimals.toText value = canonical := by
  simp [canonicalPositiveDecimal, Option.bind_eq_some_iff]

/-- Canonical texts are canonical already. -/
theorem canonicalPositiveDecimal_idem (prints : decimals.PrintsBack) {text canonical : String}
    (read : canonicalPositiveDecimal decimals text = some canonical) :
    canonicalPositiveDecimal decimals canonical = some canonical := by
  obtain ⟨value, parsed, positive, rfl⟩ := canonicalPositiveDecimal_eq_some.mp read
  exact canonicalPositiveDecimal_eq_some.mpr
    ⟨value, prints text value parsed, positive, rfl⟩

theorem canonicalPositiveDecimal_eq_iff (prints : decimals.PrintsBack) {first second : String}
    {firstText secondText : String}
    (firstRead : canonicalPositiveDecimal decimals first = some firstText)
    (secondRead : canonicalPositiveDecimal decimals second = some secondText) :
    firstText = secondText ↔ decimals.fromStr first = decimals.fromStr second := by
  obtain ⟨_, firstParsed, _, rfl⟩ := canonicalPositiveDecimal_eq_some.mp firstRead
  obtain ⟨_, secondParsed, _, rfl⟩ := canonicalPositiveDecimal_eq_some.mp secondRead
  rw [firstParsed, secondParsed, Option.some.injEq]
  constructor
  · exact prints.toText_inj firstParsed secondParsed
  · exact congrArg decimals.toText

/-- The two sides of one trade: equal price, size and hash, and one of them took. -/
structure Consistent (decimals : Decimals) (ask bid : QuickNodeFill) : Prop where
  px : decimals.fromStr ask.px = decimals.fromStr bid.px
  sz : decimals.fromStr ask.sz = decimals.fromStr bid.sz
  hash : toAsciiLowercase ask.hash = toAsciiLowercase bid.hash
  crossed : ask.crossed ≠ bid.crossed

/-- Only fills that belong together yield an event. -/
theorem consistent_of_pairEvent (prints : decimals.PrintsBack) {pair : QuickNodeFillPair}
    {event : EventKey} (found : pairEvent decimals pair = some event) :
    ∃ ask bid, pair = (some ask, some bid) ∧ Consistent decimals ask.2 bid.2 := by
  obtain ⟨first, second⟩ := pair
  cases first with
  | none => cases found
  | some ask =>
      cases second with
      | none => cases found
      | some bid =>
          refine ⟨ask, bid, rfl, ?_⟩
          simp only [pairEvent] at found
          split at found
          next askPx bidPx askSz bidSz askPxRead bidPxRead askSzRead bidSzRead =>
            obtain ⟨passed, _⟩ := Option.ite_none_left_eq_some.mp found
            simp only [not_or, not_not, eqIgnoreAsciiCase, decide_eq_true_eq] at passed
            obtain ⟨_, _, _, px, sz, hash, crossed⟩ := passed
            constructor
            · exact (canonicalPositiveDecimal_eq_iff prints askPxRead bidPxRead).mp px
            · exact (canonicalPositiveDecimal_eq_iff prints askSzRead bidSzRead).mp sz
            · exact hash
            · exact crossed
          · cases found

/-- The account-side fills of a trade, of the seller and of the buyer. -/
structure AccountFills (decimals : Decimals) (trade : WsTrade) (ask bid : UserFill) : Prop where
  askSide : ask.2.side = "A"
  bidSide : bid.2.side = "B"
  askKey : ask.2.key = (trade.coin, trade.time, trade.tid)
  bidKey : bid.2.key = (trade.coin, trade.time, trade.tid)
  askPx : decimals.fromStr ask.2.px = decimals.fromStr trade.px
  bidPx : decimals.fromStr bid.2.px = decimals.fromStr trade.px
  askSz : decimals.fromStr ask.2.sz = decimals.fromStr trade.sz
  bidSz : decimals.fromStr bid.2.sz = decimals.fromStr trade.sz
  askHash : toAsciiLowercase ask.2.hash = toAsciiLowercase trade.hash
  bidHash : toAsciiLowercase bid.2.hash = toAsciiLowercase trade.hash
  seller : toAsciiLowercase ask.1 = toAsciiLowercase trade.users.2
  buyer : toAsciiLowercase bid.1 = toAsciiLowercase trade.users.1
  taker : trade.side = "A" ∧ ask.2.crossed = true ∧ bid.2.crossed = false ∨
    trade.side = "B" ∧ ask.2.crossed = false ∧ bid.2.crossed = true

theorem eq_empty_congr {first second : String}
    (same : toAsciiLowercase first = toAsciiLowercase second) : first = "" ↔ second = "" := by
  rw [← toAsciiLowercase_eq_empty, same, toAsciiLowercase_eq_empty]

/-- A trade reads the same with other texts for its numbers and other cases in its names. -/
theorem canonicalTrade_congr {first second : WsTrade} (coin : first.coin = second.coin)
    (side : first.side = second.side) (time : first.time = second.time)
    (tid : first.tid = second.tid)
    (px : canonicalPositiveDecimal decimals first.px =
      canonicalPositiveDecimal decimals second.px)
    (sz : canonicalPositiveDecimal decimals first.sz =
      canonicalPositiveDecimal decimals second.sz)
    (hash : toAsciiLowercase first.hash = toAsciiLowercase second.hash)
    (buyer : toAsciiLowercase first.users.1 = toAsciiLowercase second.users.1)
    (seller : toAsciiLowercase first.users.2 = toAsciiLowercase second.users.2) :
    canonicalTrade decimals first = canonicalTrade decimals second := by
  unfold canonicalTrade
  rw [coin, side, time, tid, px, sz, hash, buyer, seller]
  simp only [eq_empty_congr hash, eq_empty_congr buyer, eq_empty_congr seller]

/-- The pair of a trade's fills yields the event of the trade. -/
theorem AccountFills.pairEvent (prints : decimals.PrintsBack) {trade : WsTrade}
    {ask bid : UserFill} (fills : AccountFills decimals trade ask bid) :
    pairEvent decimals (some ask, some bid) = canonicalTrade decimals trade := by
  have askPx := canonicalPositiveDecimal_congr fills.askPx
  have bidPx := canonicalPositiveDecimal_congr fills.bidPx
  have askSz := canonicalPositiveDecimal_congr fills.askSz
  have bidSz := canonicalPositiveDecimal_congr fills.bidSz
  have askKey := fills.askKey
  have bidKey := fills.bidKey
  simp only [QuickNodeFill.key, Prod.mk.injEq] at askKey bidKey
  have hash : toAsciiLowercase ask.2.hash = toAsciiLowercase bid.2.hash :=
    fills.askHash.trans fills.bidHash.symm
  have crossed : ask.2.crossed ≠ bid.2.crossed := by
    rcases fills.taker with ⟨_, ask, bid⟩ | ⟨_, ask, bid⟩
    · simp [ask, bid]
    · simp [ask, bid]
  have side : (if ask.2.crossed = true then "A" else "B") = trade.side := by
    rcases fills.taker with ⟨side, ask, _⟩ | ⟨side, ask, _⟩
    · simp [ask, side]
    · simp [ask, side]
  cases px : canonicalPositiveDecimal decimals trade.px with
  | none =>
      simp only [Feeds.pairEvent, askPx, px]
      unfold canonicalTrade
      rw [px]
      simp
  | some pxText =>
      cases sz : canonicalPositiveDecimal decimals trade.sz with
      | none =>
          simp only [Feeds.pairEvent, askPx, bidPx, askSz, px, sz]
          unfold canonicalTrade
          rw [px, sz]
          simp
      | some szText =>
          simp only [Feeds.pairEvent, askPx, bidPx, askSz, bidSz, px, sz]
          rw [if_neg]
          · apply canonicalTrade_congr
            · exact askKey.1
            · exact side
            · exact askKey.2.1
            · exact askKey.2.2
            · exact (canonicalPositiveDecimal_idem prints px).trans px.symm
            · exact (canonicalPositiveDecimal_idem prints sz).trans sz.symm
            · exact fills.askHash
            · exact fills.buyer
            · exact fills.seller
          · simp only [askKey, bidKey, eqIgnoreAsciiCase, hash, crossed]
            simp

/-! ## Batches -/

def WsTrade.key (trade : WsTrade) : FillKey := (trade.coin, trade.time, trade.tid)

/-- The events are the two fills of each trade and the others, in any order. -/
def FillsOf (decimals : Decimals) (trades : List WsTrade) (others events : List UserFill) : Prop :=
  ∃ ask bid : WsTrade → UserFill,
    (∀ trade ∈ trades, AccountFills decimals trade (ask trade) (bid trade)) ∧
      events.Perm (trades.flatMap (fun trade => [ask trade, bid trade]) ++ others)

/-- The batch has no first fills of both sides for the key, or they are inconsistent. -/
def Unmatched (decimals : Decimals) (events : List UserFill) (key : FillKey) : Prop :=
  ∀ ask bid, firstFill events "A" key = some ask → firstFill events "B" key = some bid →
    ¬Consistent decimals ask.2 bid.2

/-- The only fill of its side and key is the first one. -/
theorem firstFill_of_only {events : List UserFill} {side : String} {key : FillKey}
    {event : UserFill} (member : event ∈ events) (own : event.2.side = side ∧ event.2.key = key)
    (only : ∀ other ∈ events, other.2.side = side → other.2.key = key → other = event) :
    firstFill events side key = some event := by
  cases found : firstFill events side key with
  | none => exact absurd (decide_eq_true own) (List.find?_eq_none.mp found event member)
  | some other =>
      obtain ⟨otherMember, otherSide, otherKey⟩ := firstFill_spec found
      rw [only other otherMember otherSide otherKey]

theorem canonicalTrade_base {trade : WsTrade} {event : EventKey}
    (found : canonicalTrade decimals trade = some event) :
    event.coin = trade.coin ∧ event.eventMs = trade.time ∧
      event.base.tradeId = some trade.tid := by
  unfold canonicalTrade at found
  split at found
  · cases found
  · split at found
    · cases found
    · split at found
      · cases found
      · cases found
        exact ⟨rfl, rfl, rfl⟩

/-- Trades of different keys have different events. -/
theorem canonicalTrade_key {first second : WsTrade} {event : EventKey}
    (firstFound : canonicalTrade decimals first = some event)
    (secondFound : canonicalTrade decimals second = some event) : first.key = second.key := by
  obtain ⟨firstCoin, firstTime, firstTid⟩ := canonicalTrade_base firstFound
  obtain ⟨secondCoin, secondTime, secondTid⟩ := canonicalTrade_base secondFound
  have tid := Option.some.inj (firstTid.symm.trans secondTid)
  rw [WsTrade.key, WsTrade.key, ← firstCoin, ← firstTime, secondCoin, secondTime, tid]

theorem nodup_canonicalTrades {trades : List WsTrade} (distinct : (trades.map WsTrade.key).Nodup) :
    (trades.filterMap (canonicalTrade decimals)).Nodup := by
  apply List.pairwise_filterMap.mpr
  refine (List.pairwise_map.mp distinct).imp ?_
  rintro first second apart event firstFound other secondFound rfl
  exact apart (canonicalTrade_key firstFound secondFound)

/-- The event of a pair names the key of the pair. -/
theorem pairEvent_base {events : List UserFill} {key : FillKey} {event : EventKey}
    (found : pairEvent decimals (pairOf events key) = some event) :
    event.coin = key.1 ∧ event.eventMs = key.2.1 ∧ event.base.tradeId = some key.2.2 := by
  cases first : firstFill events "A" key with
  | none =>
      rw [pairOf, first] at found
      cases found
  | some ask =>
      obtain ⟨_, _, rfl⟩ := firstFill_spec first
      cases second : firstFill events "B" ask.2.key with
      | none =>
          rw [pairOf, first, second] at found
          cases found
      | some bid =>
          simp only [pairOf, first, second, pairEvent] at found
          split at found
          · obtain ⟨_, traded⟩ := Option.ite_none_left_eq_some.mp found
            exact canonicalTrade_base traded
          · cases found

section Batch

variable {trades : List WsTrade} {others events : List UserFill} {key : FillKey}

/-- The pair of a trade's key holds the trade's own fills. -/
theorem FillsOf.pairEvent (prints : decimals.PrintsBack)
    (written : FillsOf decimals trades others events)
    (distinct : (trades.map WsTrade.key).Nodup)
    (apart : ∀ other ∈ others, other.2.key ∉ trades.map WsTrade.key) {trade : WsTrade}
    (member : trade ∈ trades) :
    pairEvent decimals (pairOf events trade.key) = canonicalTrade decimals trade := by
  obtain ⟨ask, bid, fills, perm⟩ := written
  have own := fills trade member
  have present : ∀ event ∈ [ask trade, bid trade], event ∈ events := fun event isOwn =>
    perm.symm.subset (List.mem_append_left _ (List.mem_flatMap.mpr ⟨trade, member, isOwn⟩))
  have only : ∀ event ∈ events, event.2.key = trade.key →
      event = ask trade ∨ event = bid trade := by
    intro event isEvent sameKey
    rcases List.mem_append.mp (perm.subset isEvent) with fill | other
    · obtain ⟨another, isTrade, isFill⟩ := List.mem_flatMap.mp fill
      have its := fills another isTrade
      have keys : another.key = trade.key := by
        rcases List.mem_pair.mp isFill with rfl | rfl
        · exact its.askKey.symm.trans sameKey
        · exact its.bidKey.symm.trans sameKey
      rw [List.inj_on_of_nodup_map distinct isTrade member keys] at isFill
      exact List.mem_pair.mp isFill
    · exact absurd (sameKey ▸ List.mem_map_of_mem member) (apart event other)
  have askFirst : firstFill events "A" trade.key = some (ask trade) := by
    apply firstFill_of_only (present _ List.mem_cons_self) ⟨own.askSide, own.askKey⟩
    intro other isOther side sameKey
    rcases only other isOther sameKey with rfl | rfl
    · rfl
    · rw [own.bidSide] at side
      exact absurd side (by decide)
  have bidFirst : firstFill events "B" trade.key = some (bid trade) := by
    apply firstFill_of_only (present _ (List.mem_cons_of_mem _ List.mem_cons_self))
      ⟨own.bidSide, own.bidKey⟩
    intro other isOther side sameKey
    rcases only other isOther sameKey with rfl | rfl
    · rw [own.askSide] at side
      exact absurd side (by decide)
    · rfl
  rw [pairOf, askFirst, bidFirst]
  exact own.pairEvent prints

/-- Every event of the pairs, each once. -/
theorem nodup_pairEvents (order : IterationOrder) :
    ((order.arrange (events.foldl addFill ∅).entries).filterMap fun entry =>
      pairEvent decimals entry.2).Nodup := by
  have keys : ((order.arrange (events.foldl addFill ∅).entries).map Sigma.fst).Nodup :=
    ((order.perm _).map Sigma.fst).nodup_iff.mpr (events.foldl addFill ∅).nodupKeys
  apply List.pairwise_filterMap.mpr
  refine List.Pairwise.imp_of_mem ?_ (List.pairwise_map.mp keys)
  rintro first second isFirst isSecond apart event firstFound other secondFound rfl
  rw [pairOf_of_mem_entries (order.mem_arrange.mp isFirst)] at firstFound
  rw [pairOf_of_mem_entries (order.mem_arrange.mp isSecond)] at secondFound
  obtain ⟨firstCoin, firstTime, firstTid⟩ := pairEvent_base firstFound
  obtain ⟨secondCoin, secondTime, secondTid⟩ := pairEvent_base secondFound
  apply apart
  refine Prod.ext (firstCoin.symm.trans secondCoin) (Prod.ext (firstTime.symm.trans secondTime) ?_)
  exact Option.some.inj (firstTid.symm.trans secondTid)

theorem mem_pairEvents (order : IterationOrder) {event : EventKey} :
    (event ∈ (order.arrange (events.foldl addFill ∅).entries).filterMap fun entry =>
      pairEvent decimals entry.2) ↔ ∃ key, pairEvent decimals (pairOf events key) = some event := by
  rw [List.mem_filterMap]
  constructor
  · rintro ⟨entry, member, found⟩
    rw [pairOf_of_mem_entries (order.mem_arrange.mp member)] at found
    exact ⟨entry.1, found⟩
  · rintro ⟨key, found⟩
    rw [← lookup_foldl_addFill] at found
    cases stored : (events.foldl addFill ∅).lookup key with
    | none =>
        rw [stored] at found
        cases found
    | some pair =>
        rw [stored] at found
        exact ⟨⟨key, pair⟩, order.mem_arrange.mpr (HashMap.mem_entries_iff.mpr stored), found⟩

/--
A batch with the two fills of every trade, in any order and among fills that do
not belong together, yields the events of the finished trades, each once.
-/
theorem fills_paths_agree {Value : Type} (prints : decimals.PrintsBack) (serde : Serde Value)
    (order : IterationOrder) {frame : WsFrame Value} {data : Value} {payload : String}
    (distinct : (trades.map WsTrade.key).Nodup)
    (written : FillsOf decimals trades others events)
    (apart : ∀ other ∈ others, other.2.key ∉ trades.map WsTrade.key)
    (unmatched : ∀ key ∉ trades.map WsTrade.key, Unmatched decimals events key)
    (channel : frame.channel = some Dataset.fills.channel) (holds : frame.data = some data)
    (tradesDecoded : serde.trades data = some trades)
    (batchDecoded : serde.fillBatch payload = some { events := events }) :
    (parseQuicknodeFillBatch decimals serde order payload).Perm
        (parseWsTrades decimals serde frame) ∧
      (parseQuicknodeFillBatch decimals serde order payload).Nodup := by
  have batch : parseQuicknodeFillBatch decimals serde order payload =
      (order.arrange (events.foldl addFill ∅).entries).filterMap fun entry =>
        pairEvent decimals entry.2 := by
    simp [parseQuicknodeFillBatch, batchDecoded]
  have finished : parseWsTrades decimals serde frame =
      trades.filterMap (canonicalTrade decimals) := by
    simp [parseWsTrades, channel, holds, tradesDecoded]
  rw [batch, finished]
  refine ⟨?_, nodup_pairEvents order⟩
  apply (List.perm_ext_iff_of_nodup (nodup_pairEvents order)
    (nodup_canonicalTrades distinct)).mpr
  intro event
  rw [mem_pairEvents, List.mem_filterMap]
  constructor
  · rintro ⟨key, found⟩
    by_cases traded : key ∈ trades.map WsTrade.key
    · obtain ⟨trade, member, rfl⟩ := List.mem_map.mp traded
      rw [written.pairEvent prints distinct apart member] at found
      exact ⟨trade, member, found⟩
    · obtain ⟨ask, bid, pair, consistent⟩ := consistent_of_pairEvent prints found
      obtain ⟨first, second⟩ := Prod.mk.inj pair
      exact absurd consistent (unmatched key traded ask bid first second)
  · rintro ⟨trade, member, found⟩
    exact ⟨trade.key, (written.pairEvent prints distinct apart member).trans found⟩

def sampleTrade : WsTrade where
  coin := "BTC"
  side := "A"
  px := "100.00"
  sz := "2.0"
  hash := "0xABC"
  time := 42
  tid := 7
  users := ("0xBUYER", "0xSELLER")

def sampleFill (side px hash : String) (crossed : Bool) (tid : Nat) : QuickNodeFill where
  coin := "BTC"
  px := px
  sz := "2"
  side := side
  time := 42
  hash := hash
  crossed := crossed
  tid := tid

/-- Two fills that both took, of a trade of their own. -/
def sampleOthers : List UserFill :=
  [("0xSELLER", sampleFill "A" "100" "0xabc" true 8),
    ("0xBUYER", sampleFill "B" "100" "0xabc" true 8)]

def sampleAsk : UserFill := ("0xSELLER", sampleFill "A" "100.0" "0xabc" true 7)

def sampleBid : UserFill := ("0xBUYER", sampleFill "B" "100" "0xABC" false 7)

def sampleTradeSerde : Serde Unit where
  elements := fun _ => none
  bboData := fun _ => none
  l2Data := fun _ => none
  trades := fun _ => some [sampleTrade]
  fillBatch := fun _ => some { events := sampleBid :: sampleOthers ++ [sampleAsk] }

theorem sampleTrade_fills : AccountFills wholeNumbers sampleTrade sampleAsk sampleBid := by
  constructor <;>
    first
    | decide +kernel
    | simp [sampleTrade, sampleAsk, sampleBid, sampleFill, wholeNumbers,
        Foundation.Labels.splitOnce, Foundation.Labels.parseDecimal, Nat.ofDigitChars]

theorem fills_paths_agree_sample :
    (parseQuicknodeFillBatch wholeNumbers sampleTradeSerde IterationOrder.stored "").Perm
      [{ coin := "BTC", eventMs := 42,
         content := .trade 7 "A" "100" "2" "0xabc" ("0xbuyer", "0xseller") }] := by
  have finished : canonicalTrade wholeNumbers sampleTrade =
      some { coin := "BTC", eventMs := 42,
             content := .trade 7 "A" "100" "2" "0xabc" ("0xbuyer", "0xseller") } := by
    have px : canonicalPositiveDecimal wholeNumbers sampleTrade.px = some "100" := by
      simp [canonicalPositiveDecimal, wholeNumbers, sampleTrade, Foundation.Labels.splitOnce,
        Foundation.Labels.parseDecimal, Nat.ofDigitChars]
      rfl
    have sz : canonicalPositiveDecimal wholeNumbers sampleTrade.sz = some "2" := by
      simp [canonicalPositiveDecimal, wholeNumbers, sampleTrade, Foundation.Labels.splitOnce,
        Foundation.Labels.parseDecimal, Nat.ofDigitChars]
      rfl
    have lower : (toAsciiLowercase sampleTrade.hash, toAsciiLowercase sampleTrade.users.1,
        toAsciiLowercase sampleTrade.users.2) = ("0xabc", "0xbuyer", "0xseller") := by
      decide +kernel
    simp only [Prod.mk.injEq] at lower
    unfold canonicalTrade
    rw [if_neg (by decide), px, sz, lower.1, lower.2.1, lower.2.2]
    rfl
  have distinct : ([sampleTrade].map WsTrade.key).Nodup := List.nodup_singleton _
  have written : FillsOf wholeNumbers [sampleTrade] sampleOthers
      (sampleBid :: sampleOthers ++ [sampleAsk]) := by
    refine ⟨fun _ => sampleAsk, fun _ => sampleBid, ?_, ?_⟩
    · intro trade member
      rw [List.mem_singleton.mp member]
      exact sampleTrade_fills
    · decide +kernel
  have unmatched : ∀ key ∉ [sampleTrade].map WsTrade.key,
      Unmatched wholeNumbers (sampleBid :: sampleOthers ++ [sampleAsk]) key := by
    rintro key other ask bid askFirst bidFirst ⟨_, _, _, crossed⟩
    obtain ⟨isAsk, askSide, rfl⟩ := firstFill_spec askFirst
    obtain ⟨isBid, bidSide, bidKey⟩ := firstFill_spec bidFirst
    have bothTook : ∀ event ∈ sampleBid :: sampleOthers ++ [sampleAsk],
        event.2.key ∉ [sampleTrade].map WsTrade.key → event.2.crossed = true := by
      decide +kernel
    exact crossed ((bothTook ask isAsk other).trans (bothTook bid isBid (bidKey ▸ other)).symm)
  have agree := (fills_paths_agree wholeNumbers_printsBack sampleTradeSerde IterationOrder.stored
    distinct written (by decide +kernel) unmatched
    (rfl : ({ channel := some "trades", data := some (), seq := none, cursor := none } :
      WsFrame Unit).channel = some Dataset.fills.channel) rfl rfl
    (rfl : sampleTradeSerde.fillBatch "" = _)).1
  simpa [parseWsTrades, sampleTradeSerde, Dataset.channel, finished] using agree

end Batch

end MarketBenchmark.Feeds
