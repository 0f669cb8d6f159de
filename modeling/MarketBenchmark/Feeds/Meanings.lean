import MarketBenchmark.Feeds.Books
import MarketBenchmark.Feeds.Fills
import MarketBenchmark.Feeds.Hydromancer

/-!
# What the messages of the feeds tell

A book or a trade is a fact about a coin at a time, in numbers, however a feed
writes it.  Every key that a parser admits is the canonical text of a fact that
its message tells, and canonical texts of facts that were told are different for
different facts.
-/

namespace MarketBenchmark.Feeds

open Foundation.HashMaps

variable (decimals : Decimals)

/-! ## Facts -/

/-- A trade in numbers; `side` is that of the taker, names are in lower case. -/
structure Trade where
  tid : Nat
  side : String
  px : ℚ
  sz : ℚ
  hash : String
  buyer : String
  seller : String

namespace Trade

def content (trade : Trade) : ContentKey :=
  .trade trade.tid trade.side (decimals.toText trade.px) (decimals.toText trade.sz) trade.hash
    (trade.buyer, trade.seller)

/-- The finished trade is a way to write this one. -/
structure Written (trade : Trade) (written : WsTrade) : Prop where
  tid : written.tid = trade.tid
  side : written.side = trade.side
  px : decimals.fromStr written.px = some trade.px
  sz : decimals.fromStr written.sz = some trade.sz
  hash : toAsciiLowercase written.hash = trade.hash
  buyer : toAsciiLowercase written.users.1 = trade.buyer
  seller : toAsciiLowercase written.users.2 = trade.seller

/-- The two account fills are those of the trade: one sells, one buys, one of them took. -/
structure Filled (trade : Trade) (ask bid : UserFill) : Prop where
  askPx : decimals.fromStr ask.2.px = some trade.px
  bidPx : decimals.fromStr bid.2.px = some trade.px
  askSz : decimals.fromStr ask.2.sz = some trade.sz
  bidSz : decimals.fromStr bid.2.sz = some trade.sz
  askHash : toAsciiLowercase ask.2.hash = trade.hash
  bidHash : toAsciiLowercase bid.2.hash = trade.hash
  buyer : toAsciiLowercase bid.1 = trade.buyer
  seller : toAsciiLowercase ask.1 = trade.seller
  taker : trade.side = "A" ∧ ask.2.crossed = true ∧ bid.2.crossed = false ∨
    trade.side = "B" ∧ ask.2.crossed = false ∧ bid.2.crossed = true

end Trade

/-- What a message of a compared feed can tell. -/
inductive Fact where
  | bbo (book : BboBook)
  | l2 (book : L2Book)
  | trade (trade : Trade)

def Fact.content : Fact → ContentKey
  | .bbo book => book.content decimals
  | .l2 book => book.content decimals
  | .trade traded => traded.content decimals

/-! ## Messages -/

/-- A message of a feed: a websocket text as `parse_ws_frame` reads it, a gRPC update, or the JSON
of one block of fills. -/
inductive Message where
  | frame (frame : HydromancerFrame)
  | bbo (update : BboBookUpdate)
  | l2 (update : L2BookUpdate)
  | block (payload : String)

/-- The fact stands in the message, for the coin and the time. -/
inductive Tells (serde : Serde Json) (coin : String) (time : Nat) : Message → Fact → Prop
  | wsBbo {frame : HydromancerFrame} {raw : Json} {data : WsBboData} {book : BboBook}
      (channel : frame.channel = some Dataset.bbo.channel) (holds : frame.data = some raw)
      (reads : serde.bboData raw = some data)
      (ofCoin : data.coin = coin) (atTime : data.time = time)
      (written : book.Written decimals data.bbo.1 data.bbo.2) :
      Tells serde coin time (.frame frame) (.bbo book)
  | wsL2 {frame : HydromancerFrame} {raw value : Json} {data : WsL2Data} {book : L2Book}
      (channel : frame.channel = some Dataset.l2book.channel) (holds : frame.data = some raw)
      (single : unbatched serde raw = some value)
      (reads : serde.l2Data value = some data) (ofCoin : data.coin = coin)
      (atTime : data.time = time)
      (written : book.Written decimals data.levels.1 data.levels.2) :
      Tells serde coin time (.frame frame) (.l2 book)
  | wsTrade {frame : HydromancerFrame} {raw : Json} {trades : List WsTrade} {written : WsTrade}
      {trade : Trade} (channel : frame.channel = some Dataset.fills.channel)
      (holds : frame.data = some raw) (reads : serde.trades raw = some trades)
      (among : written ∈ trades) (ofCoin : written.coin = coin) (atTime : written.time = time)
      (writes : trade.Written decimals written) :
      Tells serde coin time (.frame frame) (.trade trade)
  | grpcBbo {update : BboBookUpdate} {book : BboBook} (ofCoin : update.coin = coin)
      (atTime : update.time = time)
      (written : book.Written decimals update.bid update.ask) :
      Tells serde coin time (.bbo update) (.bbo book)
  | grpcL2 {update : L2BookUpdate} {book : L2Book} (ofCoin : update.coin = coin)
      (atTime : update.time = time)
      (written : book.Written decimals update.bids update.asks) :
      Tells serde coin time (.l2 update) (.l2 book)
  | fills {payload : String} {batch : QuickNodeFillBatch} {ask bid : UserFill} {trade : Trade}
      (reads : serde.fillBatch payload = some batch)
      (isAsk : firstFill batch.events "A" (coin, time, trade.tid) = some ask)
      (isBid : firstFill batch.events "B" (coin, time, trade.tid) = some bid)
      (filled : trade.Filled decimals ask bid) :
      Tells serde coin time (.block payload) (.trade trade)

variable {decimals} {serde : Serde Json}

/-! ## What the parsers admit -/

/-- A key of a message is the canonical text of a fact that the message tells. -/
def Names (decimals : Decimals) (serde : Serde Json) (message : Message) (key : EventKey) : Prop :=
  ∃ fact, Tells decimals serde key.coin key.eventMs message fact ∧
    key.content = fact.content decimals

theorem parseWsBook_names (prints : decimals.PrintsBack) {dataset : Dataset}
    {frame : HydromancerFrame} {parsed : ParsedWsBook}
    (read : parseWsBook decimals serde frame.toWsFrame dataset = some parsed) :
    Names decimals serde (.frame frame) parsed.key := by
  have channel := (parseWsBook_eq_some read).1
  unfold parseWsBook at read
  rw [if_neg (not_not.mpr channel)] at read
  cases holds : frame.data with
  | none =>
      rw [holds] at read
      cases read
  | some raw =>
      rw [holds] at read
      obtain ⟨key, accepted, rfl⟩ := Option.map_eq_some_iff.mp read
      cases compared : dataset with
      | bbo =>
          subst compared
          obtain ⟨data, reads, accepted⟩ := Option.bind_eq_some_iff.mp accepted
          obtain ⟨_, _, book, written, rfl⟩ := (wsBboKey_eq_some prints).mp accepted
          exact ⟨.bbo book, .wsBbo channel holds reads rfl rfl written, rfl⟩
      | l2book =>
          subst compared
          obtain ⟨data, found, accepted⟩ := Option.bind_eq_some_iff.mp accepted
          obtain ⟨value, single, reads⟩ := Option.bind_eq_some_iff.mp found
          obtain ⟨_, _, book, written, rfl⟩ := (wsL2Key_eq_some prints).mp accepted
          exact ⟨.l2 book, .wsL2 channel holds single reads rfl rfl written, rfl⟩
      | fills | mempool | peering =>
          subst compared
          cases accepted

/-- What a finished trade is accepted as. -/
theorem canonicalTrade_eq_some {written : WsTrade} {key : EventKey}
    (accepted : canonicalTrade decimals written = some key) :
    ∃ trade : Trade, trade.Written decimals written ∧
      key = { coin := written.coin, eventMs := written.time, content := trade.content decimals } := by
  unfold canonicalTrade at accepted
  split at accepted
  · cases accepted
  cases px : canonicalPositiveDecimal decimals written.px with
  | none =>
      rw [px] at accepted
      cases accepted
  | some pxText =>
      cases sz : canonicalPositiveDecimal decimals written.sz with
      | none =>
          rw [px, sz] at accepted
          cases accepted
      | some szText =>
          rw [px, sz] at accepted
          obtain ⟨price, pxRead, _, rfl⟩ := canonicalPositiveDecimal_eq_some.mp px
          obtain ⟨size, szRead, _, rfl⟩ := canonicalPositiveDecimal_eq_some.mp sz
          cases accepted
          exact ⟨{ tid := written.tid, side := written.side, px := price, sz := size
                   hash := toAsciiLowercase written.hash
                   buyer := toAsciiLowercase written.users.1
                   seller := toAsciiLowercase written.users.2 },
            ⟨rfl, rfl, pxRead, szRead, rfl, rfl, rfl⟩, rfl⟩

theorem parseWsTrades_names {frame : HydromancerFrame} {key : EventKey}
    (member : key ∈ parseWsTrades decimals serde frame.toWsFrame) :
    Names decimals serde (.frame frame) key := by
  unfold parseWsTrades at member
  split at member
  · exact absurd member List.not_mem_nil
  next channel =>
    cases holds : frame.data with
    | none =>
        rw [holds] at member
        exact absurd member List.not_mem_nil
    | some raw =>
        rw [holds] at member
        dsimp only at member
        cases reads : serde.trades raw with
        | none =>
            rw [reads] at member
            exact absurd member List.not_mem_nil
        | some trades =>
            rw [reads] at member
            obtain ⟨written, among, accepted⟩ := List.mem_filterMap.mp member
            obtain ⟨trade, writes, rfl⟩ := canonicalTrade_eq_some accepted
            exact ⟨.trade trade, .wsTrade (not_not.mp channel) holds reads among rfl rfl writes,
              rfl⟩

theorem quicknodeBboKey_names (prints : decimals.PrintsBack) {coin : String}
    {update : BboBookUpdate} {key : EventKey}
    (accepted : quicknodeBboKey decimals coin update = some key) :
    key.coin = coin ∧ Names decimals serde (.bbo update) key := by
  obtain ⟨own, _, book, written, rfl⟩ := (quicknodeBboKey_eq_some prints).mp accepted
  exact ⟨own, .bbo book, .grpcBbo rfl rfl written, rfl⟩

theorem quicknodeL2Key_names (prints : decimals.PrintsBack) {coin : String}
    {update : L2BookUpdate} {key : EventKey}
    (accepted : quicknodeL2Key decimals coin update = some key) :
    key.coin = coin ∧ Names decimals serde (.l2 update) key := by
  obtain ⟨own, _, book, written, rfl⟩ := (quicknodeL2Key_eq_some prints).mp accepted
  exact ⟨own, .l2 book, .grpcL2 rfl rfl written, rfl⟩

/-- A pair of fills that yields an event belongs to one trade. -/
theorem pairEvent_eq_some (prints : decimals.PrintsBack) {seller buyer : String}
    {ask bid : QuickNodeFill} {key : EventKey}
    (accepted : pairEvent decimals (some (seller, ask), some (buyer, bid)) = some key) :
    ∃ trade : Trade, trade.Filled decimals (seller, ask) (buyer, bid) ∧ trade.tid = ask.tid ∧
      key = { coin := ask.coin, eventMs := ask.time, content := trade.content decimals } := by
  unfold pairEvent at accepted
  dsimp only at accepted
  split at accepted
  next askPx bidPx askSz bidSz askPxRead bidPxRead askSzRead bidSzRead =>
    obtain ⟨passed, traded⟩ := Option.ite_none_left_eq_some.mp accepted
    simp only [not_or, not_not, eqIgnoreAsciiCase, decide_eq_true_eq] at passed
    obtain ⟨_, _, _, samePx, sameSz, sameHash, took⟩ := passed
    obtain ⟨trade, written, rfl⟩ := canonicalTrade_eq_some traded
    obtain ⟨price, askPrice, _, rfl⟩ := canonicalPositiveDecimal_eq_some.mp askPxRead
    obtain ⟨size, askSize, _, rfl⟩ := canonicalPositiveDecimal_eq_some.mp askSzRead
    -- the texts of the trade are canonical, so they are read back as the numbers of the fills
    have px : price = trade.px :=
      Option.some.inj ((prints ask.px price askPrice).symm.trans written.px)
    have sz : size = trade.sz :=
      Option.some.inj ((prints ask.sz size askSize).symm.trans written.sz)
    have bidPrice := (canonicalPositiveDecimal_eq_iff prints askPxRead bidPxRead).mp samePx
    have bidSize := (canonicalPositiveDecimal_eq_iff prints askSzRead bidSzRead).mp sameSz
    refine ⟨trade, ⟨?_, ?_, ?_, ?_, written.hash, sameHash ▸ written.hash, written.buyer,
      written.seller, ?_⟩, written.tid.symm, rfl⟩
    · rw [askPrice, px]
    · rw [← bidPrice, askPrice, px]
    · rw [askSize, sz]
    · rw [← bidSize, askSize, sz]
    · have side := written.side
      dsimp only at side
      cases asked : ask.crossed with
      | true =>
          rw [asked] at took side
          exact Or.inl ⟨side.symm, rfl, Bool.eq_false_iff.mpr fun both => took both.symm⟩
      | false =>
          rw [asked] at took side
          exact Or.inr ⟨side.symm, rfl, Bool.eq_true_of_not_eq_false fun both => took both.symm⟩
  · cases accepted

theorem parseQuicknodeFillBatch_names (prints : decimals.PrintsBack) {order : IterationOrder}
    {payload : String} {key : EventKey}
    (member : key ∈ parseQuicknodeFillBatch decimals serde order payload) :
    Names decimals serde (.block payload) key := by
  unfold parseQuicknodeFillBatch at member
  cases reads : serde.fillBatch payload with
  | none =>
      rw [reads] at member
      exact absurd member List.not_mem_nil
  | some batch =>
      rw [reads] at member
      obtain ⟨fillKey, accepted⟩ := (mem_pairEvents order).mp member
      cases isAsk : firstFill batch.events "A" fillKey with
      | none =>
          rw [pairOf, isAsk] at accepted
          cases accepted
      | some ask =>
          cases isBid : firstFill batch.events "B" fillKey with
          | none =>
              rw [pairOf, isAsk, isBid] at accepted
              cases accepted
          | some bid =>
              rw [pairOf, isAsk, isBid] at accepted
              obtain ⟨trade, filled, tid, rfl⟩ := pairEvent_eq_some prints accepted
              obtain ⟨_, _, rfl⟩ := firstFill_spec isAsk
              rw [QuickNodeFill.key, ← tid] at isAsk isBid
              exact ⟨.trade trade, .fills reads isAsk isBid filled, rfl⟩

/-! ## One content, one fact -/

theorem Level.Denotes.quote_eq (prints : decimals.PrintsBack) {first second : Level}
    {firstQuote secondQuote : Quote} (firstDenotes : first.Denotes decimals firstQuote)
    (secondDenotes : second.Denotes decimals secondQuote)
    (same : firstQuote.key decimals = secondQuote.key decimals) : firstQuote = secondQuote := by
  have levels := (firstDenotes.key_eq_iff prints secondDenotes).mp same
  exact firstDenotes.unique
    ⟨levels.px.trans secondDenotes.px, levels.sz.trans secondDenotes.sz,
      levels.n.trans secondDenotes.n⟩

theorem offers_quote_eq (prints : decimals.PrintsBack) {first second : Option Level}
    {firstQuote secondQuote : Option Quote} (firstOffers : Offers decimals first firstQuote)
    (secondOffers : Offers decimals second secondQuote)
    (same : firstQuote.map (Quote.key decimals) = secondQuote.map (Quote.key decimals)) :
    firstQuote = secondQuote := by
  cases firstOffers with
  | none =>
      cases secondOffers with
      | none => rfl
      | some _ => cases same
  | some firstDenotes =>
      cases secondOffers with
      | none => cases same
      | some secondDenotes =>
          exact congrArg some (firstDenotes.quote_eq prints secondDenotes (Option.some.inj same))

theorem denote_quotes_eq (prints : decimals.PrintsBack) {first second : List Level}
    {firstQuotes secondQuotes : List Quote} (firstDenote : Denote decimals first firstQuotes)
    (secondDenote : Denote decimals second secondQuotes)
    (same : firstQuotes.map (Quote.key decimals) = secondQuotes.map (Quote.key decimals)) :
    firstQuotes = secondQuotes := by
  induction firstDenote generalizing second secondQuotes with
  | nil =>
      cases secondDenote with
      | nil => rfl
      | cons denotes denote => cases same
  | cons firstDenotes firstDenote ih =>
      cases secondDenote with
      | nil => cases same
      | cons secondDenotes secondDenote =>
          obtain ⟨head, tail⟩ := List.cons.inj same
          rw [firstDenotes.quote_eq prints secondDenotes head, ih secondDenote tail]

/-- The numbers of the fact were read from texts. -/
inductive Fact.Read (decimals : Decimals) : Fact → Prop
  | bbo {book : BboBook} {bid ask : Option Level} (written : book.Written decimals bid ask) :
      Fact.Read decimals (.bbo book)
  | l2 {book : L2Book} {bids asks : List Level} (written : book.Written decimals bids asks) :
      Fact.Read decimals (.l2 book)
  | trade {traded : Trade} {px sz : String} (price : decimals.fromStr px = some traded.px)
      (size : decimals.fromStr sz = some traded.sz) : Fact.Read decimals (.trade traded)

theorem Tells.read {coin : String} {time : Nat} {message : Message} {fact : Fact}
    (told : Tells decimals serde coin time message fact) : fact.Read decimals := by
  cases told with
  | wsBbo _ _ _ _ _ written => exact .bbo written
  | wsL2 _ _ _ _ _ _ written => exact .l2 written
  | wsTrade _ _ _ _ _ _ writes => exact .trade writes.px writes.sz
  | grpcBbo _ _ written => exact .bbo written
  | grpcL2 _ _ written => exact .l2 written
  | fills _ _ _ filled => exact .trade filled.askPx filled.askSz

/-- Facts that were read have different contents when they differ. -/
theorem Fact.Read.content_inj (prints : decimals.PrintsBack) {first second : Fact}
    (firstRead : first.Read decimals) (secondRead : second.Read decimals)
    (same : first.content decimals = second.content decimals) : first = second := by
  cases firstRead with
  | @bbo book _ _ firstWritten =>
      cases secondRead with
      | @bbo other _ _ secondWritten =>
          have sides := ContentKey.bbo.inj same
          have bids := offers_quote_eq prints firstWritten.1 secondWritten.1 sides.1
          have asks := offers_quote_eq prints firstWritten.2 secondWritten.2 sides.2
          cases book
          cases other
          cases bids
          cases asks
          rfl
      | l2 => cases same
      | trade => cases same
  | @l2 book _ _ firstWritten =>
      cases secondRead with
      | bbo => cases same
      | @l2 other _ _ secondWritten =>
          have sides := ContentKey.l2.inj same
          have bids := denote_quotes_eq prints firstWritten.1 secondWritten.1 sides.1
          have asks := denote_quotes_eq prints firstWritten.2 secondWritten.2 sides.2
          cases book
          cases other
          cases bids
          cases asks
          rfl
      | trade => cases same
  | @trade traded _ _ price size =>
      cases secondRead with
      | bbo => cases same
      | l2 => cases same
      | @trade other _ _ otherPrice otherSize =>
          obtain ⟨tid, side, px, sz, hash, users⟩ := ContentKey.trade.inj same
          have samePx := prints.toText_inj price otherPrice px
          have sameSz := prints.toText_inj size otherSize sz
          obtain ⟨buyer, seller⟩ := Prod.mk.inj users
          cases traded
          cases other
          cases tid
          cases side
          cases samePx
          cases sameSz
          cases hash
          cases buyer
          cases seller
          rfl

end MarketBenchmark.Feeds
