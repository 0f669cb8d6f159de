import MarketBenchmark.Feeds.Frames

/-!
# Books from the websocket and from gRPC

Both paths check a book step by step, each in its own words.  What they accept
is one notion of a book, on numbers: a side in strict price order, and no bid at
or above an ask.
-/

namespace MarketBenchmark.Feeds

variable (decimals : Decimals)

/-! ## The websocket path -/

/-- One side of a best bid and offer, which may be missing. -/
def canonicalOffer : Option Level → Option (Option LevelKey)
  | none => some none
  | some level => (canonicalLevel decimals level).map fun result => some result.1

/-- The branch of `parse_ws_book` for best bids and offers. -/
def wsBboKey (data : WsBboData) : Option EventKey :=
  if data.coin = "" ∨ data.time = 0 then none
  else
    match canonicalOffer decimals data.bbo.1 with
    | none => none
    | some bid =>
        match canonicalOffer decimals data.bbo.2 with
        | none => none
        | some ask =>
            if bid = none ∧ ask = none ∨ bookIsCrossed decimals bid ask then none
            else some { coin := data.coin, eventMs := data.time, content := .bbo bid ask }

/-- The branch of `parse_ws_book` for whole books. -/
def wsL2Key (data : WsL2Data) : Option EventKey :=
  if data.coin = "" ∨ data.time = 0 ∨ data.levels.1.length ≠ l2BookDepth ∨
      data.levels.2.length ≠ l2BookDepth then none
  else
    match canonicalSide decimals data.levels.1 true with
    | none => none
    | some bids =>
        match canonicalSide decimals data.levels.2 false with
        | none => none
        | some asks =>
            if bookIsCrossed decimals bids.head? asks.head? then none
            else some { coin := data.coin, eventMs := data.time, content := .l2 bids asks }

section Json

variable {Value : Type} (serde : Serde Value)

/-- A whole book may come as the only element of an array. -/
def unbatched (raw : Value) : Option Value :=
  match serde.elements raw with
  | some [value] => some value
  | some _ => none
  | none => some raw

/-- `parse_ws_book`. -/
def parseWsBook (frame : WsFrame Value) (dataset : Dataset) : Option ParsedWsBook :=
  if frame.channel ≠ some dataset.channel then none
  else
    match frame.data with
    | none => none
    | some raw =>
        let key :=
          match dataset with
          | .bbo => (serde.bboData raw).bind (wsBboKey decimals)
          | .l2book => ((unbatched serde raw).bind serde.l2Data).bind (wsL2Key decimals)
          | .fills | .mempool | .peering => none
        key.map fun key => { key := key, seq := frame.seq, cursor := frame.cursor }

end Json

/-! ## The gRPC path -/

/-- What the branch of `run_quicknode_once` for best bids and offers sends for an update. -/
def quicknodeBboKey (coin : String) (update : BboBookUpdate) : Option EventKey :=
  if update.coin ≠ coin ∨ update.time = 0 then none
  else
    match canonicalOffer decimals update.bid with
    | none => none
    | some bid =>
        match canonicalOffer decimals update.ask with
        | none => none
        | some ask =>
            if bid = none ∧ ask = none ∨ bookIsCrossed decimals bid ask then none
            else some { coin := update.coin, eventMs := update.time, content := .bbo bid ask }

/-- What the branch of `run_quicknode_once` for whole books sends for an update. -/
def quicknodeL2Key (coin : String) (update : L2BookUpdate) : Option EventKey :=
  if update.coin ≠ coin ∨ update.time = 0 ∨ update.bids.length ≠ l2BookDepth ∨
      update.asks.length ≠ l2BookDepth then none
  else
    match canonicalSide decimals update.bids true with
    | none => none
    | some bids =>
        match canonicalSide decimals update.asks false with
        | none => none
        | some asks =>
            if bookIsCrossed decimals bids.head? asks.head? then none
            else some { coin := update.coin, eventMs := update.time, content := .l2 bids asks }

/-! ## Books as numbers -/

/-- A best bid and offer with at least one side. -/
structure BboBook where
  bid : Option Quote
  ask : Option Quote
  quoted : bid ≠ none ∨ ask ≠ none
  uncrossed : ∀ best ∈ bid, ∀ offer ∈ ask, best.px < offer.px

/-- A book of full depth. -/
structure L2Book where
  bids : List Quote
  asks : List Quote
  bids_length : bids.length = l2BookDepth
  asks_length : asks.length = l2BookDepth
  bids_descending : bids.Pairwise fun earlier later => later.px < earlier.px
  asks_ascending : asks.Pairwise fun earlier later => earlier.px < later.px
  uncrossed : ∀ bid ∈ bids, ∀ ask ∈ asks, bid.px < ask.px

/-- The level that may be missing denotes the quote that may be missing. -/
def Offers (level : Option Level) (quote : Option Quote) : Prop :=
  Option.Rel (Level.Denotes decimals) level quote

namespace BboBook

def content (book : BboBook) : ContentKey :=
  .bbo (book.bid.map (Quote.key decimals)) (book.ask.map (Quote.key decimals))

/-- The levels are a way to write the book. -/
def Written (book : BboBook) (bid ask : Option Level) : Prop :=
  Offers decimals bid book.bid ∧ Offers decimals ask book.ask

end BboBook

namespace L2Book

def content (book : L2Book) : ContentKey :=
  .l2 (book.bids.map (Quote.key decimals)) (book.asks.map (Quote.key decimals))

/-- The levels are a way to write the book. -/
def Written (book : L2Book) (bids asks : List Level) : Prop :=
  Denote decimals bids book.bids ∧ Denote decimals asks book.asks

end L2Book

variable {decimals}

/-! ## What both paths accept -/

theorem canonicalOffer_eq_some {level : Option Level} {key : Option LevelKey} :
    canonicalOffer decimals level = some key ↔
      ∃ quote, Offers decimals level quote ∧ key = quote.map (Quote.key decimals) := by
  cases level with
  | none =>
      constructor
      · intro accepted
        cases accepted
        exact ⟨none, Option.Rel.none, rfl⟩
      · rintro ⟨quote, offers, rfl⟩
        cases offers
        rfl
  | some level =>
      constructor
      · intro accepted
        obtain ⟨⟨found, price⟩, read, rfl⟩ := Option.map_eq_some_iff.mp accepted
        obtain ⟨quote, denotes, rfl, rfl⟩ := canonicalLevel_eq_some.mp read
        exact ⟨some quote, Option.Rel.some denotes, rfl⟩
      · rintro ⟨quote, offers, rfl⟩
        cases offers with
        | some denotes => simp [canonicalOffer, denotes.canonicalLevel]

theorem bookIsCrossed_offers (prints : decimals.PrintsBack) {bid ask : Option Level}
    {bidQuote askQuote : Option Quote} (bidOffers : Offers decimals bid bidQuote)
    (askOffers : Offers decimals ask askQuote) :
    bookIsCrossed decimals (bidQuote.map (Quote.key decimals))
        (askQuote.map (Quote.key decimals)) = false ↔
      ∀ best ∈ bidQuote, ∀ offer ∈ askQuote, best.px < offer.px := by
  cases bidOffers with
  | none => simp [bookIsCrossed]
  | some bidDenotes =>
      cases askOffers with
      | none => simp [bookIsCrossed]
      | some askDenotes =>
          simpa using bookIsCrossed_keys prints bidDenotes askDenotes

/-- The checks that both paths make on a best bid and offer once coin and time are right. -/
def checkedBbo (decimals : Decimals) (coin : String) (time : Nat) (bid ask : Option Level) :
    Option EventKey :=
  match canonicalOffer decimals bid with
  | none => none
  | some bid =>
      match canonicalOffer decimals ask with
      | none => none
      | some ask =>
          if bid = none ∧ ask = none ∨ bookIsCrossed decimals bid ask then none
          else some { coin := coin, eventMs := time, content := .bbo bid ask }

theorem checkedBbo_eq_some (prints : decimals.PrintsBack) {coin : String} {time : Nat}
    {bid ask : Option Level} {key : EventKey} :
    checkedBbo decimals coin time bid ask = some key ↔
      ∃ book : BboBook, book.Written decimals bid ask ∧
        key = { coin := coin, eventMs := time, content := book.content decimals } := by
  constructor
  · intro accepted
    cases bidRead : canonicalOffer decimals bid with
    | none => simp [checkedBbo, bidRead] at accepted
    | some bidKey =>
        cases askRead : canonicalOffer decimals ask with
        | none => simp [checkedBbo, bidRead, askRead] at accepted
        | some askKey =>
            simp only [checkedBbo, bidRead, askRead] at accepted
            split at accepted
            · cases accepted
            next passed =>
              cases accepted
              obtain ⟨quoted, uncrossed⟩ := not_or.mp passed
              obtain ⟨bidQuote, bidOffers, rfl⟩ := canonicalOffer_eq_some.mp bidRead
              obtain ⟨askQuote, askOffers, rfl⟩ := canonicalOffer_eq_some.mp askRead
              have prices := (bookIsCrossed_offers prints bidOffers askOffers).mp
                (Bool.eq_false_iff.mpr uncrossed)
              simp only [Option.map_eq_none_iff, not_and_or] at quoted
              exact ⟨⟨bidQuote, askQuote, quoted, prices⟩, ⟨bidOffers, askOffers⟩, rfl⟩
  · rintro ⟨book, ⟨bidOffers, askOffers⟩, rfl⟩
    have bidRead := canonicalOffer_eq_some.mpr ⟨book.bid, bidOffers, rfl⟩
    have askRead := canonicalOffer_eq_some.mpr ⟨book.ask, askOffers, rfl⟩
    have uncrossed := (bookIsCrossed_offers prints bidOffers askOffers).mpr book.uncrossed
    have quoted := book.quoted
    simp only [checkedBbo, bidRead, askRead]
    rw [if_neg]
    · rfl
    · simp only [Option.map_eq_none_iff, not_or, not_and_or]
      exact ⟨quoted, Bool.eq_false_iff.mp uncrossed⟩

/-- The checks that both paths make on a whole book once coin, time and depth are right. -/
def checkedL2 (decimals : Decimals) (coin : String) (time : Nat) (bids asks : List Level) :
    Option EventKey :=
  match canonicalSide decimals bids true with
  | none => none
  | some bids =>
      match canonicalSide decimals asks false with
      | none => none
      | some asks =>
          if bookIsCrossed decimals bids.head? asks.head? then none
          else some { coin := coin, eventMs := time, content := .l2 bids asks }

/-- When the best prices are apart, all are. -/
theorem uncrossed_iff_head {bids asks : List Quote} (someBids : bids ≠ []) (someAsks : asks ≠ [])
    (descending : bids.Pairwise fun earlier later => later.px < earlier.px)
    (ascending : asks.Pairwise fun earlier later => earlier.px < later.px) :
    (∀ best ∈ bids.head?, ∀ offer ∈ asks.head?, best.px < offer.px) ↔
      ∀ bid ∈ bids, ∀ ask ∈ asks, bid.px < ask.px := by
  cases bids with
  | nil => exact absurd rfl someBids
  | cons best bids =>
      cases asks with
      | nil => exact absurd rfl someAsks
      | cons offer asks =>
          simp only [List.head?_cons, Option.mem_some_iff, forall_eq']
          constructor
          · intro apart bid isBid ask isAsk
            have below : bid.px ≤ best.px := by
              rcases List.mem_cons.mp isBid with rfl | later
              · exact le_rfl
              · exact ((List.pairwise_cons.mp descending).1 bid later).le
            have above : offer.px ≤ ask.px := by
              rcases List.mem_cons.mp isAsk with rfl | later
              · exact le_rfl
              · exact ((List.pairwise_cons.mp ascending).1 ask later).le
            exact below.trans_lt (apart.trans_le above)
          · intro apart
            exact apart best List.mem_cons_self offer List.mem_cons_self

theorem Denote.head {levels : List Level} {quotes : List Quote}
    (denote : Denote decimals levels quotes) : Offers decimals levels.head? quotes.head? := by
  cases denote with
  | nil => exact Option.Rel.none
  | cons denotes _ => exact Option.Rel.some denotes

theorem checkedL2_eq_some (prints : decimals.PrintsBack) {coin : String} {time : Nat}
    {bids asks : List Level} {key : EventKey} :
    bids.length = l2BookDepth ∧ asks.length = l2BookDepth ∧
        checkedL2 decimals coin time bids asks = some key ↔
      ∃ book : L2Book, book.Written decimals bids asks ∧
        key = { coin := coin, eventMs := time, content := book.content decimals } := by
  have nonempty : ∀ {levels : List Level} {quotes : List Quote}, levels.length = l2BookDepth →
      Denote decimals levels quotes → quotes.length = l2BookDepth ∧ quotes ≠ [] := by
    intro levels quotes full denote
    have length := denote.length_eq.symm.trans full
    refine ⟨length, ?_⟩
    rintro rfl
    cases length
  constructor
  · rintro ⟨fullBids, fullAsks, accepted⟩
    cases bidRead : canonicalSide decimals bids true with
    | none => simp [checkedL2, bidRead] at accepted
    | some bidKeys =>
        cases askRead : canonicalSide decimals asks false with
        | none => simp [checkedL2, bidRead, askRead] at accepted
        | some askKeys =>
            simp only [checkedL2, bidRead, askRead] at accepted
            split at accepted
            · cases accepted
            next passed =>
              cases accepted
              obtain ⟨bidQuotes, bidDenote, descending, rfl⟩ := canonicalSide_eq_some.mp bidRead
              obtain ⟨askQuotes, askDenote, ascending, rfl⟩ := canonicalSide_eq_some.mp askRead
              have descending := descending.imp better_true.mp
              have ascending := ascending.imp better_false.mp
              obtain ⟨bidsLength, someBids⟩ := nonempty fullBids bidDenote
              obtain ⟨asksLength, someAsks⟩ := nonempty fullAsks askDenote
              rw [List.head?_map, List.head?_map] at passed
              have prices := (bookIsCrossed_offers prints bidDenote.head askDenote.head).mp
                (Bool.eq_false_iff.mpr passed)
              exact ⟨⟨bidQuotes, askQuotes, bidsLength, asksLength, descending, ascending,
                (uncrossed_iff_head someBids someAsks descending ascending).mp prices⟩,
                ⟨bidDenote, askDenote⟩, rfl⟩
  · rintro ⟨book, ⟨bidDenote, askDenote⟩, rfl⟩
    have bidRead : canonicalSide decimals bids true =
        some (book.bids.map (Quote.key decimals)) :=
      canonicalSide_eq_some.mpr ⟨book.bids, bidDenote,
        book.bids_descending.imp better_true.mpr, rfl⟩
    have askRead : canonicalSide decimals asks false =
        some (book.asks.map (Quote.key decimals)) :=
      canonicalSide_eq_some.mpr ⟨book.asks, askDenote,
        book.asks_ascending.imp better_false.mpr, rfl⟩
    have fullBids := bidDenote.length_eq.trans book.bids_length
    have fullAsks := askDenote.length_eq.trans book.asks_length
    have prices := (uncrossed_iff_head (nonempty fullBids bidDenote).2
      (nonempty fullAsks askDenote).2 book.bids_descending book.asks_ascending).mpr book.uncrossed
    have uncrossed := (bookIsCrossed_offers prints bidDenote.head askDenote.head).mpr prices
    refine ⟨fullBids, fullAsks, ?_⟩
    simp only [checkedL2, bidRead, askRead, List.head?_map]
    rw [if_neg (Bool.eq_false_iff.mp uncrossed)]
    rfl

/-! ## Both paths -/

theorem wsBboKey_eq_some (prints : decimals.PrintsBack) {data : WsBboData} {key : EventKey} :
    wsBboKey decimals data = some key ↔ data.coin ≠ "" ∧ data.time ≠ 0 ∧
      ∃ book : BboBook, book.Written decimals data.bbo.1 data.bbo.2 ∧
        key = { coin := data.coin, eventMs := data.time, content := book.content decimals } := by
  have unfolded : wsBboKey decimals data = if data.coin = "" ∨ data.time = 0 then none
      else checkedBbo decimals data.coin data.time data.bbo.1 data.bbo.2 := rfl
  rw [unfolded, Option.ite_none_left_eq_some, checkedBbo_eq_some prints, not_or, and_assoc]

theorem quicknodeBboKey_eq_some (prints : decimals.PrintsBack) {coin : String}
    {update : BboBookUpdate} {key : EventKey} :
    quicknodeBboKey decimals coin update = some key ↔ update.coin = coin ∧ update.time ≠ 0 ∧
      ∃ book : BboBook, book.Written decimals update.bid update.ask ∧
        key = { coin := update.coin, eventMs := update.time,
                content := book.content decimals } := by
  have unfolded : quicknodeBboKey decimals coin update =
      if update.coin ≠ coin ∨ update.time = 0 then none
      else checkedBbo decimals update.coin update.time update.bid update.ask := rfl
  rw [unfolded, Option.ite_none_left_eq_some, checkedBbo_eq_some prints, not_or, and_assoc,
    not_not]

theorem wsL2Key_eq_some (prints : decimals.PrintsBack) {data : WsL2Data} {key : EventKey} :
    wsL2Key decimals data = some key ↔ data.coin ≠ "" ∧ data.time ≠ 0 ∧
      ∃ book : L2Book, book.Written decimals data.levels.1 data.levels.2 ∧
        key = { coin := data.coin, eventMs := data.time, content := book.content decimals } := by
  have unfolded : wsL2Key decimals data =
      if data.coin = "" ∨ data.time = 0 ∨ data.levels.1.length ≠ l2BookDepth ∨
        data.levels.2.length ≠ l2BookDepth then none
      else checkedL2 decimals data.coin data.time data.levels.1 data.levels.2 := rfl
  rw [unfolded, Option.ite_none_left_eq_some, ← checkedL2_eq_some prints]
  simp only [not_or, not_not, and_assoc]

theorem quicknodeL2Key_eq_some (prints : decimals.PrintsBack) {coin : String}
    {update : L2BookUpdate} {key : EventKey} :
    quicknodeL2Key decimals coin update = some key ↔ update.coin = coin ∧ update.time ≠ 0 ∧
      ∃ book : L2Book, book.Written decimals update.bids update.asks ∧
        key = { coin := update.coin, eventMs := update.time,
                content := book.content decimals } := by
  have unfolded : quicknodeL2Key decimals coin update =
      if update.coin ≠ coin ∨ update.time = 0 ∨ update.bids.length ≠ l2BookDepth ∨
        update.asks.length ≠ l2BookDepth then none
      else checkedL2 decimals update.coin update.time update.bids update.asks := rfl
  rw [unfolded, Option.ite_none_left_eq_some, ← checkedL2_eq_some prints]
  simp only [not_or, not_not, and_assoc]

/-! ## Agreement -/

section Agreement

variable {Value : Type} {serde : Serde Value} {frame : WsFrame Value}

/-- The frame and the update are two ways to send one best bid and offer. -/
def SameBbo (serde : Serde Value) (frame : WsFrame Value) (update : BboBookUpdate) : Prop :=
  frame.channel = some Dataset.bbo.channel ∧ ∃ raw, frame.data = some raw ∧
    serde.bboData raw =
      some { coin := update.coin, time := update.time, bbo := (update.bid, update.ask) }

/-- The frame and the update are two ways to send one whole book. -/
def SameL2 (serde : Serde Value) (frame : WsFrame Value) (update : L2BookUpdate) : Prop :=
  frame.channel = some Dataset.l2book.channel ∧ ∃ raw value, frame.data = some raw ∧
    unbatched serde raw = some value ∧ serde.l2Data value =
      some { coin := update.coin, time := update.time, levels := (update.bids, update.asks) }

theorem parseWsBook_bbo {update : BboBookUpdate} (same : SameBbo serde frame update) :
    (parseWsBook decimals serde frame .bbo).map ParsedWsBook.key =
      wsBboKey decimals
        { coin := update.coin, time := update.time, bbo := (update.bid, update.ask) } := by
  obtain ⟨channel, raw, holds, decoded⟩ := same
  simp only [parseWsBook, channel, holds, decoded, ne_eq, not_true_eq_false, if_false,
    Option.bind_some, Option.map_map]
  exact Option.map_id_fun' ▸ rfl

theorem parseWsBook_l2 {update : L2BookUpdate} (same : SameL2 serde frame update) :
    (parseWsBook decimals serde frame .l2book).map ParsedWsBook.key =
      wsL2Key decimals
        { coin := update.coin, time := update.time, levels := (update.bids, update.asks) } := by
  obtain ⟨channel, raw, value, holds, single, decoded⟩ := same
  simp only [parseWsBook, channel, holds, single, decoded, ne_eq, not_true_eq_false, if_false,
    Option.bind_some, Option.map_map]
  exact Option.map_id_fun' ▸ rfl

/-- One of the paths sends the update's best bid and offer under the key. -/
def BboSent (decimals : Decimals) (serde : Serde Value) (update : BboBookUpdate)
    (key : EventKey) : Prop :=
  (∃ coin, quicknodeBboKey decimals coin update = some key) ∨
    ∃ frame, SameBbo serde frame update ∧
      (parseWsBook decimals serde frame .bbo).map ParsedWsBook.key = some key

/-- One of the paths sends the update's book under the key. -/
def L2Sent (decimals : Decimals) (serde : Serde Value) (update : L2BookUpdate)
    (key : EventKey) : Prop :=
  (∃ coin, quicknodeL2Key decimals coin update = some key) ∨
    ∃ frame, SameL2 serde frame update ∧
      (parseWsBook decimals serde frame .l2book).map ParsedWsBook.key = some key

theorem BboSent.book (prints : decimals.PrintsBack) {update : BboBookUpdate} {key : EventKey}
    (sent : BboSent decimals serde update key) :
    ∃ book : BboBook, book.Written decimals update.bid update.ask ∧
      key.content = book.content decimals := by
  rcases sent with ⟨coin, accepted⟩ | ⟨frame, same, accepted⟩
  · obtain ⟨_, _, book, written, rfl⟩ := (quicknodeBboKey_eq_some prints).mp accepted
    exact ⟨book, written, rfl⟩
  · rw [parseWsBook_bbo same] at accepted
    obtain ⟨_, _, book, written, rfl⟩ := (wsBboKey_eq_some prints).mp accepted
    exact ⟨book, written, rfl⟩

theorem L2Sent.book (prints : decimals.PrintsBack) {update : L2BookUpdate} {key : EventKey}
    (sent : L2Sent decimals serde update key) :
    ∃ book : L2Book, book.Written decimals update.bids update.asks ∧
      key.content = book.content decimals := by
  rcases sent with ⟨coin, accepted⟩ | ⟨frame, same, accepted⟩
  · obtain ⟨_, _, book, written, rfl⟩ := (quicknodeL2Key_eq_some prints).mp accepted
    exact ⟨book, written, rfl⟩
  · rw [parseWsBook_l2 same] at accepted
    obtain ⟨_, _, book, written, rfl⟩ := (wsL2Key_eq_some prints).mp accepted
    exact ⟨book, written, rfl⟩

theorem offers_keys_eq_iff (prints : decimals.PrintsBack) {first second : Option Level}
    {firstQuote secondQuote : Option Quote} (firstOffers : Offers decimals first firstQuote)
    (secondOffers : Offers decimals second secondQuote) :
    firstQuote.map (Quote.key decimals) = secondQuote.map (Quote.key decimals) ↔
      Option.Rel (Level.Same decimals) first second := by
  cases firstOffers with
  | none =>
      cases secondOffers with
      | none => simp
      | some _ => simp
  | some firstDenotes =>
      cases secondOffers with
      | none => simp
      | some secondDenotes =>
          simpa using firstDenotes.key_eq_iff prints secondDenotes

/--
For the subscribed coin, which `parse_coins` never leaves empty, both paths send
the same books under the same keys; two books have equal contents exactly when
they are numerically equal; and what is sent as a whole book is one, of full
depth, in strict price order and uncrossed.
-/
theorem book_paths_agree (prints : decimals.PrintsBack) (serde : Serde Value) :
    (∀ coin frame update, coin ≠ "" → SameBbo serde frame update →
      quicknodeBboKey decimals coin update =
        if update.coin = coin then
          (parseWsBook decimals serde frame .bbo).map ParsedWsBook.key
        else none) ∧
    (∀ coin frame update, coin ≠ "" → SameL2 serde frame update →
      quicknodeL2Key decimals coin update =
        if update.coin = coin then
          (parseWsBook decimals serde frame .l2book).map ParsedWsBook.key
        else none) ∧
    (∀ first second firstKey secondKey, BboSent decimals serde first firstKey →
      BboSent decimals serde second secondKey →
      (firstKey.content = secondKey.content ↔
        Option.Rel (Level.Same decimals) first.bid second.bid ∧
          Option.Rel (Level.Same decimals) first.ask second.ask)) ∧
    (∀ first second firstKey secondKey, L2Sent decimals serde first firstKey →
      L2Sent decimals serde second secondKey →
      (firstKey.content = secondKey.content ↔
        List.Forall₂ (Level.Same decimals) first.bids second.bids ∧
          List.Forall₂ (Level.Same decimals) first.asks second.asks)) ∧
    ∀ update key, L2Sent decimals serde update key →
      ∃ book : L2Book, book.Written decimals update.bids update.asks ∧
        key.content = book.content decimals := by
  refine ⟨?_, ?_, ?_, ?_, ?_⟩
  · intro coin frame update subscribed same
    rw [parseWsBook_bbo same]
    apply Option.ext
    intro key
    rw [quicknodeBboKey_eq_some prints, Option.ite_none_right_eq_some, wsBboKey_eq_some prints]
    refine and_congr_right fun own => ?_
    rw [own]
    exact (and_iff_right subscribed).symm
  · intro coin frame update subscribed same
    rw [parseWsBook_l2 same]
    apply Option.ext
    intro key
    rw [quicknodeL2Key_eq_some prints, Option.ite_none_right_eq_some, wsL2Key_eq_some prints]
    refine and_congr_right fun own => ?_
    rw [own]
    exact (and_iff_right subscribed).symm
  · intro first second firstKey secondKey firstSent secondSent
    obtain ⟨firstBook, firstWritten, firstContent⟩ := firstSent.book prints
    obtain ⟨secondBook, secondWritten, secondContent⟩ := secondSent.book prints
    rw [firstContent, secondContent, BboBook.content, BboBook.content, ContentKey.bbo.injEq,
      offers_keys_eq_iff prints firstWritten.1 secondWritten.1,
      offers_keys_eq_iff prints firstWritten.2 secondWritten.2]
  · intro first second firstKey secondKey firstSent secondSent
    obtain ⟨firstBook, firstWritten, firstContent⟩ := firstSent.book prints
    obtain ⟨secondBook, secondWritten, secondContent⟩ := secondSent.book prints
    rw [firstContent, secondContent, L2Book.content, L2Book.content, ContentKey.l2.injEq,
      denote_keys_eq_iff prints firstWritten.1 secondWritten.1,
      denote_keys_eq_iff prints firstWritten.2 secondWritten.2]
  · exact fun update key sent => sent.book prints

/-- Twenty levels a side, with the same text behind every number. -/
def sampleUpdate (zeros : String) : L2BookUpdate where
  coin := "BTC"
  time := 42
  bids := (List.range 20).map fun depth =>
    { px := toString (100 + (20 - depth)) ++ zeros, sz := toString 2 ++ zeros, n := 1 }
  asks := (List.range 20).map fun depth =>
    { px := toString (121 + depth) ++ zeros, sz := toString 3 ++ zeros, n := 1 }

def sampleL2Book : L2Book where
  bids := (List.range 20).map fun depth =>
    ⟨(100 + (20 - depth) : Nat), (2 : Nat), 1, by positivity, by norm_num, by decide⟩
  asks := (List.range 20).map fun depth =>
    ⟨(121 + depth : Nat), (3 : Nat), 1, by positivity, by norm_num, by decide⟩
  bids_length := rfl
  asks_length := rfl
  bids_descending := by
    rw [List.pairwise_map]
    simp only [Nat.cast_lt]
    decide
  asks_ascending := by
    rw [List.pairwise_map]
    simp only [Nat.cast_lt]
    decide
  uncrossed := by
    intro bid isBid ask isAsk
    obtain ⟨above, _, rfl⟩ := List.mem_map.mp isBid
    obtain ⟨below, _, rfl⟩ := List.mem_map.mp isAsk
    simp only [Nat.cast_lt]
    omega

theorem sampleL2Book_written {zeros : String}
    (read : ∀ number : Nat, wholeNumbers.fromStr (toString number ++ zeros) =
      some (number : ℚ)) :
    sampleL2Book.Written wholeNumbers (sampleUpdate zeros).bids (sampleUpdate zeros).asks := by
  constructor
  · rw [Denote, sampleUpdate, sampleL2Book, List.forall₂_map_left_iff, List.forall₂_map_right_iff,
      List.forall₂_same]
    exact fun _ _ => ⟨read _, read _, rfl⟩
  · rw [Denote, sampleUpdate, sampleL2Book, List.forall₂_map_left_iff, List.forall₂_map_right_iff,
      List.forall₂_same]
    exact fun _ _ => ⟨read _, read _, rfl⟩

def sampleSerde : Serde WsL2Data where
  elements := fun _ => none
  bboData := fun _ => none
  l2Data := some
  trades := fun _ => none
  fillBatch := fun _ => none

def sampleFrame (zeros : String) : WsFrame WsL2Data where
  channel := some "l2Book"
  data := some
    { coin := "BTC", time := 42,
      levels := ((sampleUpdate zeros).bids, (sampleUpdate zeros).asks) }
  seq := none
  cursor := none

theorem book_paths_agree_sample :
    quicknodeL2Key wholeNumbers "BTC" (sampleUpdate ".0") =
        (parseWsBook wholeNumbers sampleSerde (sampleFrame ".0") .l2book).map ParsedWsBook.key ∧
      ∃ firstKey secondKey,
        quicknodeL2Key wholeNumbers "BTC" (sampleUpdate ".0") = some firstKey ∧
        quicknodeL2Key wholeNumbers "BTC" (sampleUpdate "") = some secondKey ∧
        firstKey.content = secondKey.content := by
  obtain ⟨_, paths, _, contents, _⟩ := book_paths_agree wholeNumbers_printsBack sampleSerde
  have readPlain : ∀ number : Nat, wholeNumbers.fromStr (toString number ++ "") =
      some (number : ℚ) := by
    intro number
    rw [String.append_empty]
    exact wholeNumbers_fromStr number
  have zeros := sampleL2Book_written wholeNumbers_fromStr_zero
  have plain := sampleL2Book_written readPlain
  have firstSent : quicknodeL2Key wholeNumbers "BTC" (sampleUpdate ".0") = some _ :=
    (quicknodeL2Key_eq_some wholeNumbers_printsBack).mpr
      ⟨rfl, by decide, sampleL2Book, zeros, rfl⟩
  have secondSent : quicknodeL2Key wholeNumbers "BTC" (sampleUpdate "") = some _ :=
    (quicknodeL2Key_eq_some wholeNumbers_printsBack).mpr
      ⟨rfl, by decide, sampleL2Book, plain, rfl⟩
  refine ⟨?_, _, _, firstSent, secondSent, ?_⟩
  · have agree := paths "BTC" (sampleFrame ".0") (sampleUpdate ".0") (by decide)
      ⟨rfl, _, _, rfl, rfl, rfl⟩
    have own : (sampleUpdate ".0").coin = "BTC" := rfl
    exact agree.trans (if_pos own)
  · refine (contents (sampleUpdate ".0") (sampleUpdate "") _ _ (Or.inl ⟨"BTC", firstSent⟩)
      (Or.inl ⟨"BTC", secondSent⟩)).mpr ?_
    have text : ∀ number : Nat, wholeNumbers.fromStr (toString number ++ ".0") =
        wholeNumbers.fromStr (toString number ++ "") :=
      fun number => (wholeNumbers_fromStr_zero number).trans (readPlain number).symm
    have same : ∀ px sz : Nat, Level.Same wholeNumbers
        { px := toString px ++ ".0", sz := toString sz ++ ".0", n := 1 }
        { px := toString px ++ "", sz := toString sz ++ "", n := 1 } :=
      fun px sz => ⟨text px, text sz, rfl⟩
    constructor
    · rw [sampleUpdate, sampleUpdate, List.forall₂_map_left_iff, List.forall₂_map_right_iff,
        List.forall₂_same]
      exact fun depth _ => same (100 + (20 - depth)) 2
    · rw [sampleUpdate, sampleUpdate, List.forall₂_map_left_iff, List.forall₂_map_right_iff,
        List.forall₂_same]
      exact fun depth _ => same (121 + depth) 3

end Agreement

end MarketBenchmark.Feeds
