import MarketBenchmark.Feeds.Books
import MarketBenchmark.Feeds.Json
import MarketBenchmark.Foundation.Runs

/-!
# Continuity of the Hydromancer connection

The connection numbers its frames and announces how many of them repeat what an
earlier connection has seen.  The collector keeps a cursor into the numbers and
the rest of the announced frames.  A reader who counts every frame of the book
channel keeps a ledger; the collector counts those that it can use.
-/

namespace MarketBenchmark.Feeds

open Foundation.Runs

/-! ## The loop of one connection -/

/-- The fields of a frame that only this connection reads. -/
structure HydromancerFrame extends WsFrame Json where
  messageType : Option String := none
  sessionId : Option String := none
  count : Option Nat := none
  hasGap : Bool := false
  failed : List Json := []
  subscribed : List Json := []

structure HydromancerResume where
  sessionId : Option String := none
  cursor : Option String := none

/-- The variables of the loop, and what survives the connection. -/
structure HydromancerConnection where
  resume : HydromancerResume := {}
  connected : Bool := false
  lastSeq : Option Nat := none
  replayRemaining : Nat := 0

/-- One message of the socket: the frame, unless its text is malformed, and the clocks once a book
is ready. -/
structure Delivery where
  frame : Option HydromancerFrame
  received : Nat
  receivedWallMs : Nat

def hydromancerAckIncludes (values : List Json) (channel : String) : Bool :=
  values.any fun value =>
    decide (value.asStr = some channel) ||
      decide ((value.get "type").bind Json.asStr = some channel)

namespace HydromancerConnection

/-- Remember the cursor of a frame that has one. -/
def resumeAt (connection : HydromancerConnection) (cursor : Option String) :
    HydromancerConnection :=
  { connection with
    resume := { connection.resume with cursor := cursor.or connection.resume.cursor } }

/-- The sequence number of a book; none when the frame is a repetition. -/
def advance (coin : String) (connection : HydromancerConnection) (seq : Option Nat) :
    Option (HydromancerConnection × List ProbeEvent) :=
  match seq with
  | none => some (connection, [])
  | some seq =>
      if ∃ last ∈ connection.lastSeq, seq ≤ last then none
      else
        let missing :=
          match connection.lastSeq with
          | none => 0
          | some last => seq - (last + 1)
        some ({ connection with lastSeq := some seq },
          if 0 < missing then [.sequenceGap .hydromancerWs coin missing] else [])

/-- A book of the coin: sequence, replay, and then the event. -/
def onBook (coin : String) (connection : HydromancerConnection) (parsed : ParsedWsBook)
    (received receivedWallMs : Nat) : HydromancerConnection × List ProbeEvent :=
  match connection.advance coin parsed.seq with
  | none => (connection, [])
  | some (connection, gaps) =>
      if 0 < connection.replayRemaining then
        ({ connection with replayRemaining := connection.replayRemaining - 1 }.resumeAt
          parsed.cursor, gaps)
      else
        (connection.resumeAt parsed.cursor, gaps ++
          [.market
            { provider := .hydromancerWs
              key := parsed.key
              received := received
              receivedWallMs := receivedWallMs }])

variable (decimals : Decimals) (serde : Serde Json) (dataset : Dataset) (coin : String)

/-- One message.  An error ends the connection and leaves what the next one resumes from. -/
def onMessage (connection : HydromancerConnection) (delivery : Delivery) :
    Except HydromancerResume (HydromancerConnection × List ProbeEvent) :=
  match delivery.frame with
  | none => .ok (connection, [])
  | some frame =>
      match frame.messageType with
      | some "welcome" =>
          .ok ({ connection with
            resume := { connection.resume with
              sessionId := frame.sessionId.or connection.resume.sessionId } }, [])
      | some "ping" => .ok (connection, [])
      | some "subscriptionUpdate" =>
          if frame.failed ≠ [] ∨ !hydromancerAckIncludes frame.subscribed dataset.channel then
            .error connection.resume
          else .ok ({ connection with connected := true }, [])
      | some "replay" =>
          .ok ({ connection.resumeAt frame.cursor with
              replayRemaining := frame.count.getD 0 },
            [.replay .hydromancerWs coin (frame.count.getD 0) frame.hasGap])
      | some "error" => .error {}
      | _ =>
          match parseWsBook decimals serde frame.toWsFrame dataset with
          | none => .ok (connection, [])
          | some parsed =>
              if parsed.key.coin ≠ coin then .ok (connection, [])
              else
                .ok (connection.onBook coin parsed delivery.received delivery.receivedWallMs)

/-- The connection after a message, as long as it lasts. -/
def step (connection : HydromancerConnection) (delivery : Delivery) :
    Option HydromancerConnection :=
  match connection.onMessage decimals serde dataset coin delivery with
  | .error _ => none
  | .ok (after, _) => some after

/-- What the collector sends for a message. -/
def events (connection : HydromancerConnection) (delivery : Delivery) : List ProbeEvent :=
  match connection.onMessage decimals serde dataset coin delivery with
  | .error _ => []
  | .ok (_, events) => events

end HydromancerConnection

/-! ## The ledger -/

namespace HydromancerFrame

def isControl (frame : HydromancerFrame) : Bool :=
  frame.messageType.any fun kind =>
    decide (kind ∈ ["welcome", "ping", "subscriptionUpdate", "replay", "error"])

/-- A frame of the book channel. -/
def isBook (dataset : Dataset) (frame : HydromancerFrame) : Bool :=
  !frame.isControl && decide (frame.channel = some dataset.channel)

variable (decimals : Decimals) (serde : Serde Json) (dataset : Dataset) (coin : String)

/-- The book of the coin that the frame carries, if it is one that the parser admits. -/
def admitted (frame : HydromancerFrame) : Option ParsedWsBook :=
  if frame.isBook dataset then
    (parseWsBook decimals serde frame.toWsFrame dataset).filter fun parsed =>
      decide (parsed.key.coin = coin)
  else none

end HydromancerFrame

/--
What a reader of every frame knows: how many book frames have been rejected since the last admitted
one, how many announced frames are still to come, and how many of the announced frames have been
rejected without a live frame being held back in their place.
-/
structure Ledger where
  skipped : Option Nat := none
  owed : Nat := 0
  debt : Nat := 0

section Accounting

variable (decimals : Decimals) (serde : Serde Json) (dataset : Dataset) (coin : String)

namespace Ledger

/-- A frame of the book channel. -/
def noteBook (ledger : Ledger) (isAdmitted : Bool) : Ledger where
  skipped := if isAdmitted then some 0 else ledger.skipped.map (· + 1)
  owed := ledger.owed - 1
  debt :=
    if isAdmitted then if 0 < ledger.owed then ledger.debt else ledger.debt - 1
    else if 0 < ledger.owed then ledger.debt + 1
    else ledger.debt

def note (ledger : Ledger) (delivery : Delivery) : Ledger :=
  match delivery.frame with
  | none => ledger
  | some frame =>
      if frame.messageType = some "replay" then
        { ledger with owed := frame.count.getD 0, debt := 0 }
      else if frame.isBook dataset then
        ledger.noteBook (frame.admitted decimals serde dataset coin).isSome
      else ledger

/-- The ledger after some messages. -/
def of (deliveries : List Delivery) : Ledger :=
  deliveries.foldl (note decimals serde dataset coin) {}

end Ledger

/-- The number of a message that is a book frame. -/
def bookSeq (delivery : Delivery) : Option (Option Nat) :=
  delivery.frame.bind fun frame => if frame.isBook dataset then some frame.seq else none

/-- The book frames carry consecutive numbers, none lost or repeated. -/
def Numbered (first : Nat) (deliveries : List Delivery) : Prop :=
  deliveries.filterMap (bookSeq dataset) =
    (List.range' first (deliveries.filterMap (bookSeq dataset)).length).map some

/-- The book that a message brings, with the clocks of its delivery. -/
def marketOf (delivery : Delivery) (parsed : ParsedWsBook) : ProbeEvent :=
  .market
    { provider := .hydromancerWs
      key := parsed.key
      received := delivery.received
      receivedWallMs := delivery.receivedWallMs }

/-- The books among what was sent. -/
def isMarket : ProbeEvent → Bool
  | .market _ => true
  | _ => false

/-- The message is charged for nothing that was received, and a book is sent exactly when it is
admitted and not announced. -/
structure Accounted (ledger : Ledger) (delivery : Delivery) (events : List ProbeEvent) : Prop where
  noGap : ∀ missing, .sequenceGap .hydromancerWs coin missing ∉ events
  markets : events.filter isMarket =
    match delivery.frame.bind (HydromancerFrame.admitted decimals serde dataset coin) with
    | none => []
    | some parsed => if 0 < ledger.owed then [] else [marketOf delivery parsed]

/-- No book frame was rejected since the last admitted one, and a live frame meets no debt. -/
def Fits (ledger : Ledger) (delivery : Delivery) : Prop :=
  (delivery.frame.bind (HydromancerFrame.admitted decimals serde dataset coin)).isSome →
    (∀ skipped ∈ ledger.skipped, skipped = 0) ∧ (ledger.owed = 0 → ledger.debt = 0)

/-! ## One message -/

/-- The four kinds of messages, for the connection and for the ledger. -/
inductive MessageCase (connection : HydromancerConnection) (delivery : Delivery) :
    HydromancerConnection → List ProbeEvent → Prop
  | silent {after : HydromancerConnection} (sameSeq : after.lastSeq = connection.lastSeq)
      (sameReplay : after.replayRemaining = connection.replayRemaining)
      (notBook : bookSeq dataset delivery = none)
      (noBook : delivery.frame.bind (HydromancerFrame.admitted decimals serde dataset coin) = none)
      (noted : ∀ ledger, Ledger.note decimals serde dataset coin ledger delivery = ledger) :
      MessageCase connection delivery after []
  | replay {after : HydromancerConnection} {count : Nat} {hasGap : Bool}
      (sameSeq : after.lastSeq = connection.lastSeq) (replaced : after.replayRemaining = count)
      (notBook : bookSeq dataset delivery = none)
      (noBook : delivery.frame.bind (HydromancerFrame.admitted decimals serde dataset coin) = none)
      (noted : ∀ ledger, Ledger.note decimals serde dataset coin ledger delivery =
        { ledger with owed := count, debt := 0 }) :
      MessageCase connection delivery after [.replay .hydromancerWs coin count hasGap]
  | rejected {seq : Option Nat} (book : bookSeq dataset delivery = some seq)
      (noBook : delivery.frame.bind (HydromancerFrame.admitted decimals serde dataset coin) = none)
      (noted : ∀ ledger, Ledger.note decimals serde dataset coin ledger delivery =
        ledger.noteBook false) :
      MessageCase connection delivery connection []
  | admitted {parsed : ParsedWsBook} (book : bookSeq dataset delivery = some parsed.seq)
      (isBook : delivery.frame.bind (HydromancerFrame.admitted decimals serde dataset coin) =
        some parsed)
      (noted : ∀ ledger, Ledger.note decimals serde dataset coin ledger delivery =
        ledger.noteBook true) :
      MessageCase connection delivery
        (connection.onBook coin parsed delivery.received delivery.receivedWallMs).1
        (connection.onBook coin parsed delivery.received delivery.receivedWallMs).2

variable {decimals serde dataset coin}

variable {connection after : HydromancerConnection} {delivery : Delivery}
  {events : List ProbeEvent} {frame : HydromancerFrame}

/-- What the parser admits is on the book channel and keeps its number. -/
theorem parseWsBook_eq_some {parsed : ParsedWsBook}
    (read : parseWsBook decimals serde frame.toWsFrame dataset = some parsed) :
    frame.channel = some dataset.channel ∧ parsed.seq = frame.seq := by
  unfold parseWsBook at read
  by_cases other : frame.channel ≠ some dataset.channel
  · rw [if_pos other] at read
    cases read
  · rw [if_neg other] at read
    refine ⟨not_not.mp other, ?_⟩
    cases data : frame.data with
    | none =>
        rw [data] at read
        cases read
    | some raw =>
        rw [data] at read
        obtain ⟨key, _, same⟩ := Option.map_eq_some_iff.mp read
        rw [← same]

variable (decimals serde dataset coin) in
/-- A control frame is no book frame. -/
theorem control_facts (isFrame : delivery.frame = some frame) (control : frame.isControl = true) :
    bookSeq dataset delivery = none ∧
      delivery.frame.bind (HydromancerFrame.admitted decimals serde dataset coin) = none := by
  have notBook : frame.isBook dataset = false := by
    unfold HydromancerFrame.isBook
    rw [control]
    rfl
  unfold bookSeq HydromancerFrame.admitted
  rw [isFrame]
  simp [notBook]

variable (decimals serde dataset coin) in
/-- A control frame other than a replay leaves the ledger alone. -/
theorem note_control (isFrame : delivery.frame = some frame) (control : frame.isControl = true)
    (notReplay : frame.messageType ≠ some "replay") (ledger : Ledger) :
    Ledger.note decimals serde dataset coin ledger delivery = ledger := by
  have notBook : frame.isBook dataset = false := by
    unfold HydromancerFrame.isBook
    rw [control]
    rfl
  unfold Ledger.note
  rw [isFrame]
  simp [notReplay, notBook]

/-- A frame that is no control frame is on the book channel or not read at all. -/
theorem messageCase_of_not_control (isFrame : delivery.frame = some frame)
    (plain : frame.isControl = false)
    (handled : (match parseWsBook decimals serde frame.toWsFrame dataset with
      | none => Except.ok (connection, [])
      | some parsed =>
          if parsed.key.coin ≠ coin then .ok (connection, [])
          else .ok (connection.onBook coin parsed delivery.received delivery.receivedWallMs)) =
      (Except.ok (after, events) : Except HydromancerResume _)) :
    MessageCase decimals serde dataset coin connection delivery after events := by
  have notReplay : frame.messageType ≠ some "replay" := by
    intro isKind
    unfold HydromancerFrame.isControl at plain
    rw [isKind] at plain
    exact absurd plain (by decide)
  have onChannel : frame.isBook dataset = decide (frame.channel = some dataset.channel) := by
    unfold HydromancerFrame.isBook
    rw [plain]
    rfl
  have noted : ∀ ledger, Ledger.note decimals serde dataset coin ledger delivery =
      if frame.isBook dataset then
        ledger.noteBook (frame.admitted decimals serde dataset coin).isSome
      else ledger := by
    intro ledger
    rw [Ledger.note, isFrame]
    exact if_neg notReplay
  have sameBook : bookSeq dataset delivery =
      if frame.isBook dataset then some frame.seq else none := by
    rw [bookSeq, isFrame]
    rfl
  have sameAdmitted :
      delivery.frame.bind (HydromancerFrame.admitted decimals serde dataset coin) =
        frame.admitted decimals serde dataset coin := by
    rw [isFrame]
    rfl
  unfold HydromancerFrame.admitted at noted sameAdmitted
  cases isBook : frame.isBook dataset with
  | false =>
      rw [isBook, if_neg Bool.false_ne_true] at sameBook sameAdmitted
      simp only [isBook, Bool.false_eq_true, if_false] at noted
      cases read : parseWsBook decimals serde frame.toWsFrame dataset with
      | none =>
          rw [read] at handled
          cases handled
          exact .silent rfl rfl sameBook sameAdmitted noted
      | some parsed =>
          rw [onChannel, decide_eq_true (parseWsBook_eq_some read).1] at isBook
          cases isBook
  | true =>
      rw [isBook, if_pos rfl] at sameBook sameAdmitted
      simp only [isBook, if_true] at noted
      cases read : parseWsBook decimals serde frame.toWsFrame dataset with
      | none =>
          rw [read] at handled sameAdmitted
          simp only [read] at noted
          cases handled
          exact .rejected sameBook sameAdmitted noted
      | some parsed =>
          rw [read] at handled sameAdmitted
          simp only [read] at noted
          dsimp only at handled
          by_cases other : parsed.key.coin ≠ coin
          · rw [if_pos other] at handled
            have dropped : (some parsed).filter (fun parsed => decide (parsed.key.coin = coin)) =
                none := by
              rw [Option.filter_some, decide_eq_false other]
              rfl
            rw [dropped] at sameAdmitted
            simp only [dropped] at noted
            cases handled
            exact .rejected sameBook sameAdmitted noted
          · rw [if_neg other] at handled
            have kept : (some parsed).filter (fun parsed => decide (parsed.key.coin = coin)) =
                some parsed := by
              rw [Option.filter_some, decide_eq_true (not_not.mp other)]
              rfl
            rw [kept] at sameAdmitted
            simp only [kept] at noted
            rw [← (parseWsBook_eq_some read).2] at sameBook
            have result := (Except.ok.inj handled).symm
            obtain rfl : after = _ := congrArg Prod.fst result
            obtain rfl : events = _ := congrArg Prod.snd result
            exact .admitted sameBook sameAdmitted noted

theorem messageCase (handled : connection.onMessage decimals serde dataset coin delivery =
      .ok (after, events)) :
    MessageCase decimals serde dataset coin connection delivery after events := by
  unfold HydromancerConnection.onMessage at handled
  cases isFrame : delivery.frame with
  | none =>
      rw [isFrame] at handled
      cases handled
      refine .silent rfl rfl ?_ ?_ fun ledger => ?_
      · rw [bookSeq, isFrame]
        rfl
      · rw [isFrame]
        rfl
      · rw [Ledger.note, isFrame]
  | some frame =>
      rw [isFrame] at handled
      dsimp only at handled
      have control : ∀ kind, frame.messageType = some kind →
          kind ∈ ["welcome", "ping", "subscriptionUpdate", "replay", "error"] →
          frame.isControl = true := by
        intro kind isKind member
        unfold HydromancerFrame.isControl
        rw [isKind]
        exact decide_eq_true member
      have silent : ∀ kind, frame.messageType = some kind →
          kind ∈ ["welcome", "ping", "subscriptionUpdate", "error"] →
          after.lastSeq = connection.lastSeq →
          after.replayRemaining = connection.replayRemaining → events = [] →
          MessageCase decimals serde dataset coin connection delivery after events := by
        rintro kind isKind member sameSeq sameReplay rfl
        have isControl := control kind isKind (by
          simp only [List.mem_cons, List.not_mem_nil, or_false] at member ⊢
          tauto)
        have facts := control_facts decimals serde dataset coin isFrame isControl
        refine .silent sameSeq sameReplay facts.1 facts.2
          (note_control decimals serde dataset coin isFrame isControl ?_)
        rw [isKind]
        rintro same
        rw [Option.some.inj same] at member
        exact absurd member (by decide)
      split at handled
      · next isKind =>
          cases handled
          exact silent _ isKind (by decide) rfl rfl rfl
      · next isKind =>
          cases handled
          exact silent _ isKind (by decide) rfl rfl rfl
      · next isKind =>
          split at handled
          · cases handled
          · cases handled
            exact silent _ isKind (by decide) rfl rfl rfl
      · next isKind =>
          cases handled
          have facts :=
            control_facts decimals serde dataset coin isFrame (control _ isKind (by decide))
          refine .replay rfl rfl facts.1 facts.2 fun ledger => ?_
          rw [Ledger.note, isFrame]
          exact if_pos isKind
      · cases handled
      · next notWelcome notPing notUpdate notReplay notError =>
          refine messageCase_of_not_control isFrame ?_ handled
          unfold HydromancerFrame.isControl
          cases isKind : frame.messageType with
          | none => rfl
          | some kind =>
              refine decide_eq_false fun member => ?_
              simp only [List.mem_cons, List.not_mem_nil, or_false] at member
              rcases member with rfl | rfl | rfl | rfl | rfl
              · exact notWelcome isKind
              · exact notPing isKind
              · exact notUpdate isKind
              · exact notReplay isKind
              · exact notError isKind

/-! ## The connection against the ledger -/

/-- The collector's cursor stands at the last admitted book, its rest is what is owed and what has
not been paid. -/
structure Follows (ledger : Ledger) (connection : HydromancerConnection) (next : Nat) : Prop where
  replay : connection.replayRemaining = ledger.owed + ledger.debt
  cursor : match ledger.skipped with
    | none => connection.lastSeq = none
    | some skipped => ∃ last, connection.lastSeq = some last ∧ last + skipped + 1 = next

theorem Follows.start (resume : HydromancerResume) : Follows {} { resume := resume } next where
  replay := rfl
  cursor := rfl

variable {ledger : Ledger} {next : Nat}

/-- The numbers that the collector takes for lost are those of the rejected frames. -/
theorem Follows.advance (follows : Follows ledger connection next) :
    connection.advance coin (some next) =
      some ({ connection with lastSeq := some next },
        if 0 < ledger.skipped.getD 0 then
          [.sequenceGap .hydromancerWs coin (ledger.skipped.getD 0)]
        else []) := by
  unfold HydromancerConnection.advance
  have cursor := follows.cursor
  cases skipped : ledger.skipped with
  | none =>
      rw [skipped] at cursor
      dsimp only at cursor ⊢
      rw [cursor, if_neg (by rintro ⟨last, isLast, _⟩; cases isLast)]
      rfl
  | some count =>
      rw [skipped] at cursor
      obtain ⟨last, isLast, rfl⟩ := cursor
      have fresh : ¬∃ previous ∈ connection.lastSeq, last + count + 1 ≤ previous := by
        rintro ⟨previous, isPrevious, le⟩
        rw [isLast] at isPrevious
        cases isPrevious
        omega
      have missing : last + count + 1 - (last + 1) = count := by omega
      dsimp only
      rw [if_neg fresh, isLast]
      simp only [missing]
      rfl

/-- What the collector takes for lost before an admitted book. -/
def gapsOf (coin : String) (ledger : Ledger) : List ProbeEvent :=
  if 0 < ledger.skipped.getD 0 then
    [.sequenceGap .hydromancerWs coin (ledger.skipped.getD 0)]
  else []

/-- A book is held back for what is owed and for what has not been paid. -/
theorem Follows.onBook (follows : Follows ledger connection next) {parsed : ParsedWsBook}
    (numbered : parsed.seq = some next) (received receivedWallMs : Nat) :
    (connection.onBook coin parsed received receivedWallMs).2 =
        gapsOf coin ledger ++
          (if 0 < ledger.owed + ledger.debt then []
          else
            [.market
              { provider := .hydromancerWs
                key := parsed.key
                received := received
                receivedWallMs := receivedWallMs }]) ∧
      Follows (ledger.noteBook true) (connection.onBook coin parsed received receivedWallMs).1
        (next + 1) := by
  unfold HydromancerConnection.onBook
  rw [numbered, follows.advance]
  dsimp only
  rw [follows.replay]
  have paid : ∀ after : HydromancerConnection, after.lastSeq = some next →
      after.replayRemaining = ledger.owed + ledger.debt - 1 →
      Follows (ledger.noteBook true) after (next + 1) := by
    intro after isLast remaining
    refine ⟨?_, next, isLast, rfl⟩
    rw [remaining]
    show _ = ledger.owed - 1 + if 0 < ledger.owed then ledger.debt else ledger.debt - 1
    split
    · omega
    · omega
  by_cases held : 0 < ledger.owed + ledger.debt
  · rw [if_pos held, if_pos held, List.append_nil]
    exact ⟨rfl, paid _ rfl (by rw [← follows.replay]; rfl)⟩
  · rw [if_neg held, if_neg held]
    refine ⟨rfl, paid _ rfl ?_⟩
    show ledger.owed + ledger.debt = _
    omega

/-- The ledger and the connection stay together, message by message. -/
theorem Follows.step (follows : Follows ledger connection next)
    (numbered : ∀ seq, bookSeq dataset delivery = some seq → seq = some next)
    (handled : MessageCase decimals serde dataset coin connection delivery after events) :
    Follows (ledger.note decimals serde dataset coin delivery) after
      (next + (bookSeq dataset delivery).toList.length) := by
  cases handled with
  | silent sameSeq sameReplay notBook noBook noted =>
      rw [noted, notBook]
      refine ⟨sameReplay.trans follows.replay, ?_⟩
      rw [sameSeq]
      exact follows.cursor
  | replay sameSeq replaced notBook noBook noted =>
      rw [noted, notBook]
      refine ⟨replaced, ?_⟩
      rw [sameSeq]
      exact follows.cursor
  | rejected book noBook noted =>
      rw [noted, book]
      refine ⟨?_, ?_⟩
      · rw [follows.replay]
        show _ = ledger.owed - 1 + if 0 < ledger.owed then ledger.debt + 1 else ledger.debt
        split
        · omega
        · omega
      · have cursor := follows.cursor
        show match ledger.skipped.map (· + 1) with
          | none => connection.lastSeq = none
          | some skipped => ∃ last, connection.lastSeq = some last ∧ last + skipped + 1 = next + 1
        cases skipped : ledger.skipped with
        | none =>
            rw [skipped] at cursor
            exact cursor
        | some count =>
            rw [skipped] at cursor
            obtain ⟨last, isLast, same⟩ := cursor
            have counted : last + (count + 1) + 1 = next + 1 := by omega
            exact ⟨last, isLast, counted⟩
  | admitted book isBook noted =>
      rw [noted, book]
      exact (follows.onBook (numbered _ book) _ _).2

/-- Nothing is taken for lost exactly when no frame was rejected since the last admitted book. -/
theorem gapsOf_cases (coin : String) (ledger : Ledger) :
    ((∀ skipped ∈ ledger.skipped, skipped = 0) ∧ gapsOf coin ledger = []) ∨
      ∃ skipped ∈ ledger.skipped, 0 < skipped ∧
        gapsOf coin ledger = [.sequenceGap .hydromancerWs coin skipped] := by
  unfold gapsOf
  cases skipped : ledger.skipped with
  | none => exact Or.inl ⟨nofun, rfl⟩
  | some count =>
      by_cases positive : 0 < count
      · exact Or.inr ⟨count, rfl, positive, if_pos positive⟩
      · refine Or.inl ⟨fun other same => ?_, if_neg positive⟩
        cases same
        exact Nat.eq_zero_of_not_pos positive

/-- A message is accounted for exactly when it fits the ledger. -/
theorem accounted_iff_fits (follows : Follows ledger connection next)
    (numbered : ∀ seq, bookSeq dataset delivery = some seq → seq = some next)
    (handled : MessageCase decimals serde dataset coin connection delivery after events) :
    Accounted decimals serde dataset coin ledger delivery events ↔
      Fits decimals serde dataset coin ledger delivery := by
  have unread : ∀ sent : List ProbeEvent,
      delivery.frame.bind (HydromancerFrame.admitted decimals serde dataset coin) = none →
      (∀ missing, .sequenceGap .hydromancerWs coin missing ∉ sent) →
      sent.filter isMarket = [] →
      (Accounted decimals serde dataset coin ledger delivery sent ↔
        Fits decimals serde dataset coin ledger delivery) := by
    intro sent noBook noGap noMarket
    refine iff_of_true ⟨noGap, ?_⟩ ?_
    · rw [noBook]
      exact noMarket
    · unfold Fits
      rw [noBook]
      exact nofun
  cases handled with
  | silent sameSeq sameReplay notBook noBook noted =>
      exact unread [] noBook (fun _ => List.not_mem_nil) rfl
  | replay sameSeq replaced notBook noBook noted =>
      refine unread _ noBook (fun missing member => ?_) rfl
      cases List.mem_singleton.mp member
  | rejected book noBook noted =>
      exact unread [] noBook (fun _ => List.not_mem_nil) rfl
  | @admitted parsed book isBook noted =>
      have sent := (follows.onBook (numbered _ book) delivery.received
        delivery.receivedWallMs : _ ∧ Follows _ (connection.onBook coin parsed _ _).1 _).1
      rw [sent]
      have fits : Fits decimals serde dataset coin ledger delivery ↔
          (∀ skipped ∈ ledger.skipped, skipped = 0) ∧ (ledger.owed = 0 → ledger.debt = 0) := by
        unfold Fits
        rw [isBook]
        exact forall_prop_of_true rfl
      rw [fits]
      rcases gapsOf_cases coin ledger with ⟨none, noGap⟩ | ⟨skipped, isSkipped, positive, gap⟩
      · rw [noGap, List.nil_append, and_iff_right none]
        constructor
        · intro accounted unowed
          by_contra indebted
          have held : 0 < ledger.owed + ledger.debt := by omega
          have markets := accounted.markets
          rw [isBook, if_pos held] at markets
          dsimp only at markets
          rw [if_neg (Nat.not_lt.mpr (Nat.le_of_eq unowed))] at markets
          cases markets
        · intro paid
          refine ⟨fun missing member => ?_, ?_⟩
          · split at member
            · cases member
            · cases List.mem_singleton.mp member
          · rw [isBook]
            dsimp only
            by_cases announced : 0 < ledger.owed
            · rw [if_pos announced, if_pos (Nat.add_pos_left announced _)]
              rfl
            · have unheld : ¬0 < ledger.owed + ledger.debt := by omega
              rw [if_neg announced, if_neg unheld]
              rfl
      · refine iff_of_false (fun accounted => accounted.noGap skipped ?_)
          fun both => absurd (both.1 skipped isSkipped) (Nat.pos_iff_ne_zero.mp positive)
        rw [gap]
        exact List.mem_cons_self

/-! ## The whole connection -/

variable {first : Nat} {deliveries : List Delivery} {final : HydromancerConnection}
  {resume : HydromancerResume}

theorem messageCase_of_step
    (stepped : connection.step decimals serde dataset coin delivery = some after) :
    MessageCase decimals serde dataset coin connection delivery after
      (connection.events decimals serde dataset coin delivery) := by
  unfold HydromancerConnection.step at stepped
  unfold HydromancerConnection.events
  cases handled : connection.onMessage decimals serde dataset coin delivery with
  | error resume =>
      rw [handled] at stepped
      cases stepped
  | ok result =>
      rw [handled] at stepped
      cases stepped
      exact messageCase handled

/-- A part of consecutive numbers is consecutive, and the one after it is the next. -/
theorem consecutive_split {front back : List (Option Nat)}
    (consecutive : front ++ back = (List.range' first (front ++ back).length).map some) :
    front = (List.range' first front.length).map some ∧
      ∀ one rest, back = one :: rest → one = some (first + front.length) := by
  rw [List.length_append, ← List.range'_append_1, List.map_append] at consecutive
  obtain ⟨sameFront, sameBack⟩ := List.append_inj consecutive (by simp)
  refine ⟨sameFront, ?_⟩
  rintro one rest rfl
  rw [List.length_cons, List.range'_succ, List.map_cons] at sameBack
  exact (List.cons.inj sameBack).1

/-- The next book frame carries the next number. -/
theorem Numbered.split {earlier later : List Delivery}
    (numbered : Numbered dataset first (earlier ++ delivery :: later)) :
    Numbered dataset first earlier ∧ ∀ seq, bookSeq dataset delivery = some seq →
      seq = some (first + (earlier.filterMap (bookSeq dataset)).length) := by
  unfold Numbered at numbered ⊢
  rw [List.filterMap_append] at numbered
  obtain ⟨numberedBefore, after⟩ := consecutive_split numbered
  refine ⟨numberedBefore, fun seq isSeq => ?_⟩
  exact after seq (later.filterMap (bookSeq dataset)) (List.filterMap_cons_some isSeq)

/-- The connection follows the ledger as long as the numbers are consecutive. -/
theorem follows_run (numbered : Numbered dataset first deliveries)
    (executed : run (HydromancerConnection.step decimals serde dataset coin)
      { resume := resume } deliveries = some final) :
    Follows (Ledger.of decimals serde dataset coin deliveries) final
      (first + (deliveries.filterMap (bookSeq dataset)).length) := by
  refine run_induction (fun deliveries state => Numbered dataset first deliveries →
    Follows (Ledger.of decimals serde dataset coin deliveries) state
      (first + (deliveries.filterMap (bookSeq dataset)).length)) ?_ ?_ executed numbered
  · exact fun _ => Follows.start resume
  · intro deliveries before delivery after _ ih stepped numbered
    obtain ⟨numberedBefore, here⟩ := numbered.split
    have followed := (ih numberedBefore).step here (messageCase_of_step stepped)
    rw [Ledger.of, List.foldl_append, List.filterMap_append, List.length_append, ← Nat.add_assoc]
    have one : ([delivery].filterMap (bookSeq dataset)).length =
        (bookSeq dataset delivery).toList.length := by
      cases isSeq : bookSeq dataset delivery with
      | none => rw [List.filterMap_cons_none isSeq]; rfl
      | some seq => rw [List.filterMap_cons_some isSeq]; rfl
    rw [one]
    exact followed

/-- Every message of a connection that resumes there is accounted for. -/
def AllAccounted (decimals : Decimals) (serde : Serde Json) (dataset : Dataset) (coin : String)
    (resume : HydromancerResume) (deliveries : List Delivery) : Prop :=
  ∀ earlier delivery later, deliveries = earlier ++ delivery :: later →
    ∀ before, run (HydromancerConnection.step decimals serde dataset coin)
        { resume := resume } earlier = some before →
      Accounted decimals serde dataset coin (Ledger.of decimals serde dataset coin earlier)
        delivery (before.events decimals serde dataset coin delivery)

/--
When the book frames of a connection carry consecutive numbers, the collector charges only what was
not received, and withholds exactly the announced frames, if and only if every admitted book arrives
when no frame was rejected since the admitted one before it and, unless it is announced itself, no
rejected announced frame is left without a live frame held back in its place.
-/
theorem continuity_iff (numbered : Numbered dataset first deliveries)
    (executed : run (HydromancerConnection.step decimals serde dataset coin)
      { resume := resume } deliveries = some final) :
    AllAccounted decimals serde dataset coin resume deliveries ↔
      ∀ earlier delivery later, deliveries = earlier ++ delivery :: later →
        Fits decimals serde dataset coin (Ledger.of decimals serde dataset coin earlier)
          delivery := by
  refine forall_congr' fun earlier => forall_congr' fun delivery => forall_congr' fun later =>
    forall_congr' fun split => ?_
  subst split
  obtain ⟨before, reached, rest⟩ := run_append_eq_some executed
  rw [run_cons] at rest
  obtain ⟨after, stepped, _⟩ := Option.bind_eq_some_iff.mp rest
  obtain ⟨numberedBefore, here⟩ := numbered.split
  have same := accounted_iff_fits (follows_run numberedBefore reached) here
    (messageCase_of_step stepped)
  constructor
  · exact fun accounted => same.mp (accounted before reached)
  · intro fits other otherReached
    cases Option.some.inj (reached.symm.trans otherReached)
    exact same.mpr fits

end Accounting

/-! ## A rejected frame between admitted ones -/

/-- The level of a JSON object. -/
def levelOf (value : Json) : Option Level := do
  let px ← (value.get "px").bind Json.asStr
  let sz ← (value.get "sz").bind Json.asStr
  match value.get "n" with
  | some (.number (.posInt n)) => some { px := px, sz := sz, n := n }
  | _ => none

/-- One side of a best bid and offer. -/
def offerOf : Json → Option (Option Level)
  | .null => some none
  | value => (levelOf value).map some

/-- The best bid and offer of a JSON object. -/
def bboDataOf (value : Json) : Option WsBboData := do
  let coin ← (value.get "coin").bind Json.asStr
  match value.get "time", value.get "bbo" with
  | some (.number (.posInt time)), some (.array [bid, ask]) =>
      let bid ← offerOf bid
      let ask ← offerOf ask
      some { coin := coin, time := time, bbo := (bid, ask) }
  | _, _ => none

def bboSerde : Serde Json where
  elements := Json.asArray
  bboData := bboDataOf
  l2Data _ := none
  trades _ := none
  fillBatch _ := none

/-- The decimals of the four prices and sizes below. -/
def fewDecimals : Decimals where
  fromStr
    | "1" => some 1
    | "4" => some 4
    | "5" => some 5
    | "6" => some 6
    | _ => none
  toText value :=
    if value = 1 then "1" else if value = 4 then "4" else if value = 5 then "5" else "6"

def levelValue (px : String) : Json :=
  .object [("px", .string px), ("sz", .string "1"), ("n", .number (.posInt 1))]

/-- The frame of a book with this bid and the ask 5. -/
def bboDelivery (seq : Nat) (bid : String) : Delivery where
  frame := some
    { channel := some "bbo"
      data := some (.object [("coin", .string "BTC"), ("time", .number (.posInt seq)),
        ("bbo", .array [levelValue bid, levelValue "5"])])
      seq := some seq
      cursor := none }
  received := seq
  receivedWallMs := seq

def replayDelivery (count : Nat) : Delivery where
  frame := some
    { channel := none
      data := none
      seq := none
      cursor := none
      messageType := some "replay"
      count := some count }
  received := 0
  receivedWallMs := 0

/-- Three books, the second of them crossed. -/
def crossedBetween : List Delivery :=
  [bboDelivery 1 "4", bboDelivery 2 "6", bboDelivery 3 "4"]

/-- One announced frame, which is crossed, and a live one. -/
def crossedReplay : List Delivery :=
  [replayDelivery 1, bboDelivery 1 "6", bboDelivery 2 "4"]

/-- One announced frame and a live one. -/
def soundReplay : List Delivery :=
  [replayDelivery 1, bboDelivery 1 "4", bboDelivery 2 "4"]

theorem soundReplay_accounted :
    AllAccounted fewDecimals bboSerde .bbo "BTC" {} soundReplay := by
  have completes : (run (HydromancerConnection.step fewDecimals bboSerde .bbo "BTC") {}
      soundReplay).isSome = true := by decide +kernel
  obtain ⟨final, executed⟩ := Option.isSome_iff_exists.mp completes
  have numbered : Numbered .bbo 1 soundReplay := by
    unfold Numbered
    decide
  refine (continuity_iff numbered executed).mpr ?_
  intro earlier delivery later split
  have each : ∀ index < 3, ∀ delivery ∈ soundReplay[index]?, Fits fewDecimals bboSerde .bbo "BTC"
      (Ledger.of fewDecimals bboSerde .bbo "BTC" (soundReplay.take index)) delivery := by
    unfold Fits
    decide +kernel
  have within : earlier.length < 3 := by
    have length := congrArg List.length split
    rw [List.length_append, List.length_cons] at length
    have three : soundReplay.length = 3 := rfl
    omega
  have fits := each earlier.length within delivery
  rw [split, List.take_left, List.getElem?_append_right (Nat.le_refl _), Nat.sub_self] at fits
  exact fits rfl

/-- A crossed book is charged as a lost one; an announced crossed book holds back a live one. -/
theorem crossed_books_charged :
    (Numbered .bbo 1 crossedBetween ∧
      ∃ before final, run (HydromancerConnection.step fewDecimals bboSerde .bbo "BTC") {}
          [bboDelivery 1 "4", bboDelivery 2 "6"] = some before ∧
        run (HydromancerConnection.step fewDecimals bboSerde .bbo "BTC") {} crossedBetween =
          some final ∧
        .sequenceGap .hydromancerWs "BTC" 1 ∈
          before.events fewDecimals bboSerde .bbo "BTC" (bboDelivery 3 "4") ∧
        ¬AllAccounted fewDecimals bboSerde .bbo "BTC" {} crossedBetween) ∧
    Numbered .bbo 1 crossedReplay ∧
      ∃ before final, run (HydromancerConnection.step fewDecimals bboSerde .bbo "BTC") {}
          [replayDelivery 1, bboDelivery 1 "6"] = some before ∧
        run (HydromancerConnection.step fewDecimals bboSerde .bbo "BTC") {} crossedReplay =
          some final ∧
        ((bboDelivery 2 "4").frame.bind
          (HydromancerFrame.admitted fewDecimals bboSerde .bbo "BTC")).isSome ∧
        before.events fewDecimals bboSerde .bbo "BTC" (bboDelivery 2 "4") = [] ∧
        ¬AllAccounted fewDecimals bboSerde .bbo "BTC" {} crossedReplay := by
  have gap : (run (HydromancerConnection.step fewDecimals bboSerde .bbo "BTC") {}
      [bboDelivery 1 "4", bboDelivery 2 "6"]).map (fun before => decide
        (.sequenceGap .hydromancerWs "BTC" 1 ∈
          before.events fewDecimals bboSerde .bbo "BTC" (bboDelivery 3 "4"))) = some true := by
    decide +kernel
  have held : (run (HydromancerConnection.step fewDecimals bboSerde .bbo "BTC") {}
      [replayDelivery 1, bboDelivery 1 "6"]).map (fun before =>
        before.events fewDecimals bboSerde .bbo "BTC" (bboDelivery 2 "4")) = some [] := by
    decide +kernel
  have admitted : ((bboDelivery 2 "4").frame.bind
      (HydromancerFrame.admitted fewDecimals bboSerde .bbo "BTC")).isSome = true := by
    decide +kernel
  have gapRun : (run (HydromancerConnection.step fewDecimals bboSerde .bbo "BTC") {}
      crossedBetween).isSome = true := by decide +kernel
  have heldRun : (run (HydromancerConnection.step fewDecimals bboSerde .bbo "BTC") {}
      crossedReplay).isSome = true := by decide +kernel
  obtain ⟨before, reached, charged⟩ := Option.map_eq_some_iff.mp gap
  obtain ⟨other, otherReached, silent⟩ := Option.map_eq_some_iff.mp held
  obtain ⟨final, executed⟩ := Option.isSome_iff_exists.mp gapRun
  obtain ⟨otherFinal, otherExecuted⟩ := Option.isSome_iff_exists.mp heldRun
  refine ⟨⟨by unfold Numbered; decide, before, final, reached, executed, of_decide_eq_true charged,
    fun all => ?_⟩, by unfold Numbered; decide, other, otherFinal, otherReached, otherExecuted,
    admitted, silent, fun all => ?_⟩
  · exact (all [bboDelivery 1 "4", bboDelivery 2 "6"] (bboDelivery 3 "4") [] rfl before
      reached).noGap 1 (of_decide_eq_true charged)
  · have markets := (all [replayDelivery 1, bboDelivery 1 "6"] (bboDelivery 2 "4") [] rfl other
      otherReached).markets
    obtain ⟨parsed, isParsed⟩ := Option.isSome_iff_exists.mp admitted
    have unowed : (Ledger.of fewDecimals bboSerde .bbo "BTC"
        [replayDelivery 1, bboDelivery 1 "6"]).owed = 0 := by decide +kernel
    rw [silent, isParsed] at markets
    dsimp only at markets
    rw [unowed] at markets
    cases markets

end MarketBenchmark.Feeds
