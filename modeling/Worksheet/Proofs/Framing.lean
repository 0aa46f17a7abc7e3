import Worksheet.Http
import Worksheet.Proofs.Observers
import Worksheet.Proofs.RoundTrip
/-! Frames can be told apart, however the text of a stream is cut: a frame ends at the first empty
line, since JSON on one line has no line feed in it. So a client of a stream can know what the hub
knows. -/
namespace Worksheet

/-! ## JSON on one line -/

namespace Json

/-- A text without control characters. -/
def Printed (text : List Char) : Prop := ∀ c ∈ text, 0x20 ≤ c.toNat

instance (text : List Char) : Decidable (Printed text) := List.decidableBAll _ text

variable {a b : List Char}

theorem printed_cons {c : Char} : Printed (c :: a) ↔ 0x20 ≤ c.toNat ∧ Printed a :=
  List.forall_mem_cons

theorem printed_append : Printed (a ++ b) ↔ Printed a ∧ Printed b := List.forall_mem_append

theorem printed_letter {c e : Char} (letter : letter? e = some c) : 0x20 ≤ e.toNat := by
  unfold letter? at letter
  split at letter
  all_goals first | decide | cases letter

theorem printed_hexDigit : ∀ n : Fin 16, 0x20 ≤ (hexDigit n).toNat := by decide

theorem printed_escape (c : Char) : Printed (escape c) := by
  obtain ⟨e, written, letter, -⟩ | ⟨low, written⟩ | ⟨written, -, -, high⟩ := escape_cases c
  · rw [written, printed_cons, printed_cons]
    exact ⟨by decide, printed_letter letter, by decide⟩
  · have first := printed_hexDigit ⟨c.toNat / 16, by omega⟩
    have second := printed_hexDigit ⟨c.toNat % 16, by omega⟩
    rw [written]
    simp only [printed_cons]
    exact ⟨by decide, by decide, by decide, by decide, first, second, by decide⟩
  · rw [written, printed_cons]
    exact ⟨high, by decide⟩

theorem printed_quote (cs : List Char) : Printed (quote cs) := by
  have inside : Printed (cs.flatMap escape) := by
    intro c member
    obtain ⟨d, -, here⟩ := List.mem_flatMap.1 member
    exact printed_escape d c here
  rw [quote, List.cons_append, printed_cons, printed_append, printed_cons]
  exact ⟨by decide, inside, by decide, by decide⟩

theorem printed_toDigits (n : Nat) : Printed (Nat.toDigits 10 n) := by
  intro c member
  have digit := digit_of_toDigits n c member
  simp only [Char.isDigit, Bool.and_eq_true, decide_eq_true_eq] at digit
  exact Nat.le_trans (by decide) (show 48 ≤ c.toNat from digit.1)

namespace Tree

mutual

/-- The other layout puts line feeds between values; this one puts nothing there. -/
theorem printed_write (depth : Nat) : (t : Tree) → Printed (t.write .compact depth)
  | null => by
    rw [write]
    decide
  | whole n => by
    rw [write]
    exact printed_toDigits n
  | string s => by
    rw [write]
    exact printed_quote s.toList
  | array [] => by
    rw [write]
    decide
  | array (t :: more) => by
    have first := printed_write (depth + 1) t
    have rest := printed_writeElements (depth + 1) more
    simp only [write, Layout.gap, List.append_nil, List.cons_append, List.nil_append, printed_cons,
      printed_append]
    exact ⟨by decide, ⟨first, rest⟩, by decide⟩
  | object [] => by
    rw [write]
    decide
  | object ((name, t) :: more) => by
    have first := printed_write (depth + 1) t
    have rest := printed_writeMembers (depth + 1) more
    simp only [write, Layout.gap, Layout.colon, List.append_nil, List.cons_append, List.nil_append,
      printed_cons, printed_append]
    exact ⟨by decide, ⟨⟨⟨printed_quote name.toList, by decide⟩, first⟩, rest⟩, by decide⟩

theorem printed_writeElements (depth : Nat) :
    (ts : List Tree) → Printed (writeElements .compact depth ts)
  | [] => by rw [writeElements]; decide
  | t :: more => by
    have first := printed_write depth t
    have rest := printed_writeElements depth more
    simp only [writeElements, Layout.gap, List.cons_append, List.nil_append, printed_cons,
      printed_append]
    exact ⟨by decide, first, rest⟩

theorem printed_writeMembers (depth : Nat) :
    (ms : List (String × Tree)) → Printed (writeMembers .compact depth ms)
  | [] => by
    rw [writeMembers]
    decide
  | (name, t) :: more => by
    have first := printed_write depth t
    have rest := printed_writeMembers depth more
    simp only [writeMembers, Layout.gap, Layout.colon, List.cons_append, List.nil_append,
      printed_cons, printed_append]
    exact ⟨by decide, ⟨⟨printed_quote name.toList, by decide⟩, first⟩, rest⟩

end

end Tree

end Json

/-! ## The reader of a stream -/

namespace Client

/-- Cuts a text behind the first two line feeds in a row. -/
def cut : List Char → Option (List Char × List Char)
  | [] => none
  | '\n' :: '\n' :: rest => some (['\n', '\n'], rest)
  | c :: rest => (cut rest).map fun p => (c :: p.1, p.2)

theorem cut_shorter {text frame rest : List Char} (taken : cut text = some (frame, rest)) :
    rest.length < text.length := by
  fun_induction cut text generalizing frame with
  | case1 => cases taken
  | case2 behind =>
    cases taken
    simp only [List.length_cons]
    omega
  | case3 c behind _ ih =>
    obtain ⟨p, found, same⟩ := Option.map_eq_some_iff.1 taken
    cases same
    exact Nat.lt_succ_of_lt (ih found)

/-- Cuts a text as often as it can be cut. -/
def pieces (text : List Char) : List (List Char) × List Char :=
  match _ : cut text with
  | none => ([], text)
  | some (frame, rest) => (frame :: (pieces rest).1, (pieces rest).2)
termination_by text.length
decreasing_by exact cut_shorter ‹_›

end Client

/-- The report in a frame, if that is what it is. -/
def Report.ofFrame? : List Char → Option Report
  | 'd' :: 'a' :: 't' :: 'a' :: ':' :: body => (decode (String.ofList body)).toOption
  | _ => none

/-- A reader of a stream, which comes in chunks. -/
structure Client where
  /-- What has come behind the last whole frame. -/
  buffer : List Char
  /-- What the frames were read as. -/
  reports : List (Option Report)
  deriving DecidableEq

namespace Client

def start : Client := ⟨[], []⟩

/-- Takes a chunk, and reads the frames that are whole with it. -/
def take (c : Client) (chunk : String) : Client :=
  let (frames, left) := pieces (c.buffer ++ chunk.toList)
  ⟨left, c.reports ++ frames.map Report.ofFrame?⟩

def read (chunks : List String) : Client := chunks.foldl take start

variable {text line frame rest : List Char}

theorem pieces_of_none (whole : cut text = none) : pieces text = ([], text) := by
  rw [pieces]
  split
  · rfl
  · next taken => cases whole.symm.trans taken

theorem pieces_of_some (taken : cut text = some (frame, rest)) :
    pieces text = (frame :: (pieces rest).1, (pieces rest).2) := by
  rw [pieces]
  split
  · next whole => cases whole.symm.trans taken
  · next taken' =>
    cases taken.symm.trans taken'
    rfl

theorem cut_line (none_inside : '\n' ∉ line) (rest : List Char) :
    cut (line ++ '\n' :: '\n' :: rest) = some (line ++ ['\n', '\n'], rest) := by
  induction line with
  | nil => rfl
  | cons c line ih =>
    obtain ⟨no_feed, none_later⟩ := not_or.1 (mt List.mem_cons.2 none_inside)
    rw [List.cons_append, cut]
    · rw [ih none_later]
      rfl
    · rintro _ rfl
      exact absurd rfl no_feed

theorem cut_append (taken : cut text = some (frame, rest)) (more : List Char) :
    cut (text ++ more) = some (frame, rest ++ more) := by
  fun_induction cut text generalizing frame with
  | case1 => cases taken
  | case2 behind =>
    cases taken
    rfl
  | case3 c behind no_mark ih =>
    obtain ⟨p, found, same⟩ := Option.map_eq_some_iff.1 taken
    cases same
    rw [List.cons_append, cut]
    · rw [ih found]
      rfl
    · -- Something was cut off behind the line feed, so no empty line lies across the seam.
      intro late feed start
      cases behind with
      | nil => cases found
      | cons d behind =>
        obtain ⟨rfl, -⟩ := List.cons.inj start
        exact no_mark behind feed rfl

/-- What comes later changes none of the pieces that are cut already. -/
theorem pieces_append (text more : List Char) :
    pieces (text ++ more) = ((pieces text).1 ++ (pieces ((pieces text).2 ++ more)).1,
      (pieces ((pieces text).2 ++ more)).2) := by
  fun_induction pieces text with
  | case1 text whole => rfl
  | case2 text frame rest taken ih =>
    rw [pieces_of_some (cut_append taken more), ih]
    rfl

end Client

namespace Report

/-- The first line of a frame; only an empty one follows. -/
def line (r : Report) : String := "data:" ++ r.encode

theorem encode_toList (r : Report) : r.encode.toList = r.toTree.write .compact 0 := by
  rw [encode, Json.Tree.text, String.toList_ofList]

theorem printed_line (r : Report) : Json.Printed r.line.toList := by
  rw [line, String.toList_append, encode_toList, Json.printed_append]
  exact ⟨by decide, Json.Tree.printed_write 0 r.toTree⟩

theorem frame_line (r : Report) : r.frame.toList = r.line.toList ++ ['\n', '\n'] := by
  rw [frame, String.toList_append]
  rfl

theorem no_feed_in_line (r : Report) : '\n' ∉ r.line.toList := fun member =>
  absurd (r.printed_line _ member) (by decide)

theorem no_return_in_line (r : Report) : '\r' ∉ r.line.toList := fun member =>
  absurd (r.printed_line _ member) (by decide)

theorem ofFrame?_frame (r : Report) : ofFrame? r.frame.toList = some r := by
  have blank : Json.Blank ['\n', '\n'] := by simp [Json.Blank, Json.isSpace]
  have split : r.frame.toList =
      'd' :: 'a' :: 't' :: 'a' :: ':' :: (r.toTree.write .compact 0 ++ ['\n', '\n']) := by
    rw [frame_line, line, String.toList_append, encode_toList]
    rfl
  rw [split, ofFrame?, decode, String.toList_ofList, r.readAll_write .compact blank]
  rfl

theorem pieces_frames (rs : List Report) :
    Client.pieces (rs.flatMap fun r => r.frame.toList) =
      (rs.map fun r => r.frame.toList, []) := by
  induction rs with
  | nil => exact Client.pieces_of_none rfl
  | cons r rs ih =>
    have first : Client.cut (r.frame.toList ++ rs.flatMap fun r => r.frame.toList) =
        some (r.frame.toList, rs.flatMap fun r => r.frame.toList) := by
      rw [frame_line, List.append_assoc]
      exact Client.cut_line r.no_feed_in_line _
    rw [List.flatMap_cons, Client.pieces_of_some first, ih]
    rfl

end Report

namespace Client

/-- A client to which a text has come. -/
def after (text : List Char) : Client := ⟨(pieces text).2, (pieces text).1.map Report.ofFrame?⟩

theorem take_after (text : List Char) (chunk : String) :
    (after text).take chunk = after (text ++ chunk.toList) := by
  simp only [after, take, pieces_append text chunk.toList, List.map_append]

/-- It does not matter how the text of a stream is cut into chunks. -/
theorem read_eq (chunks : List String) : read chunks = after (String.join chunks).toList := by
  have later (text : List Char) :
      chunks.foldl take (after text) = after (text ++ (String.join chunks).toList) := by
    induction chunks generalizing text with
    | nil => simp
    | cons chunk chunks ih =>
      rw [List.foldl_cons, take_after, ih, String.join_cons, String.toList_append,
        List.append_assoc]
  have nothing : after [] = start := by
    rw [after, pieces_of_none rfl]
    rfl
  rw [read, ← nothing, later, List.nil_append]

theorem read_frames {rs : List Report} {chunks : List String}
    (cuts : String.join chunks = String.join (rs.map Report.frame)) :
    read chunks = ⟨[], rs.map some⟩ := by
  have text : (String.join chunks).toList = rs.flatMap fun r => r.frame.toList := by
    rw [cuts, String.toList_join, List.flatMap_map]
  rw [read_eq, text, after, Report.pieces_frames, List.map_map]
  exact congrArg _ (List.map_congr_left fun r _ => r.ofFrame?_frame)

end Client

/-! ## The stream of a hub -/

theorem Hub.running_run (h : Hub) (events : List Hub.Event) :
    (h.run events).running = h.running := by
  induction events generalizing h with
  | nil => rfl
  | cons e more ih =>
    refine (ih (h.handle e)).trans ?_
    cases e with
    | publish r => rfl
    | subscribe => rfl
    | snapshot => rfl
    | receive number => rfl
    | detach number => rfl

namespace Http

theorem respond_events {h : Hub} (running : h.running = true) : respond h "GET" "/events" =
    (h.subscribe,
      ⟨200, some "text/event-stream", some "no-cache", .feed h.observers.length⟩) := by
  have route : Route.ofTarget? "/events" = some .events := by decide
  simp only [respond, route, fetch, running, if_true]

theorem respond_snapshot {h : Hub} (running : h.running = true) : respond h "GET" "/snapshot" =
    (h, ⟨200, some "application/json", none, .text h.state.encode⟩) := by
  have route : Route.ofTarget? "/snapshot" = some .snapshot := by decide
  simp only [respond, route, fetch, running, if_true]

/-- The text that has come through a stream: the frames of what its observer has received. -/
def streamed (h : Hub) (number : Nat) (events : List Hub.Event) : String :=
  String.join ((h.received number events).map Report.frame)

/-- A client that has read all that its open stream holds has merged the state of the hub. -/
theorem merged_of_streamed {capacity : Nat} {before after : List Hub.Event} {chunks : List String}
    (fully_read : ((Hub.joined capacity before).run after).pending (Hub.arrivals before) =
      ([], true))
    (cuts : String.join chunks =
      streamed (Hub.joined capacity before) (Hub.arrivals before) after) :
    ∃ rs : List Report, Client.read chunks = ⟨[], rs.map some⟩ ∧
      Report.empty.mergeAll rs = ((Hub.joined capacity before).run after).state := by
  refine ⟨Hub.stream capacity before after, Client.read_frames cuts, ?_⟩
  have there := Hub.newcomer_there capacity before after
  rw [Hub.pending, there] at fully_read
  obtain ⟨empty, still⟩ := Prod.mk.inj fully_read
  have merged := (Hub.newcomer_served capacity before after).merged still
  rw [empty, List.append_nil, Hub.run_joined] at merged
  exact merged

end Http

/-- However the frames of reports are cut, a client reads these reports and nothing is left, for a
frame is one line without line breaks and an empty line. So a client of a stream that is still open
and holds no more has merged what the snapshot says. -/
theorem frames_read :
    (∀ (rs : List Report) (chunks : List String),
      String.join chunks = String.join (rs.map Report.frame) →
        Client.read chunks = ⟨[], rs.map some⟩) ∧
    (∀ r : Report, r.frame.toList = r.line.toList ++ ['\n', '\n'] ∧
      '\n' ∉ r.line.toList ∧ '\r' ∉ r.line.toList) ∧
    (∀ (capacity : Nat) (before after : List Hub.Event), ∃ opened number text,
      Http.respond ((Hub.start capacity).run before) "GET" "/events" =
        (opened, ⟨200, some "text/event-stream", some "no-cache", .feed number⟩) ∧
      Http.respond (opened.run after) "GET" "/snapshot" =
        (opened.run after, ⟨200, some "application/json", none, .text text⟩) ∧
      ∀ chunks, (opened.run after).pending number = ([], true) →
        String.join chunks = Http.streamed opened number after →
          ∃ rs : List Report, Client.read chunks = ⟨[], rs.map some⟩ ∧
            Report.decode text = .ok (Report.empty.mergeAll rs)) := by
  refine ⟨fun rs chunks cuts => Client.read_frames cuts,
    fun r => ⟨r.frame_line, r.no_feed_in_line, r.no_return_in_line⟩, ?_⟩
  intro capacity before after
  have running : ((Hub.start capacity).run before).running = true := Hub.running_run _ before
  have still : ((Hub.joined capacity before).run after).running = true :=
    (Hub.running_run _ after).trans running
  have number : ((Hub.start capacity).run before).observers.length = Hub.arrivals before := by
    rw [Hub.observers_run]
    exact Nat.zero_add _
  refine ⟨Hub.joined capacity before, Hub.arrivals before, _, ?_, Http.respond_snapshot still, ?_⟩
  · rw [← number]
    exact Http.respond_events running
  · intro chunks fully_read cuts
    obtain ⟨rs, read, merged⟩ := Http.merged_of_streamed fully_read cuts
    refine ⟨rs, read, ?_⟩
    rw [merged]
    exact Report.decode_text _ .compact

theorem frames_read_when_cut : ∃ (chunks : List String) (rs merged : List Report) (text : String),
    chunks =
      ["data:[null,[[1,\x7b\"source\":\"a\\n\\nb\",\"status\":null,\"output\":\"\"\x7d]]]\n",
        "\ndata:[\x7b\"val\":[1]", "\x7d,[]]\n\n"] ∧
    rs = [.announced ⟨1⟩ "a\n\nb", .ofOrder [⟨1⟩]] ∧
    Client.read chunks = ⟨[], rs.map some⟩ ∧
    Client.read chunks = ⟨[], merged.map some⟩ ∧
    Report.decode text = .ok (Report.empty.mergeAll merged) := by
  obtain ⟨read, -, stream⟩ := frames_read
  obtain ⟨opened, number, text, asked, -, known⟩ :=
    stream 0 [.publish (.announced ⟨1⟩ "a\n\nb")]
      [.receive 0, .publish (.ofOrder [⟨1⟩]), .receive 0]
  rw [Http.respond_events rfl] at asked
  obtain ⟨rfl, same⟩ := Prod.mk.inj asked
  obtain rfl := Http.Body.feed.inj (Http.Response.mk.inj same).2.2.2
  obtain ⟨merged, read', whole⟩ := known
    ["data:[null,[[1,\x7b\"source\":\"a\\n\\nb\",\"status\":null,\"output\":\"\"\x7d]]]\n",
      "\ndata:[\x7b\"val\":[1]", "\x7d,[]]\n\n"] (by decide) (by decide)
  exact ⟨_, _, merged, text, rfl, rfl, read _ _ (by decide), read', whole⟩

end Worksheet
