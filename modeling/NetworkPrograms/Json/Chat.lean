import NetworkPrograms.Json.Text

/-!
# Messages as lines of JSON

The client of `client.cc` writes each message as one line of JSON; the server of
`server.cc` takes every `read` for one message. The library that writes and
parses JSON is not part of the repository. What the programs call of it is the
parameter `Jsoncpp`, and what is assumed of these functions has names: `Accesses`
for the values, `Lines` for the texts.
-/
namespace NetworkPrograms.Json

/-- What the programs call of jsoncpp: `FastWriter::write`; `Reader::parse`, with no value for
a malformed text; `root[i]` and `asString`, with no value for an exception. -/
structure Jsoncpp where
  write : Value → Bytes
  read : Bytes → Option Value
  get : Value → ℕ → Option Value
  asString : Value → Option Bytes

structure Message where
  name : Bytes
  picture : Bytes
  information : Bytes
  my_time : Bytes
  deriving DecidableEq

def Message.fields (m : Message) : List Bytes := [m.name, m.picture, m.information, m.my_time]

/-- The value that `enter` builds. -/
def Message.value (m : Message) : Value :=
  .array [.string m.name, .string m.picture, .string m.information, .string m.my_time]

theorem Message.value_injective : Function.Injective Message.value := by
  rintro ⟨_, _, _, _⟩ ⟨_, _, _, _⟩ h
  simpa [Message.value] using h

/-- The time has a colon, as all that `gettime` makes. No number has one. -/
def Message.Timed (m : Message) : Prop := 58 ∈ m.my_time

def BUFSIZE : ℕ := 1024

/-- The bytes that one `read` returns before the end of the stream. -/
abbrev Chunk := { r : Bytes // 1 ≤ r.length ∧ r.length ≤ BUFSIZE }

/-- `string json = buf`: the bytes before the first NUL, which may be behind the
buffer. -/
def cString (buf behind : Bytes) : Bytes := (buf ++ behind).takeWhile (· ≠ 0)

namespace Jsoncpp

variable (lib : Jsoncpp)

def enter (m : Message) : Bytes := lib.write m.value

/-- The line of a message without its newline. -/
def text (m : Message) : Bytes := (lib.enter m).dropLast

def wire (ms : List Message) : Bytes := (ms.map lib.enter).flatten

/-- `Reader::parse` into a new value, which stays null if the text is malformed. -/
def parse (json : Bytes) : Value := (lib.read json).getD .null

/-- `message::receive`; no result for an exception. -/
def receive (json : Bytes) : Option Message := do
  let root := lib.parse json
  let name ← lib.asString (← lib.get root 0)
  let picture ← lib.asString (← lib.get root 1)
  let information ← lib.asString (← lib.get root 2)
  let my_time ← lib.asString (← lib.get root 3)
  pure ⟨name, picture, information, my_time⟩

/-- The loop of the server: the results of the calls of `receive`, the last one
being an exception if there is one. The buffer holds `buf` before the first `read`
and is cleared after every one; `behind n` is the memory behind it at the n-th. -/
def serve (behind : ℕ → Bytes) (buf : Bytes) : List Chunk → List (Option Message)
  | [] => []
  | r :: reads =>
    let buf := r.val ++ buf.drop r.val.length
    match lib.receive (cString buf (behind 0)) with
    | none => [none]
    | some m => some m :: serve (fun n => behind (n + 1)) (List.replicate BUFSIZE 0) reads

/-- The values: a null value and the end of an array give null, which is the empty string. -/
structure Accesses : Prop where
  get_null : ∀ i, lib.get .null i = some .null
  get_array : ∀ items i, lib.get (.array items) i = some (items[i]?.getD .null)
  asString_null : lib.asString .null = some []
  asString_string : ∀ s, lib.asString (.string s) = some s

/-- The texts. A message is written as a line without a NUL. From a text that starts with it,
or with a newline and then it, the reader takes its value and looks no further. And what it
takes for a message in a piece of such lines is a line that starts in the piece and whose text
ends there: a text that is cut, or read from its middle on, is no message. -/
structure Lines : Prop where
  line : ∀ m, lib.enter m = lib.text m ++ [newline]
  nonempty : ∀ m, lib.text m ≠ []
  zero : ∀ m, 0 ∉ lib.text m
  reads : ∀ m more, lib.parse (lib.text m ++ more) = m.value
  skips : ∀ m more, lib.parse (newline :: lib.text m ++ more) = m.value
  only : ∀ ms, (∀ m ∈ ms, m.Timed) → ∀ pre json post, lib.wire ms = pre ++ json ++ post →
    ∀ m, m.Timed → lib.receive json = some m → ∃ done rest ws, ms = done ++ m :: rest ∧
      pre ++ ws = lib.wire done ∧ ws ++ lib.text m <+: json

/-- A `read` starts with the text of a message, behind the newline of the one before if that
has not been read yet. -/
def Starts (m : Message) (r : Bytes) : Prop :=
  lib.text m <+: r ∨ newline :: lib.text m <+: r

variable {lib}

@[simp] theorem wire_nil : lib.wire [] = [] := rfl

@[simp] theorem wire_cons (m : Message) (ms : List Message) :
    lib.wire (m :: ms) = lib.enter m ++ lib.wire ms := rfl

theorem wire_append (ms ms' : List Message) :
    lib.wire (ms ++ ms') = lib.wire ms ++ lib.wire ms' := by
  simp [wire]

theorem parse_of_read {json : Bytes} {v : Value} (h : lib.read json = some v) :
    lib.parse json = v := by
  rw [parse, h, Option.getD_some]

theorem parse_of_malformed {json : Bytes} (h : lib.read json = none) :
    lib.parse json = .null := by
  rw [parse, h, Option.getD_none]

/-! ## One message a read -/

theorem Accesses.receive_of_parse (h : lib.Accesses) {json : Bytes} {m : Message}
    (hparse : lib.parse json = m.value) : lib.receive json = some m := by
  simp [receive, hparse, Message.value, h.get_array, h.asString_string]

theorem takeWhile_append_of_notMem {bs : Bytes} (h : 0 ∉ bs) (more : Bytes) :
    (bs ++ more).takeWhile (· ≠ 0) = bs ++ more.takeWhile (· ≠ 0) := by
  apply List.takeWhile_append_of_pos
  intro b hb
  simp only [decide_eq_true_eq]
  rintro rfl
  exact h hb

theorem Lines.receive_of_starts (h : lib.Lines) (hacc : lib.Accesses) {m : Message} {r : Bytes}
    (hr : lib.Starts m r) (buf behind : Bytes) :
    lib.receive (cString (r ++ buf) behind) = some m := by
  apply hacc.receive_of_parse
  rcases hr with ⟨more, rfl⟩ | ⟨more, rfl⟩
  · rw [cString, List.append_assoc, List.append_assoc, takeWhile_append_of_notMem (h.zero m)]
    exact h.reads m _
  · have hzero : 0 ∉ newline :: lib.text m := by
      rw [List.mem_cons, not_or]
      exact ⟨by decide, h.zero m⟩
    rw [cString, List.append_assoc, List.append_assoc, takeWhile_append_of_notMem hzero]
    exact h.skips m _

theorem Lines.serve_of_starts (h : lib.Lines) (hacc : lib.Accesses) {msgs : List Message}
    {reads : List Chunk} (hreads : List.Forall₂ (fun m r => lib.Starts m r.val) msgs reads)
    (behind : ℕ → Bytes) (buf : Bytes) : lib.serve behind buf reads = msgs.map some := by
  induction hreads generalizing behind buf with
  | nil => rfl
  | cons hr _ ih => rw [serve, h.receive_of_starts hacc hr, List.map_cons, ih]

/-! ## Reads from which all messages are received -/

theorem forall₂_receive_of_serve {reads : List Chunk} (hzero : ∀ r ∈ reads, 0 ∉ r.val)
    {msgs : List Message} {n : ℕ}
    (hserve : lib.serve (fun _ => []) (List.replicate n 0) reads = msgs.map some) :
    List.Forall₂ (fun m (r : Chunk) => lib.receive r.val = some m) msgs reads := by
  induction reads generalizing msgs n with
  | nil =>
    cases msgs with
    | nil => exact .nil
    | cons m msgs => simp [serve] at hserve
  | cons r reads ih =>
    have hjson : cString (r.val ++ (List.replicate n 0).drop r.val.length) [] = r.val := by
      rw [cString, List.append_nil, takeWhile_append_of_notMem (hzero r (by simp)),
        List.drop_replicate]
      simp
    rw [serve, hjson] at hserve
    cases hrec : lib.receive r.val with
    | none =>
      rw [hrec] at hserve
      cases msgs with
      | nil => simp at hserve
      | cons m msgs => simp at hserve
    | some m' =>
      rw [hrec] at hserve
      cases msgs with
      | nil => simp at hserve
      | cons m msgs =>
        simp only [List.map_cons, List.cons.injEq, Option.some.injEq] at hserve
        obtain ⟨rfl, hrest⟩ := hserve
        exact .cons hrec (ih (fun r' hr' => hzero r' (by simp [hr'])) hrest)

section

variable (h : lib.Lines) {all : List Message} (htimed : ∀ m ∈ all, m.Timed)

include h

theorem Lines.length_enter (m : Message) : 2 ≤ (lib.enter m).length := by
  rw [h.line, List.length_append, List.length_singleton]
  have := List.length_pos_iff.mpr (h.nonempty m)
  omega

theorem Lines.length_wire_lt {done done' rest rest' : List Message} (heq : all = done ++ rest)
    (heq' : all = done' ++ rest') (hlt : done'.length < done.length) :
    (lib.wire done').length + 2 ≤ (lib.wire done).length := by
  obtain ⟨ms, rfl⟩ : done' <+: done :=
    List.prefix_of_prefix_length_le ⟨rest', heq'.symm⟩ ⟨rest, heq.symm⟩ hlt.le
  cases ms with
  | nil => simp at hlt
  | cons m ms =>
    have := h.length_enter m
    rw [wire_append, wire_cons, List.length_append, List.length_append]
    omega

include htimed

theorem Lines.exists_line {pre : Bytes} {r : Chunk} {reads : List Chunk} {m : Message}
    (hm : m ∈ all) (hstream : lib.wire all = pre ++ ((r :: reads).map Subtype.val).flatten)
    (hrec : lib.receive r.val = some m) :
    ∃ done rest ws, all = done ++ m :: rest ∧ pre ++ ws = lib.wire done ∧
      ws ++ lib.text m <+: r.val := by
  apply h.only all htimed pre r.val (reads.map Subtype.val).flatten
  · rw [hstream, List.map_cons, List.flatten_cons, List.append_assoc]
  · exact htimed m hm
  · exact hrec

/-- Every message needs a line of its own: behind the start of a line there are no more
messages to come than lines. -/
theorem Lines.length_add_lt {msgs : List Message} {reads : List Chunk}
    (hrec : List.Forall₂ (fun m (r : Chunk) => lib.receive r.val = some m) msgs reads)
    (hmem : ∀ m ∈ msgs, m ∈ all) {pre : Bytes}
    (hstream : lib.wire all = pre ++ (reads.map Subtype.val).flatten) {done rest : List Message}
    (hdone : all = done ++ rest) (hpre : (lib.wire done).length < pre.length) :
    msgs.length + done.length < all.length := by
  induction hrec generalizing pre done rest with
  | nil =>
    rw [List.map_nil, List.flatten_nil, List.append_nil] at hstream
    rw [List.length_nil, zero_add, hdone, List.length_append, Nat.lt_add_right_iff_pos]
    rw [List.length_pos_iff]
    rintro rfl
    rw [← hstream, hdone, List.append_nil] at hpre
    exact lt_irrefl _ hpre
  | @cons m r msgs reads hr _ ih =>
    obtain ⟨done', rest', ws, hdone', hws, htext⟩ :=
      h.exists_line htimed (hmem m List.mem_cons_self) hstream hr
    have hlen := congrArg List.length hws
    have hread := htext.length_le
    have hpos := List.length_pos_iff.mpr (h.nonempty m)
    rw [List.length_append] at hlen hread
    -- the line of this message starts behind the one before
    have hlt : done.length < done'.length := by
      by_contra hge
      obtain ⟨ms, rfl⟩ : done' <+: done :=
        List.prefix_of_prefix_length_le ⟨_, hdone'.symm⟩ ⟨_, hdone.symm⟩ (not_lt.mp hge)
      rw [wire_append, List.length_append] at hpre
      omega
    have hstream' : lib.wire all = pre ++ r.val ++ (reads.map Subtype.val).flatten := by
      rw [hstream, List.map_cons, List.flatten_cons, List.append_assoc]
    have hrest := ih (fun m' hm' => hmem m' (List.mem_cons_of_mem m hm')) hstream' hdone'
      (by rw [List.length_append]; omega)
    rw [List.length_cons]
    omega

/-- The messages `done` have been received, and at most the newline of the last one is still
to be read: so it is with every later `read`. -/
theorem Lines.starts_of_receive {msgs : List Message} {reads : List Chunk}
    (hrec : List.Forall₂ (fun m (r : Chunk) => lib.receive r.val = some m) msgs reads)
    {done : List Message} (hall : all = done ++ msgs) {pre : Bytes}
    (hstream : lib.wire all = pre ++ (reads.map Subtype.val).flatten)
    (hpre : (lib.wire done).length ≤ pre.length + 1) :
    List.Forall₂ (fun m (r : Chunk) => lib.Starts m r.val) msgs reads := by
  induction hrec generalizing pre done with
  | nil => exact .nil
  | @cons m r msgs reads hr htail ih =>
    have hmem : ∀ m' ∈ m :: msgs, m' ∈ all := by
      intro m' hm'
      rw [hall]
      exact List.mem_append_right done hm'
    have hstream' : lib.wire all = pre ++ r.val ++ (reads.map Subtype.val).flatten := by
      rw [hstream, List.map_cons, List.flatten_cons, List.append_assoc]
    obtain ⟨done', rest', ws, hdone', hws, htext⟩ :=
      h.exists_line htimed (hmem m List.mem_cons_self) hstream hr
    have hlen := congrArg List.length hws
    have hread := htext.length_le
    have hpos := List.length_pos_iff.mpr (h.nonempty m)
    rw [List.length_append] at hlen hread
    -- the line is not one before, and there is none to spare
    have hge : done.length ≤ done'.length := by
      by_contra hlt
      have := h.length_wire_lt hall hdone' (not_le.mp hlt)
      omega
    have hcount := h.length_add_lt htimed htail
      (fun m' hm' => hmem m' (List.mem_cons_of_mem m hm')) hstream' hdone'
      (by rw [List.length_append]; omega)
    have hall' := congrArg List.length hall
    rw [List.length_append, List.length_cons] at hall'
    obtain rfl : done = done' := by
      have hpre' : done <+: done' :=
        List.prefix_of_prefix_length_le ⟨_, hall.symm⟩ ⟨_, hdone'.symm⟩ hge
      exact hpre'.eq_of_length (by omega)
    have hmore : all = done ++ [m] ++ msgs := by simpa using hall
    refine .cons ?_ (ih hmore hstream' ?_)
    · cases ws with
      | nil => exact .inl htext
      | cons b ws =>
        rw [List.length_cons] at hlen
        obtain rfl : ws = [] := List.length_eq_zero_iff.mp (by omega)
        -- the byte before the text is the newline of the message before
        have hlast : done ≠ [] := by
          rintro rfl
          simp at hws
        obtain ⟨before, m', rfl⟩ := List.eq_nil_or_concat done |>.resolve_left hlast
        rw [List.concat_eq_append, wire_append, wire_cons, wire_nil, List.append_nil, h.line,
          ← List.append_assoc] at hws
        obtain rfl : b = newline := by
          have := congrArg List.getLast? hws
          simpa using this
        exact .inr htext
    · rw [wire_append, wire_cons, wire_nil, List.append_nil, h.line, List.length_append,
        List.length_append, List.length_append, List.length_singleton]
      omega

end

end Jsoncpp

/-- For every library that keeps to the contract, and messages with a time. If every `read`
starts with the text of the next message, the server receives what the client has sent,
whatever is in the memory around the buffer. With cleared memory it receives that in no other
case. -/
theorem received_iff (lib : Jsoncpp) (h : lib.Lines) (hacc : lib.Accesses) (msgs : List Message)
    (htimed : ∀ m ∈ msgs, m.Timed) (reads : List Chunk)
    (hstream : (reads.map Subtype.val).flatten = (msgs.map lib.enter).flatten) :
    (List.Forall₂ (fun m r => lib.Starts m r.val) msgs reads →
      ∀ behind buf, buf.length = BUFSIZE → lib.serve behind buf reads = msgs.map some) ∧
    (lib.serve (fun _ => []) (List.replicate BUFSIZE 0) reads = msgs.map some ↔
      List.Forall₂ (fun m r => lib.Starts m r.val) msgs reads) := by
  refine ⟨fun hreads behind buf _ => h.serve_of_starts hacc hreads behind buf, ?_, ?_⟩
  · intro hserve
    have hzero : ∀ r ∈ reads, 0 ∉ r.val := by
      intro r hr hmem
      have hin : 0 ∈ (msgs.map lib.enter).flatten := by
        rw [← hstream]
        exact List.mem_flatten.mpr ⟨r.val, List.mem_map_of_mem hr, hmem⟩
      obtain ⟨line, hline, h0⟩ := List.mem_flatten.mp hin
      obtain ⟨m, -, rfl⟩ := List.mem_map.mp hline
      rw [h.line, List.mem_append, List.mem_singleton] at h0
      rcases h0 with h0 | h0
      · exact h.zero m h0
      · exact absurd h0 (by decide)
    exact h.starts_of_receive htimed (Jsoncpp.forall₂_receive_of_serve hzero hserve)
      (show msgs = [] ++ msgs from rfl) (show lib.wire msgs = [] ++ _ from hstream.symm) (by simp)
  · intro hreads
    exact h.serve_of_starts hacc hreads _ _

/-! ## A library -/

/-- `root[i]` and `asString` as jsoncpp has them: what is neither null nor an array has no
elements. -/
def Value.get : Value → ℕ → Option Value
  | .null, _ => some .null
  | .array items, i => some (items[i]?.getD .null)
  | _, _ => none

def Value.asString : Value → Option Bytes
  | .null => some []
  | .string s => some s
  | .scalar text => some text
  | _ => none

/-- The writer and the reader of the module `Json.Text`. -/
def lines : Jsoncpp where
  write := writeLine
  read := readLine 4
  get := Value.get
  asString := Value.asString

theorem accesses_lines : lines.Accesses where
  get_null _ := rfl
  get_array _ _ := rfl
  asString_null := rfl
  asString_string _ := rfl

theorem text_lines (m : Message) : lines.text m = 91 :: writeStrings m.fields := by
  change ((91 :: writeStrings m.fields) ++ [newline]).dropLast = _
  rw [List.dropLast_concat]

theorem enter_lines (m : Message) : lines.enter m = 91 :: (writeStrings m.fields ++ [newline]) :=
  rfl

theorem exists_line_of_bracket {ms : List Message} {pre post : Bytes}
    (h : lines.wire ms = pre ++ 91 :: post) :
    ∃ done m rest, ms = done ++ m :: rest ∧ pre = lines.wire done := by
  induction ms generalizing pre with
  | nil => simp at h
  | cons m ms ih =>
    cases pre with
    | nil => exact ⟨[], m, ms, rfl, rfl⟩
    | cons b pre =>
      rw [Jsoncpp.wire_cons, enter_lines, List.cons_append, List.cons_append,
        List.cons.injEq] at h
      obtain ⟨rfl, h⟩ := h
      have hclean : 91 ∉ writeStrings m.fields ++ [newline] := by
        rw [List.mem_append, List.mem_singleton, not_or]
        exact ⟨writeStrings_clean _ 91 (by decide), by decide⟩
      rcases List.append_eq_append_iff.mp h with ⟨more, hpre, hmore⟩ | ⟨more, hline, -⟩
      · obtain ⟨done, m', rest, rfl, rfl⟩ := ih hmore
        exact ⟨m :: done, m', rest, rfl, by rw [hpre, Jsoncpp.wire_cons, enter_lines]; rfl⟩
      · cases more with
        | nil =>
          rw [List.append_nil] at hline
          rw [hline, List.append_cancel_left_eq] at h
          obtain ⟨done, m', rest, rfl, hdone⟩ := ih (show _ = [] ++ _ from h)
          refine ⟨m :: done, m', rest, rfl, ?_⟩
          rw [Jsoncpp.wire_cons, enter_lines, ← hdone, hline, List.append_nil]
        | cons c more =>
          rw [hline, List.append_assoc, List.append_cancel_left_eq, List.cons_append,
            List.cons.injEq] at h
          rw [hline, h.1] at hclean
          exact absurd (List.mem_append_right pre List.mem_cons_self) hclean

theorem parse_lines (m : Message) (more : Bytes) :
    lines.parse (lines.text m ++ more) = m.value ∧
      lines.parse (newline :: lines.text m ++ more) = m.value := by
  obtain ⟨hplain, hskip⟩ := readLine_of_text m.fields more
  rw [text_lines]
  exact ⟨Jsoncpp.parse_of_read hplain, Jsoncpp.parse_of_read hskip⟩

theorem exists_text_of_receive {json : Bytes} {m : Message} (hm : m.Timed)
    (hrec : lines.receive json = some m) : ∃ ws, ws ++ lines.text m <+: json := by
  cases hread : readLine 4 json with
  | none =>
    have hnull : lines.parse json = .null := Jsoncpp.parse_of_malformed hread
    rw [Jsoncpp.receive, hnull] at hrec
    cases hrec
    exact absurd hm (by simp [Message.Timed])
  | some v =>
    obtain ⟨ss, ws, hlen, rfl, hpre⟩ := readLine_eq_some hread
    obtain ⟨name, picture, information, my_time, rfl⟩ := List.length_eq_four.mp hlen
    have hvalue : lines.parse json = (⟨name, picture, information, my_time⟩ : Message).value :=
      Jsoncpp.parse_of_read hread
    rw [accesses_lines.receive_of_parse hvalue] at hrec
    cases hrec
    exact ⟨ws, by rw [text_lines]; exact hpre⟩

theorem lines_lines : lines.Lines where
  line m := by
    rw [text_lines, enter_lines]
    rfl
  nonempty m := by
    rw [text_lines]
    exact List.cons_ne_nil _ _
  zero m := by
    rw [text_lines, List.mem_cons, not_or]
    exact ⟨by decide, writeStrings_clean _ 0 (by decide)⟩
  reads m more := (parse_lines m more).1
  skips m more := (parse_lines m more).2
  only := by
    intro ms _ pre json post hwire m hm hrec
    obtain ⟨ws, hpre⟩ := exists_text_of_receive hm hrec
    obtain ⟨more, rfl⟩ := hpre
    -- the text stands at the start of a line, and no two texts start alike
    have hbracket : lines.wire ms =
        (pre ++ ws) ++ 91 :: (writeStrings m.fields ++ (more ++ post)) := by
      rw [hwire, text_lines]
      simp
    obtain ⟨done, m', rest, rfl, hdone⟩ := exists_line_of_bracket hbracket
    refine ⟨done, rest, ws, ?_, hdone, List.prefix_append _ _⟩
    rw [Jsoncpp.wire_append, hdone, List.append_cancel_left_eq, Jsoncpp.wire_cons,
      enter_lines] at hbracket
    have hread := (parse_lines m (more ++ post)).1
    have hread' := (parse_lines m' ([newline] ++ lines.wire rest)).1
    rw [text_lines, List.cons_append] at hread hread'
    rw [← hbracket, List.cons_append, List.append_assoc, hread'] at hread
    rw [Message.value_injective hread]

/-- Two messages, the newline of the first one in the `read` of the second. -/
theorem received_iff_separate :
    lines.serve (fun _ => [7]) (List.replicate BUFSIZE 9)
      [⟨lines.text ⟨[97], [98], [99], [49, 58, 48]⟩, by decide⟩,
        ⟨newline :: lines.enter ⟨[97], [98], [101], [49, 58, 49]⟩, by decide⟩] =
      [some ⟨[97], [98], [99], [49, 58, 48]⟩, some ⟨[97], [98], [101], [49, 58, 49]⟩] :=
  (received_iff lines lines_lines accesses_lines
    [⟨[97], [98], [99], [49, 58, 48]⟩, ⟨[97], [98], [101], [49, 58, 49]⟩]
    (by simp [Message.Timed])
    [⟨lines.text ⟨[97], [98], [99], [49, 58, 48]⟩, by decide⟩,
      ⟨newline :: lines.enter ⟨[97], [98], [101], [49, 58, 49]⟩, by decide⟩] rfl).1
    (.cons (.inl ⟨[], rfl⟩) (.cons (.inr ⟨[newline], rfl⟩) .nil)) _ _ (List.length_replicate ..)

/-- The two messages, returned by one `read`: the second one is lost. -/
theorem coalesced_message_lost :
    lines.serve (fun _ => []) (List.replicate BUFSIZE 0)
      [⟨lines.enter ⟨[97], [98], [99], [49, 58, 48]⟩ ++
        lines.enter ⟨[97], [98], [101], [49, 58, 49]⟩, by decide⟩] =
      [some ⟨[97], [98], [99], [49, 58, 48]⟩] := by
  rfl

end NetworkPrograms.Json
