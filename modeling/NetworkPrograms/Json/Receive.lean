import NetworkPrograms.Json.Chat

/-!
# What a text leaves in a message

`message::receive` does not look at the result of the parser and assigns its
fields one after the other. An access that throws leaves the fields before it
replaced; a text that is no array of strings replaces fields by default texts.
-/
namespace NetworkPrograms.Json

/-- `root[i].asString()`; none for an exception. -/
def Jsoncpp.stringAt (lib : Jsoncpp) (root : Value) (i : ℕ) : Option Bytes := do
  lib.asString (← lib.get root i)

theorem Message.fields_injective : Function.Injective Message.fields := by
  rintro ⟨_, _, _, _⟩ ⟨_, _, _, _⟩ h
  simpa [Message.fields] using h

section
variable (lib : Jsoncpp)

/-- A field is assigned `root[i].asString()`. -/
def assign (root : Value) (i : ℕ) (set : Bytes → Message → Message) :
    EStateM Unit Message Unit :=
  match lib.stringAt root i with
  | some s => modify (set s)
  | none => throw ()

/-- `message::receive`: what has been assigned stays assigned when an access throws. -/
def Message.receive (json : Bytes) : EStateM Unit Message Unit := do
  let root := lib.parse json
  assign lib root 0 (fun s m => { m with name := s })
  assign lib root 1 (fun s m => { m with picture := s })
  assign lib root 2 (fun s m => { m with information := s })
  assign lib root 3 (fun s m => { m with my_time := s })

/-- The message after the call, whether or not it throws. -/
def Message.after (json : Bytes) (m : Message) : Message :=
  match (Message.receive lib json).run m with
  | .ok _ m' => m'
  | .error _ m' => m'

/-- The text is an array whose first four elements are the strings of the message. -/
def Carries (json : Bytes) (m : Message) : Prop :=
  ∃ rest, lib.read json = some (.array (m.fields.map .string ++ rest))

/-- A text that carries a message replaces all fields, any other one none. -/
structure AllOrNothing (json : Bytes) (m : Message) : Prop where
  all : ∀ m', Carries lib json m' → m.after lib json = m'
  nothing : (¬ ∃ m', Carries lib json m') → m.after lib json = m

end

/-- The values before the first that is missing. -/
def leading {α : Type*} : List (Option α) → List α
  | some a :: os => a :: leading os
  | _ => []

/-- The strings that are assigned before an access throws. -/
def Jsoncpp.taken (lib : Jsoncpp) (root : Value) : List Bytes :=
  leading [lib.stringAt root 0, lib.stringAt root 1, lib.stringAt root 2, lib.stringAt root 3]

/-! ## One call -/

/-- The strings that are taken replace the first fields, and only these. The call
throws unless there are four. -/
theorem Message.run_receive (lib : Jsoncpp) (json : Bytes) (m : Message) :
    ∃ m', m'.fields =
        lib.taken (lib.parse json) ++ m.fields.drop (lib.taken (lib.parse json)).length ∧
      (Message.receive lib json).run m =
        if (lib.taken (lib.parse json)).length = 4 then .ok () m' else .error () m' := by
  unfold Message.receive assign Jsoncpp.taken
  dsimp only
  generalize lib.stringAt (lib.parse json) 0 = name?
  generalize lib.stringAt (lib.parse json) 1 = picture?
  generalize lib.stringAt (lib.parse json) 2 = information?
  generalize lib.stringAt (lib.parse json) 3 = my_time?
  -- an access that throws ends the call with the fields before it replaced
  cases name? with
  | none => exact ⟨m, rfl, rfl⟩
  | some name =>
    cases picture? with
    | none => exact ⟨{ m with name }, rfl, rfl⟩
    | some picture =>
      cases information? with
      | none => exact ⟨{ m with name, picture }, rfl, rfl⟩
      | some information =>
        cases my_time? with
        | none => exact ⟨{ m with name, picture, information }, rfl, rfl⟩
        | some my_time => exact ⟨⟨name, picture, information, my_time⟩, rfl, rfl⟩

variable {lib : Jsoncpp} {json : Bytes} {m m' : Message}

theorem Message.after_fields : (m.after lib json).fields =
    lib.taken (lib.parse json) ++ m.fields.drop (lib.taken (lib.parse json)).length := by
  obtain ⟨m', hfields, hrun⟩ := m.run_receive lib json
  rw [Message.after, hrun]
  split_ifs
  · exact hfields
  · exact hfields

theorem Message.after_eq_self_iff :
    m.after lib json = m ↔ lib.taken (lib.parse json) <+: m.fields := by
  rw [← Message.fields_injective.eq_iff, Message.after_fields, List.prefix_iff_eq_append]

theorem Carries.taken_eq (h : Carries lib json m') (hacc : lib.Accesses) :
    lib.taken (lib.parse json) = m'.fields := by
  obtain ⟨rest, hread⟩ := h
  simp [Jsoncpp.parse_of_read hread, Jsoncpp.taken, Jsoncpp.stringAt, Message.fields,
    hacc.get_array, hacc.asString_string, leading]

theorem Carries.after_eq (h : Carries lib json m') (hacc : lib.Accesses) (m : Message) :
    m.after lib json = m' := by
  apply Message.fields_injective
  rw [Message.after_fields, h.taken_eq hacc]
  exact List.append_nil _

theorem allOrNothing_iff (hacc : lib.Accesses) : AllOrNothing lib json m ↔
    (∃ m', Carries lib json m') ∨ lib.taken (lib.parse json) <+: m.fields := by
  constructor
  · intro h
    by_cases hc : ∃ m', Carries lib json m'
    · exact .inl hc
    · exact .inr (Message.after_eq_self_iff.mp (h.nothing hc))
  · intro h
    constructor
    · intro m' hc
      exact hc.after_eq hacc m
    · intro hc
      exact Message.after_eq_self_iff.mpr (h.resolve_left hc)

theorem Jsoncpp.taken_eq_nil_iff {root : Value} :
    lib.taken root = [] ↔ lib.stringAt root 0 = none := by
  rw [Jsoncpp.taken]
  cases lib.stringAt root 0 with
  | none => simp [leading]
  | some s => simp [leading]

theorem eq_nil_of_forall_prefix {ss : List Bytes} (h : ∀ m : Message, ss <+: m.fields) :
    ss = [] := by
  cases ss with
  | nil => rfl
  | cons s ss =>
    have hpre := h ⟨0 :: s, [], [], []⟩
    rw [Message.fields, List.cons_prefix_cons] at hpre
    exact absurd hpre.1 (List.ne_cons_self)

/-- A call leaves all fields or none for every message exactly when its text is an
array of four strings or more, or the access to the first element throws. -/
theorem receive_all_or_nothing_iff (lib : Jsoncpp) (hacc : lib.Accesses) (json : Bytes) :
    (∀ m, AllOrNothing lib json m) ↔
      (∃ m, Carries lib json m) ∨ lib.stringAt (lib.parse json) 0 = none := by
  rw [← Jsoncpp.taken_eq_nil_iff]
  constructor
  · intro h
    by_cases hc : ∃ m, Carries lib json m
    · exact .inl hc
    · right
      apply eq_nil_of_forall_prefix
      intro m
      exact ((allOrNothing_iff hacc).mp (h m)).resolve_left hc
  · intro h m
    rw [allOrNothing_iff hacc]
    rcases h with hc | hnil
    · exact .inl hc
    · rw [hnil]
      exact .inr List.nil_prefix

theorem receive_all_or_nothing_iff_line :
    Carries lines (lines.enter ⟨[97], [98], [99], [49, 58, 48]⟩) ⟨[97], [98], [99], [49, 58, 48]⟩ ∧
    ∀ m, AllOrNothing lines (lines.enter ⟨[97], [98], [99], [49, 58, 48]⟩) m := by
  have hcarries : Carries lines (lines.enter ⟨[97], [98], [99], [49, 58, 48]⟩)
      ⟨[97], [98], [99], [49, 58, 48]⟩ := ⟨[], rfl⟩
  exact ⟨hcarries, (receive_all_or_nothing_iff lines accesses_lines _).mpr (.inl ⟨_, hcarries⟩)⟩

theorem run_receive_of_malformed (hacc : lib.Accesses) (hread : lib.read json = none)
    (m : Message) : (Message.receive lib json).run m = .ok () ⟨[], [], [], []⟩ := by
  have hnull : ∀ i, lib.stringAt (lib.parse json) i = some [] := by
    intro i
    simp [Jsoncpp.stringAt, Jsoncpp.parse_of_malformed hread, hacc.get_null, hacc.asString_null]
  simp only [Message.receive, assign, hnull]
  rfl

/-- The text "hi" is malformed. -/
theorem malformed_text_clears :
    lines.read [104, 105] = none ∧
      (Message.receive lines [104, 105]).run ⟨[97], [98], [99], [100]⟩ =
        .ok () ⟨[], [], [], []⟩ ∧
      ¬ AllOrNothing lines [104, 105] ⟨[97], [98], [99], [100]⟩ := by
  have hread : lines.read [104, 105] = none := rfl
  have hrun := run_receive_of_malformed accesses_lines hread ⟨[97], [98], [99], [100]⟩
  refine ⟨hread, hrun, ?_⟩
  intro h
  have hnone : ¬ ∃ m, Carries lines [104, 105] m := by
    rintro ⟨m, rest, hcarries⟩
    rw [hread] at hcarries
    cases hcarries
  have hafter := h.nothing hnone
  rw [Message.after, hrun] at hafter
  cases hafter

/-! ## The message of the server -/

/-- The loop of the server with its one message `temp`, which keeps what the texts
have left in it. -/
def serveTemp (lib : Jsoncpp) (behind : ℕ → Bytes) (buf : Bytes)
    (temp : Message) : List Chunk → List (Option Message)
  | [] => []
  | r :: reads =>
    let buf := r.val ++ buf.drop r.val.length
    match (Message.receive lib (cString buf (behind 0))).run temp with
    | .error _ _ => [none]
    | .ok _ temp =>
      some temp ::
        serveTemp lib (fun n => behind (n + 1)) (List.replicate BUFSIZE 0) temp reads

theorem leading_eq_iff {α : Type*} {os : List (Option α)} {as : List α}
    (h : os.length = as.length) : leading os = as ↔ os = as.map some := by
  induction os generalizing as with
  | nil =>
    rw [List.length_nil, eq_comm, List.length_eq_zero_iff] at h
    simp [h, leading]
  | cons o os ih =>
    cases as with
    | nil => simp at h
    | cons a as =>
      cases o with
      | none => simp [leading]
      | some b => simp [leading, ih (Nat.succ.inj h)]

theorem receive_eq_some_iff :
    lib.receive json = some m ↔ lib.taken (lib.parse json) = m.fields := by
  rw [Jsoncpp.taken, leading_eq_iff rfl]
  simp only [Jsoncpp.receive, Jsoncpp.stringAt, Message.fields, Option.bind_eq_bind,
    Option.bind_eq_some_iff, Option.pure_def, Option.some.injEq, List.map_cons, List.map_nil,
    List.cons.injEq, and_true]
  constructor
  · rintro ⟨v, hv, name, hname, w, hw, picture, hpicture, x, hx, information, hinformation,
      y, hy, my_time, hmy_time, rfl⟩
    exact ⟨⟨v, hv, hname⟩, ⟨w, hw, hpicture⟩, ⟨x, hx, hinformation⟩, ⟨y, hy, hmy_time⟩⟩
  · rintro ⟨⟨v, hv, hname⟩, ⟨w, hw, hpicture⟩, ⟨x, hx, hinformation⟩, ⟨y, hy, hmy_time⟩⟩
    exact ⟨v, hv, _, hname, w, hw, _, hpicture, x, hx, _, hinformation, y, hy, _, hmy_time, rfl⟩

/-- A call that does not throw leaves nothing of the message it was made on. -/
theorem receive_cases (lib : Jsoncpp) (json : Bytes) (m : Message) :
    (∃ m', lib.receive json = some m' ∧
        (Message.receive lib json).run m = .ok () m') ∨
      (lib.receive json = none ∧
        ∃ m', (Message.receive lib json).run m = .error () m') := by
  obtain ⟨m', hfields, hrun⟩ := m.run_receive lib json
  by_cases hlen : (lib.taken (lib.parse json)).length = 4
  · rw [if_pos hlen] at hrun
    rw [hlen] at hfields
    exact .inl ⟨m', receive_eq_some_iff.mpr (hfields.trans (List.append_nil _)).symm, hrun⟩
  · rw [if_neg hlen] at hrun
    right
    constructor
    · rw [Option.eq_none_iff_forall_ne_some]
      intro m'' hrec
      rw [receive_eq_some_iff.mp hrec] at hlen
      exact hlen rfl
    · exact ⟨m', hrun⟩

theorem serveTemp_eq_serve (lib : Jsoncpp) (reads : List Chunk)
    (behind : ℕ → Bytes) (buf : Bytes) (temp : Message) :
    serveTemp lib behind buf temp reads = lib.serve behind buf reads := by
  induction reads generalizing behind buf temp with
  | nil => rfl
  | cons r reads ih =>
    rw [serveTemp, Jsoncpp.serve]
    rcases receive_cases lib (cString (r.val ++ buf.drop r.val.length) (behind 0)) temp with
      ⟨m', hrec, hrun⟩ | ⟨hrec, m', hrun⟩
    · rw [hrec, hrun]
      dsimp only
      rw [ih]
    · rw [hrec, hrun]

end NetworkPrograms.Json
