import NetworkPrograms.Foundations.Loop
import NetworkPrograms.Foundations.Varint

/-!
# The message `lm.helloworld`

The class that `lm.helloworld.pb.cc` and `lm.helloworld.pb.h` define, with its parser, its
serializer, its size and its merge, and the two programs that write and read it. The runtime
library is not part of the repository: its functions are the parameters `Runtime` and
`MessageLite`, and what is assumed of them has names in `Runtime.Lawful` and
`MessageLite.Lawful`. The text is there as a whole, so that `Done` is the end of it.
-/
namespace NetworkPrograms.Protobuf

open Varint

def INT_MAX : ℕ := 2 ^ 31 - 1

/-- What the class calls of the runtime. The readers take a value off the text: `ReadTag`,
`ReadVarint64`, `InlineGreedyStringParser`, which takes strings up to `sizeLimit`, and
`UnknownFieldParse` behind a tag. The writers give the bytes of a field with its number:
`WriteInt32ToArray`, `WriteStringMaybeAliased`, `InternalSerializeUnknownFieldsToArray` for one
unknown field. `Int32Size` and `StringSize` count the bytes behind the tag,
`ComputeUnknownFieldsSize` those of a whole field. -/
structure Runtime (U : Type*) where
  readTag : Bytes → Option (ℕ × Bytes)
  readVarint64 : Bytes → Option (ℕ × Bytes)
  readString : Bytes → Option (Bytes × Bytes)
  parseUnknown : ℕ → Bytes → Option (U × Bytes)
  writeInt32 : ℕ → Int32 → Bytes
  writeString : ℕ → Bytes → Bytes
  printUnknown : U → Bytes
  int32Size : Int32 → ℕ
  stringSize : Bytes → ℕ
  unknownSize : U → ℕ
  sizeLimit : ℕ

/-! ## The class -/

/-- `helloworld`, with the unknown fields of its metadata. -/
structure Helloworld (U : Type*) where
  has_bits : ℕ := 0
  str : Bytes := []
  id : Int32 := 0
  opt : Int32 := 0
  unknown : List U := []
  deriving DecidableEq

namespace Helloworld

variable {U : Type*}

def has_str (m : Helloworld U) : Bool := m.has_bits &&& 1 ≠ 0

def has_id (m : Helloworld U) : Bool := m.has_bits &&& 2 ≠ 0

def has_opt (m : Helloworld U) : Bool := m.has_bits &&& 4 ≠ 0

def set_str (m : Helloworld U) (value : Bytes) : Helloworld U :=
  { m with has_bits := m.has_bits ||| 1, str := value }

def set_id (m : Helloworld U) (value : Int32) : Helloworld U :=
  { m with has_bits := m.has_bits ||| 2, id := value }

def set_opt (m : Helloworld U) (value : Int32) : Helloworld U :=
  { m with has_bits := m.has_bits ||| 4, opt := value }

/-- `((has_bits[0] & 0x00000003) ^ 0x00000003) != 0`. -/
def missingRequiredFields (has_bits : ℕ) : Bool := (has_bits &&& 3) ^^^ 3 ≠ 0

def isInitialized (m : Helloworld U) : Bool := !missingRequiredFields m.has_bits

/-- Only what is present is reset; `id` and `opt` lie together and are reset together. -/
def clear (m : Helloworld U) : Helloworld U :=
  let cached_has_bits := m.has_bits
  let m := if cached_has_bits &&& 1 ≠ 0 then { m with str := [] } else m
  let m := if cached_has_bits &&& 6 ≠ 0 then { m with id := 0, opt := 0 } else m
  { m with has_bits := 0, unknown := [] }

def mergeFrom (m src : Helloworld U) : Helloworld U :=
  let m := { m with unknown := m.unknown ++ src.unknown }
  let cached_has_bits := src.has_bits
  if cached_has_bits &&& 7 ≠ 0 then
    let m := if cached_has_bits &&& 1 ≠ 0 then m.set_str src.str else m
    let m := if cached_has_bits &&& 2 ≠ 0 then { m with id := src.id } else m
    let m := if cached_has_bits &&& 4 ≠ 0 then { m with opt := src.opt } else m
    { m with has_bits := m.has_bits ||| cached_has_bits }
  else m

def internalSerialize (rt : Runtime U) (m : Helloworld U) : Bytes :=
  (if m.has_bits &&& 2 ≠ 0 then rt.writeInt32 1 m.id else []) ++
  (if m.has_bits &&& 1 ≠ 0 then rt.writeString 2 m.str else []) ++
  (if m.has_bits &&& 4 ≠ 0 then rt.writeInt32 3 m.opt else []) ++
  m.unknown.flatMap rt.printUnknown

def requiredFieldsByteSizeFallback (rt : Runtime U) (m : Helloworld U) : ℕ :=
  (if m.has_str then 1 + rt.stringSize m.str else 0) +
    if m.has_id then 1 + rt.int32Size m.id else 0

def byteSizeLong (rt : Runtime U) (m : Helloworld U) : ℕ :=
  let total_size :=
    if (m.has_bits &&& 3) ^^^ 3 = 0 then 1 + rt.stringSize m.str + (1 + rt.int32Size m.id)
    else m.requiredFieldsByteSizeFallback rt
  let total_size :=
    if m.has_bits &&& 4 ≠ 0 then total_size + (1 + rt.int32Size m.opt) else total_size
  total_size + (m.unknown.map rt.unknownSize).sum

/-- The variables of `_InternalParse`: the text behind `ptr`, the local `has_bits`, and the
message. -/
structure Parse (U : Type*) where
  ptr : Bytes
  has_bits : ℕ
  msg : Helloworld U

/-- What `_InternalParse` returns: a null pointer; a pointer behind a tag that ends the
message, which is left in the context with `SetLastTag`; or the end of the text. What a failed
parse leaves in the message is not looked at. -/
inductive Parsed (U : Type*) where
  | failure
  | stopped (msg : Helloworld U) (tag : ℕ) (ptr : Bytes)
  | done (msg : Helloworld U)
  deriving DecidableEq

/-- `_has_bits_.Or(has_bits)` in front of the return. -/
def Parse.merged (s : Parse U) : Helloworld U :=
  { s.msg with has_bits := s.msg.has_bits ||| s.has_bits }

/-- The loop goes on with what a reader has read, unless that has failed. -/
def Parse.continue {α : Type*} (read : Option (α × Bytes)) (k : α → Bytes → Parse U) :
    Loop.Pass (Parse U) (Parsed U) :=
  match read with
  | none => .leave .failure
  | some (a, ptr) => .again (k a ptr)

/-- The switch of `_InternalParse` behind a tag. -/
def parseField (rt : Runtime U) (s : Parse U) (tag : ℕ) : Loop.Pass (Parse U) (Parsed U) :=
  if tag >>> 3 = 1 ∧ tag % 2 ^ 8 = 8 then
    Parse.continue (rt.readVarint64 s.ptr) fun v ptr =>
      ⟨ptr, s.has_bits ||| 2, { s.msg with id := Int32.ofNat v }⟩
  else if tag >>> 3 = 2 ∧ tag % 2 ^ 8 = 18 then
    Parse.continue (rt.readString s.ptr) fun str ptr => ⟨ptr, s.has_bits, s.msg.set_str str⟩
  else if tag >>> 3 = 3 ∧ tag % 2 ^ 8 = 24 then
    Parse.continue (rt.readVarint64 s.ptr) fun v ptr =>
      ⟨ptr, s.has_bits ||| 4, { s.msg with opt := Int32.ofNat v }⟩
  else if tag &&& 7 = 4 ∨ tag = 0 then .leave (.stopped s.merged tag s.ptr)
  else
    Parse.continue (rt.parseUnknown tag s.ptr) fun u ptr =>
      ⟨ptr, s.has_bits, { s.msg with unknown := s.msg.unknown ++ [u] }⟩

def parsePass (rt : Runtime U) (s : Parse U) : Loop.Pass (Parse U) (Parsed U) :=
  if s.ptr = [] then .leave (.done s.merged)
  else
    match rt.readTag s.ptr with
    | none => .leave .failure
    | some (tag, ptr) => parseField rt { s with ptr := ptr } tag

def internalParse (rt : Runtime U) (m : Helloworld U) (text : Bytes) : Parsed U :=
  (Loop.run (parsePass rt) (text.length + 1) ⟨text, 0, m⟩).getD .failure

end Helloworld

/-- What the programs call of the runtime: `SerializeToOstream` and `ParseFromIstream`. -/
structure MessageLite (U : Type*) where
  serializeToOstream : Helloworld U → Option Bytes
  parseFromIstream : Helloworld U → Bytes → Option (Helloworld U)

/-! ## What is assumed of the runtime -/

/-- The readers look at no more bytes than they take, and a tag has one byte at least. A field
that has been written is read again: its tag, and behind the tag its value. The tag of an
unknown field is neither that of a known one nor one that ends a message. A field with a
number below 16 has a tag of one byte. -/
structure Runtime.Lawful {U : Type*} (rt : Runtime U) : Prop where
  readTag_local : Local rt.readTag
  readTag_lt : ∀ {ptr tag rest}, rt.readTag ptr = some (tag, rest) → rest.length < ptr.length
  readVarint64_local : Local rt.readVarint64
  readString_local : Local rt.readString
  readString_le : ∀ {ptr str rest}, rt.readString ptr = some (str, rest) →
    str.length ≤ rt.sizeLimit
  parseUnknown_local : ∀ tag, Local (rt.parseUnknown tag)
  read_int32 : ∀ field, 0 < field → field < 16 → ∀ value rest, ∃ ptr v,
    rt.readTag (rt.writeInt32 field value ++ rest) = some (8 * field, ptr) ∧
    rt.readVarint64 ptr = some (v, rest) ∧ Int32.ofNat v = value
  read_string : ∀ field, 0 < field → field < 16 → ∀ str, str.length ≤ rt.sizeLimit → ∀ rest,
    ∃ ptr, rt.readTag (rt.writeString field str ++ rest) = some (8 * field + 2, ptr) ∧
    rt.readString ptr = some (str, rest)
  read_unknown : ∀ u rest, ∃ tag ptr,
    rt.readTag (rt.printUnknown u ++ rest) = some (tag, ptr) ∧
    tag ≠ 8 ∧ tag ≠ 18 ∧ tag ≠ 24 ∧ tag &&& 7 ≠ 4 ∧ tag ≠ 0 ∧
    rt.parseUnknown tag ptr = some (u, rest)
  length_int32 : ∀ field, 0 < field → field < 16 → ∀ value,
    (rt.writeInt32 field value).length = 1 + rt.int32Size value
  length_string : ∀ field, 0 < field → field < 16 → ∀ str, str.length ≤ rt.sizeLimit →
    (rt.writeString field str).length = 1 + rt.stringSize str
  length_unknown : ∀ u, (rt.printUnknown u).length = rt.unknownSize u

/-- A message without its required fields, or of more than 2 GB, is not written. A message is
cleared before it is read, must end with the text, and must have its required fields then. -/
structure MessageLite.Lawful {U : Type*} (lite : MessageLite U) (rt : Runtime U) : Prop where
  serialize : ∀ m, lite.serializeToOstream m =
    if m.isInitialized ∧ m.byteSizeLong rt ≤ INT_MAX then some (m.internalSerialize rt) else none
  parse : ∀ m text m', lite.parseFromIstream m text = some m' ↔
    Helloworld.internalParse rt m.clear text = .done m' ∧ m'.isInitialized = true

/-! ## A text is a list of fields -/

inductive Field (U : Type*) where
  | id (value : Int32)
  | str (value : Bytes)
  | opt (value : Int32)
  | unknown (u : U)

namespace Field

variable {U : Type*}

def set (m : Helloworld U) : Field U → Helloworld U
  | id value => m.set_id value
  | str value => m.set_str value
  | opt value => m.set_opt value
  | unknown u => { m with unknown := m.unknown ++ [u] }

def print (rt : Runtime U) : Field U → Bytes
  | id value => rt.writeInt32 1 value
  | str value => rt.writeString 2 value
  | opt value => rt.writeInt32 3 value
  | unknown u => rt.printUnknown u

/-- The strings that a text can hold. -/
def Fits (rt : Runtime U) : Field U → Prop
  | str value => value.length ≤ rt.sizeLimit
  | _ => True

def behind (rt : Runtime U) (tag : ℕ) (ptr : Bytes) : Option (Field U × Bytes) :=
  if tag >>> 3 = 1 ∧ tag % 2 ^ 8 = 8 then
    (rt.readVarint64 ptr).map fun p => (id (Int32.ofNat p.1), p.2)
  else if tag >>> 3 = 2 ∧ tag % 2 ^ 8 = 18 then (rt.readString ptr).map fun p => (str p.1, p.2)
  else if tag >>> 3 = 3 ∧ tag % 2 ^ 8 = 24 then
    (rt.readVarint64 ptr).map fun p => (opt (Int32.ofNat p.1), p.2)
  else if tag &&& 7 = 4 ∨ tag = 0 then none
  else (rt.parseUnknown tag ptr).map fun p => (unknown p.1, p.2)

def read (rt : Runtime U) (text : Bytes) : Option (Field U × Bytes) :=
  (rt.readTag text).bind fun p => behind rt p.1 p.2

variable {rt : Runtime U}

theorem behind_local (hrt : rt.Lawful) (tag : ℕ) : Local (behind rt tag) := by
  unfold behind
  split_ifs with hid hstr hopt hend
  · exact hrt.readVarint64_local.map fun v => id (Int32.ofNat v)
  · exact hrt.readString_local.map str
  · exact hrt.readVarint64_local.map fun v => opt (Int32.ofNat v)
  · intro bs f rest h
    cases h
  · exact (hrt.parseUnknown_local tag).map unknown

theorem read_local (hrt : rt.Lawful) : Local (read rt) :=
  hrt.readTag_local.bind (behind_local hrt)

theorem read_length_lt (hrt : rt.Lawful) {text rest : Bytes} {f : Field U}
    (h : read rt text = some (f, rest)) : rest.length < text.length := by
  obtain ⟨⟨tag, ptr⟩, htag, hfield⟩ := Option.bind_eq_some_iff.mp h
  have hlt := hrt.readTag_lt htag
  have hle := (behind_local hrt tag ptr f rest hfield).1
  omega

theorem read_nil (hrt : rt.Lawful) : read rt [] = none := by
  cases h : read rt [] with
  | none => rfl
  | some p => exact absurd (read_length_lt hrt h) (Nat.not_lt_zero _)

theorem read_fits (hrt : rt.Lawful) {text rest : Bytes} {f : Field U}
    (h : read rt text = some (f, rest)) : f.Fits rt := by
  obtain ⟨⟨tag, ptr⟩, -, hfield⟩ := Option.bind_eq_some_iff.mp h
  unfold behind at hfield
  split_ifs at hfield with hid hstr hopt hend <;>
    obtain ⟨⟨value, ptr'⟩, hp, heq⟩ := Option.map_eq_some_iff.mp hfield <;> cases heq
  · trivial
  · exact hrt.readString_le hp
  · trivial
  · trivial

theorem read_print (hrt : rt.Lawful) {f : Field U} (hf : f.Fits rt) (rest : Bytes) :
    read rt (f.print rt ++ rest) = some (f, rest) := by
  cases f with
  | id value =>
    obtain ⟨ptr, v, htag, hread, rfl⟩ := hrt.read_int32 1 (by decide) (by decide) value rest
    simp [read, print, htag, behind, hread]
  | str value =>
    obtain ⟨ptr, htag, hread⟩ := hrt.read_string 2 (by decide) (by decide) value hf rest
    simp [read, print, htag, behind, hread]
  | opt value =>
    obtain ⟨ptr, v, htag, hread, rfl⟩ := hrt.read_int32 3 (by decide) (by decide) value rest
    simp [read, print, htag, behind, hread]
  | unknown u =>
    obtain ⟨tag, ptr, htag, hid, hstr, hopt, hgroup, hzero, hread⟩ := hrt.read_unknown u rest
    rw [read, print, htag, Option.bind_some]
    -- with the number of a known field in front, a low byte of its tag gives the whole tag
    have hid' : ¬ (tag >>> 3 = 1 ∧ tag % 2 ^ 8 = 8) := by omega
    have hstr' : ¬ (tag >>> 3 = 2 ∧ tag % 2 ^ 8 = 18) := by omega
    have hopt' : ¬ (tag >>> 3 = 3 ∧ tag % 2 ^ 8 = 24) := by omega
    have hend : ¬ (tag &&& 7 = 4 ∨ tag = 0) := by
      rintro (h | h)
      · exact hgroup h
      · exact hzero h
    rw [behind, if_neg hid', if_neg hstr', if_neg hopt', if_neg hend, hread, Option.map_some]

end Field

/-- The text starts with a list of fields, and the rest follows. -/
inductive Reads {U : Type*} (rt : Runtime U) : Bytes → List (Field U) → Bytes → Prop
  | nil (text : Bytes) : Reads rt text [] text
  | cons {text mid rest f fields} (read : Field.read rt text = some (f, mid))
      (tail : Reads rt mid fields rest) : Reads rt text (f :: fields) rest

namespace Reads

variable {U : Type*} {rt : Runtime U} {x y rest rest' : Bytes} {fs gs : List (Field U)}

theorem append (hrt : rt.Lawful) (hx : Reads rt x fs []) (hy : Reads rt y gs rest) :
    Reads rt (x ++ y) (fs ++ gs) rest := by
  generalize hnil : ([] : Bytes) = last at hx
  induction hx with
  | nil text =>
    subst hnil
    exact hy
  | cons read tail ih => exact .cons ((Field.read_local hrt _ _ _ read).2 y) (ih hnil)

theorem unique (hx : Reads rt x fs rest) (hend : Field.read rt rest = none)
    (hx' : Reads rt x gs rest') (hend' : Field.read rt rest' = none) : fs = gs ∧ rest = rest' := by
  induction hx generalizing gs with
  | nil text =>
    cases hx' with
    | nil => exact ⟨rfl, rfl⟩
    | cons read tail =>
      rw [hend] at read
      cases read
  | cons read tail ih =>
    cases hx' with
    | nil =>
      rw [hend'] at read
      cases read
    | cons read' tail' =>
      rw [read] at read'
      cases read'
      obtain ⟨rfl, rfl⟩ := ih hend tail'
      exact ⟨rfl, rfl⟩

theorem fits (hrt : rt.Lawful) (h : Reads rt x fs rest) : ∀ f ∈ fs, f.Fits rt := by
  induction h with
  | nil => simp
  | cons read tail ih =>
    rintro g (_ | ⟨_, hg⟩)
    · exact Field.read_fits hrt read
    · exact ih g hg

theorem print (hrt : rt.Lawful) (hfs : ∀ f ∈ fs, f.Fits rt) :
    Reads rt (fs.flatMap (Field.print rt)) fs [] := by
  induction fs with
  | nil => exact .nil []
  | cons f fs ih =>
    have hread := Field.read_print hrt (hfs f List.mem_cons_self) (fs.flatMap (Field.print rt))
    exact .cons hread (ih fun g hg => hfs g (List.mem_cons_of_mem f hg))

end Reads

namespace Helloworld

variable {U : Type*} {rt : Runtime U}

def Parse.advance (s : Parse U) (rest : Bytes) : Field U → Parse U
  | .id value => ⟨rest, s.has_bits ||| 2, { s.msg with id := value }⟩
  | .str value => ⟨rest, s.has_bits, s.msg.set_str value⟩
  | .opt value => ⟨rest, s.has_bits ||| 4, { s.msg with opt := value }⟩
  | .unknown u => ⟨rest, s.has_bits, { s.msg with unknown := s.msg.unknown ++ [u] }⟩

theorem Parse.advance_ptr (s : Parse U) (rest : Bytes) (f : Field U) :
    (s.advance rest f).ptr = rest := by
  cases f <;> rfl

theorem Parse.advance_merged (s : Parse U) (rest : Bytes) (f : Field U) :
    (s.advance rest f).merged = f.set s.merged := by
  cases f with
  | id value => simp [advance, merged, Field.set, set_id, Nat.or_assoc]
  | str value => simp [advance, merged, Field.set, set_str, Nat.or_assoc, Nat.or_comm 1]
  | opt value => simp [advance, merged, Field.set, set_opt, Nat.or_assoc]
  | unknown u => rfl

/-- What is returned where no field can be read: the message at the end of the text or at a
tag that ends it. -/
def final (rt : Runtime U) (ptr : Bytes) (m : Helloworld U) : Parsed U :=
  if ptr = [] then .done m
  else
    match rt.readTag ptr with
    | none => .failure
    | some (tag, rest) => if tag &&& 7 = 4 ∨ tag = 0 then .stopped m tag rest else .failure

theorem parseField_eq (s : Parse U) (tag : ℕ) :
    parseField rt s tag = match Field.behind rt tag s.ptr with
      | some (f, rest) => .again (s.advance rest f)
      | none => .leave (if tag &&& 7 = 4 ∨ tag = 0 then .stopped s.merged tag s.ptr
          else .failure) := by
  rw [parseField, Field.behind]
  -- the tags of the known fields do not end a message
  by_cases hid : tag >>> 3 = 1 ∧ tag % 2 ^ 8 = 8
  · obtain rfl : tag = 8 := by omega
    cases rt.readVarint64 s.ptr <;> rfl
  by_cases hstr : tag >>> 3 = 2 ∧ tag % 2 ^ 8 = 18
  · obtain rfl : tag = 18 := by omega
    cases rt.readString s.ptr <;> rfl
  by_cases hopt : tag >>> 3 = 3 ∧ tag % 2 ^ 8 = 24
  · obtain rfl : tag = 24 := by omega
    cases rt.readVarint64 s.ptr <;> rfl
  simp only [if_neg hid, if_neg hstr, if_neg hopt]
  split_ifs with hend
  · rfl
  · cases rt.parseUnknown tag s.ptr <;> rfl

theorem parsePass_read {s : Parse U} {f : Field U} {rest : Bytes} (hptr : s.ptr ≠ [])
    (h : Field.read rt s.ptr = some (f, rest)) : parsePass rt s = .again (s.advance rest f) := by
  obtain ⟨⟨tag, ptr⟩, htag, hfield⟩ := Option.bind_eq_some_iff.mp h
  simp only [parsePass, if_neg hptr, htag, parseField_eq, hfield]
  cases f <;> rfl

theorem parsePass_final {s : Parse U} (h : Field.read rt s.ptr = none) :
    parsePass rt s = .leave (final rt s.ptr s.merged) := by
  unfold parsePass final
  split_ifs with hptr
  · rfl
  cases htag : rt.readTag s.ptr with
  | none => rfl
  | some p =>
    have hfield : Field.behind rt p.1 p.2 = none := by simpa [Field.read, htag] using h
    simp only [parseField_eq, hfield]
    rfl

theorem run_parsePass (hrt : rt.Lawful) {fuel : ℕ} {s : Parse U} (h : s.ptr.length < fuel) :
    ∃ fields rest, Reads rt s.ptr fields rest ∧ Field.read rt rest = none ∧
      Loop.run (parsePass rt) fuel s = some (final rt rest (fields.foldl Field.set s.merged)) := by
  induction fuel generalizing s with
  | zero => omega
  | succ fuel ih =>
    cases hread : Field.read rt s.ptr with
    | none => exact ⟨[], s.ptr, .nil _, hread, Loop.run_leave (parsePass_final hread) fuel⟩
    | some p =>
      obtain ⟨f, mid⟩ := p
      have hlt := Field.read_length_lt hrt hread
      have hptr : s.ptr ≠ [] := List.ne_nil_of_length_pos (Nat.zero_lt_of_lt hlt)
      have hmid : (s.advance mid f).ptr.length < fuel := by
        rw [Parse.advance_ptr]
        omega
      obtain ⟨fields, rest, hfields, hend, hrun⟩ := ih hmid
      rw [Parse.advance_ptr] at hfields
      rw [Parse.advance_merged] at hrun
      refine ⟨f :: fields, rest, .cons hread hfields, hend, ?_⟩
      rw [Loop.run_again (parsePass_read hptr hread), hrun, List.foldl_cons]

theorem exists_reads (hrt : rt.Lawful) (text : Bytes) : ∃ fields rest,
    Reads rt text fields rest ∧ Field.read rt rest = none ∧
    ∀ m, internalParse rt m text = final rt rest (fields.foldl Field.set m) := by
  have hrun (m : Helloworld U) := run_parsePass hrt (s := ⟨text, 0, m⟩) (Nat.lt_succ_self _)
  obtain ⟨fields, rest, hfields, hend, -⟩ := hrun {}
  refine ⟨fields, rest, hfields, hend, ?_⟩
  intro m
  obtain ⟨fields', rest', hfields', hend', hm⟩ := hrun m
  obtain ⟨rfl, rfl⟩ := hfields.unique hend hfields' hend'
  have hmerged : (⟨text, 0, m⟩ : Parse U).merged = m := by simp [Parse.merged]
  rw [internalParse, hm, hmerged, Option.getD_some]

theorem internalParse_eq (hrt : rt.Lawful) {text rest : Bytes} {fields : List (Field U)}
    (h : Reads rt text fields rest) (hend : Field.read rt rest = none) (m : Helloworld U) :
    internalParse rt m text = final rt rest (fields.foldl Field.set m) := by
  obtain ⟨fields', rest', hfields', hend', hparse⟩ := exists_reads hrt text
  obtain ⟨rfl, rfl⟩ := h.unique hend hfields' hend'
  exact hparse m

theorem internalParse_eq_done (hrt : rt.Lawful) {m m' : Helloworld U} {text : Bytes} :
    internalParse rt m text = .done m' ↔
      ∃ fields, Reads rt text fields [] ∧ m' = fields.foldl Field.set m := by
  constructor
  · intro h
    obtain ⟨fields, rest, hfields, -, hparse⟩ := exists_reads hrt text
    rw [hparse, final] at h
    split_ifs at h with hrest
    · cases h
      exact ⟨fields, hrest ▸ hfields, rfl⟩
    · split at h
      · cases h
      · split_ifs at h
  · rintro ⟨fields, hfields, rfl⟩
    exact internalParse_eq hrt hfields (Field.read_nil hrt) m

/-! ## Messages and their fields -/

/-- What holds of every message that the class hands out: a field that is not present has its
default, and the string is one that a text can hold. -/
structure Valid (rt : Runtime U) (m : Helloworld U) : Prop where
  bits : m.has_bits < 8
  str_default : m.has_str = false → m.str = []
  id_default : m.has_id = false → m.id = 0
  opt_default : m.has_opt = false → m.opt = 0
  str_fits : m.str.length ≤ rt.sizeLimit

/-- The fields of a message, in the order in which they are written. -/
def fields (m : Helloworld U) : List (Field U) :=
  (if m.has_id then [.id m.id] else []) ++ (if m.has_str then [.str m.str] else []) ++
    (if m.has_opt then [.opt m.opt] else []) ++ m.unknown.map .unknown

theorem internalSerialize_eq (m : Helloworld U) :
    m.internalSerialize rt = m.fields.flatMap (Field.print rt) := by
  unfold internalSerialize fields has_id has_str has_opt
  simp only [decide_eq_true_eq, List.flatMap_append, List.flatMap_map]
  congr 1
  split_ifs <;> simp [Field.print]

theorem Valid.fields_fit {m : Helloworld U} (h : m.Valid rt) : ∀ f ∈ m.fields, f.Fits rt := by
  intro f hf
  cases f with
  | str value =>
    have hvalue : value = m.str := by
      simp only [fields, List.mem_append, List.mem_map] at hf
      split_ifs at hf <;> simp_all
    rw [hvalue]
    exact h.str_fits
  | id value => trivial
  | opt value => trivial
  | unknown u => trivial

theorem Valid.init : ({} : Helloworld U).Valid rt :=
  ⟨Nat.succ_pos 7, fun _ => rfl, fun _ => rfl, fun _ => rfl, Nat.zero_le _⟩

theorem Valid.set {m : Helloworld U} (h : m.Valid rt) {f : Field U} (hf : f.Fits rt) :
    (f.set m).Valid rt := by
  obtain ⟨bits, str, id, opt, unknown⟩ := m
  obtain ⟨hbits, hstr, hid, hopt, hfits⟩ := h
  simp only [has_str, has_id, has_opt] at *
  cases f with
  | id value =>
    interval_cases bits <;> constructor <;> simp_all [Field.set, set_id, has_str, has_id, has_opt]
  | str value =>
    interval_cases bits <;> constructor <;>
      simp_all [Field.set, set_str, has_str, has_id, has_opt, Field.Fits]
  | opt value =>
    interval_cases bits <;> constructor <;> simp_all [Field.set, set_opt, has_str, has_id, has_opt]
  | unknown u => exact ⟨hbits, hstr, hid, hopt, hfits⟩

theorem foldl_set_unknown (m : Helloworld U) (us : List U) :
    (us.map Field.unknown).foldl Field.set m = { m with unknown := m.unknown ++ us } := by
  induction us generalizing m with
  | nil => simp
  | cons u us ih => simp [ih, Field.set]

theorem mergeFrom_eq (m : Helloworld U) {src : Helloworld U} (h : src.Valid rt) :
    m.mergeFrom src = src.fields.foldl Field.set m := by
  obtain ⟨bits, str, id, opt, unknown⟩ := src
  have hbits : bits < 8 := h.bits
  rw [fields, List.foldl_append, foldl_set_unknown]
  interval_cases bits <;> simp [mergeFrom, has_id, has_str, has_opt, Field.set, set_id, set_str,
    set_opt, Nat.or_assoc]

theorem Valid.clear {m : Helloworld U} (h : m.Valid rt) : m.clear = {} := by
  obtain ⟨bits, str, id, opt, unknown⟩ := m
  obtain ⟨hbits, hstr, hid, hopt, -⟩ := h
  simp only [has_str, has_id, has_opt] at *
  interval_cases bits <;> simp_all [Helloworld.clear]

theorem internalParse_serialize (hrt : rt.Lawful) (m : Helloworld U) {src : Helloworld U}
    (h : src.Valid rt) :
    internalParse rt m (src.internalSerialize rt) = .done (m.mergeFrom src) := by
  rw [internalSerialize_eq, mergeFrom_eq m h, internalParse_eq_done hrt]
  exact ⟨src.fields, Reads.print hrt h.fields_fit, rfl⟩

/-- The message of `writer`. -/
def msg1 : Helloworld U := (({} : Helloworld U).set_id 101).set_str [104, 101, 108, 108, 111]

/-- Texts can be put behind one another. A text that is parsed to its end is one whose end does
not matter: parsing it with more behind it does what parsing the rest into the message that it
gave does, whether that succeeds or not. Parsing the text of a valid message into another one
does what `MergeFrom` does, so a text put together from the texts of several messages is their
merge. -/
theorem concatenated_texts_merge (hrt : rt.Lawful) :
    (∀ (m m' : Helloworld U) (x : Bytes), internalParse rt m x = .done m' →
      ∀ y, internalParse rt m (x ++ y) = internalParse rt m' y) ∧
    ∀ (m : Helloworld U) (srcs : List (Helloworld U)), (∀ src ∈ srcs, src.Valid rt) →
      internalParse rt m (srcs.flatMap (internalSerialize rt)) =
        .done (srcs.foldl mergeFrom m) := by
  have happend : ∀ (m m' : Helloworld U) (x : Bytes), internalParse rt m x = .done m' →
      ∀ y, internalParse rt m (x ++ y) = internalParse rt m' y := by
    intro m m' x hx y
    obtain ⟨fs, hfs, rfl⟩ := (internalParse_eq_done hrt).mp hx
    obtain ⟨gs, rest, hgs, hend, hy⟩ := exists_reads hrt y
    rw [hy, internalParse_eq hrt (hfs.append hrt hgs) hend, List.foldl_append]
  refine ⟨happend, ?_⟩
  intro m srcs hsrcs
  induction srcs generalizing m with
  | nil => exact (internalParse_eq_done hrt).mpr ⟨[], .nil [], rfl⟩
  | cons src srcs ih =>
    have hsrc := internalParse_serialize hrt m (hsrcs src List.mem_cons_self)
    rw [List.flatMap_cons, happend _ _ _ hsrc]
    exact ih _ fun other hother => hsrcs other (List.mem_cons_of_mem src hother)

/-- An `int32` as a varint has it: extended to 64 bits with its sign. -/
def extend (value : Int32) : ℕ := (value.toInt % 2 ^ 64).toNat

theorem ofNat_extend (value : Int32) : Int32.ofNat (extend value) = value := by
  have hlo := Int32.le_toInt value
  have hhi := Int32.toInt_lt value
  apply Int32.toInt_inj.mp
  rw [Int32.toInt_ofNat', Int.bmod_def, extend, Int32.size]
  split_ifs <;> omega

/-- Fields as tags with varints and strings of a given size behind them. Of the unknown fields
it keeps the varints of the field with the number 4. -/
def varints : Runtime UInt64 where
  readTag := get 5
  readVarint64 := get 10
  readString ptr := (get 5 ptr).bind fun p => if p.1 ≤ 1000 then takeBytes p.1 p.2 else none
  parseUnknown tag ptr :=
    if tag = 32 then (get 10 ptr).map fun p => (UInt64.ofNat p.1, p.2) else none
  writeInt32 field value := put 5 (8 * field) ++ put 10 (extend value)
  writeString field str := put 5 (8 * field + 2) ++ put 5 str.length ++ str
  printUnknown u := put 5 32 ++ put 10 u.toNat
  int32Size value := (put 10 (extend value)).length
  stringSize str := (put 5 str.length ++ str).length
  unknownSize u := (put 5 32 ++ put 10 u.toNat).length
  sizeLimit := 1000

theorem length_put_small {tag : ℕ} (h : tag < 128) : (put 5 tag).length = 1 := by
  rw [put, if_pos h]
  rfl

theorem varints_lawful : varints.Lawful where
  readTag_local := get_local 5
  readTag_lt := get_length_lt
  readVarint64_local := get_local 10
  readString_local := by
    have hbody : ∀ n, Local fun bs => if n ≤ 1000 then takeBytes n bs else none := by
      intro n
      by_cases hn : n ≤ 1000
      · simp only [if_pos hn]
        exact takeBytes_local n
      · intro bs a rest h
        simp only [if_neg hn] at h
        cases h
    exact (get_local 5).bind hbody
  readString_le h := by
    obtain ⟨size, -, hsize⟩ := Option.bind_eq_some_iff.mp h
    split_ifs at hsize with hle
    unfold takeBytes at hsize
    split_ifs at hsize
    cases hsize
    exact (List.length_take_le _ _).trans hle
  parseUnknown_local tag := by
    by_cases htag : tag = 32
    · simp only [varints, if_pos htag]
      exact (get_local 10).map UInt64.ofNat
    · intro bs u rest h
      simp only [varints, if_neg htag] at h
      cases h
  read_int32 field _ hlt value rest := by
    have hvalue : extend value < 2 ^ 64 := by
      unfold extend
      omega
    refine ⟨_, _, ?_, get_put (by omega) rest, ofNat_extend value⟩
    simp only [varints, List.append_assoc]
    exact get_put (by omega) _
  read_string field _ hlt str hstr rest := by
    have hsize : str.length ≤ 1000 := hstr
    refine ⟨put 5 str.length ++ (str ++ rest), ?_, ?_⟩
    · simp only [varints, List.append_assoc]
      exact get_put (by omega) _
    · simp only [varints]
      rw [get_put (by omega), Option.bind_some, if_pos hsize, takeBytes_append]
  read_unknown u rest := by
    have hu := u.toNat_lt
    refine ⟨32, put 10 u.toNat ++ rest, ?_, by decide, by decide, by decide, by decide,
      by decide, ?_⟩
    · simp only [varints, List.append_assoc]
      exact get_put (by omega) _
    · simp only [varints, if_true]
      rw [get_put (by omega), Option.map_some, UInt64.ofNat_toNat]
  length_int32 field _ hlt value := by
    simp only [varints, List.length_append]
    rw [length_put_small (by omega)]
  length_string field _ hlt str _ := by
    simp only [varints, List.length_append]
    rw [length_put_small (by omega), add_assoc]
  length_unknown _ := rfl

def lite (rt : Runtime U) : MessageLite U where
  serializeToOstream m :=
    if m.isInitialized ∧ m.byteSizeLong rt ≤ INT_MAX then some (m.internalSerialize rt) else none
  parseFromIstream m text :=
    match internalParse rt m.clear text with
    | .done m' => if m'.isInitialized then some m' else none
    | _ => none

theorem msg1_valid : (msg1 : Helloworld UInt64).Valid varints :=
  (Valid.init.set (f := .id 101) trivial).set (f := .str _) (by decide : 5 ≤ 1000)

theorem concatenated_texts_merge_writer :
    internalParse varints {} (msg1.internalSerialize varints ++
      internalSerialize varints { unknown := [5] }) =
    .done (mergeFrom ({ unknown := [5] } : Helloworld UInt64) msg1) := by
  have hmsg1 := (concatenated_texts_merge varints_lawful).2 {} [msg1] (by
    intro src hsrc
    rw [List.mem_singleton.mp hsrc]
    exact msg1_valid)
  rw [List.flatMap_singleton] at hmsg1
  rw [(concatenated_texts_merge varints_lawful).1 _ _ _ hmsg1]
  decide +kernel

end Helloworld

end NetworkPrograms.Protobuf
