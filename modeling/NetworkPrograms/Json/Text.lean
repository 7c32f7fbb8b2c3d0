import NetworkPrograms.Foundations.Words

/-!
# Arrays of strings as lines of text

A writer and a reader of JSON for arrays of strings. Quotes, backslashes, opening
brackets and control characters are escaped, so a text is one line without NUL
bytes and has one opening bracket, and a text read back from the front of a longer
one gives the same strings.
-/
namespace NetworkPrograms.Json

/-- The values of JSON. A scalar is a number or a boolean, by its text; the members of an
object are not looked at. -/
inductive Value where
  | null
  | string (s : Bytes)
  | scalar (text : Bytes)
  | array (items : List Value)
  | object

def newline : UInt8 := 10

def hexDigit (n : UInt8) : UInt8 := if n < 10 then 48 + n else 87 + n

def hexValue (c : UInt8) : UInt8 := if c < 58 then c - 48 else c - 87

/-- A byte of a string, as `\u00..` if it cannot stand for itself. -/
def escape (b : UInt8) : Bytes :=
  if b < 32 ∨ b = 34 ∨ b = 91 ∨ b = 92 then [92, 117, 48, 48, hexDigit (b / 16), hexDigit (b % 16)]
  else [b]

def quote (s : Bytes) : Bytes := 34 :: s.flatMap escape ++ [34]

/-- The strings of an array behind the opening bracket. -/
def writeStrings : List Bytes → Bytes
  | [] => []
  | s :: ss => quote s ++ (if ss = [] then 93 else 44) :: writeStrings ss

def Value.text : Value → Bytes
  | .string s => s
  | _ => []

/-- The line of an array of strings. -/
def writeLine : Value → Bytes
  | .array items => 91 :: writeStrings (items.map Value.text) ++ [newline]
  | v => quote v.text ++ [newline]

/-- A string up to its closing quote, and what follows. -/
def readString : Bytes → Option (Bytes × Bytes)
  | [] => none
  | 34 :: rest => some ([], rest)
  | 92 :: _ :: _ :: _ :: h :: l :: rest =>
    (readString rest).map fun r => ((hexValue h * 16 + hexValue l) :: r.1, r.2)
  | b :: rest => (readString rest).map fun r => (b :: r.1, r.2)

/-- `n` strings behind an opening bracket. -/
def readStrings : ℕ → Bytes → Option (List Bytes)
  | 0, _ => some []
  | n + 1, 34 :: rest =>
    match readString rest with
    | some (s, sep :: rest) =>
      if sep = (if n = 0 then 93 else 44) then (readStrings n rest).map (s :: ·) else none
    | _ => none
  | _, _ => none

/-- The array of `n` strings at the front of a text, behind newlines. A text that the writer
does not make is malformed. -/
def readLine (n : ℕ) (json : Bytes) : Option Value :=
  match json.dropWhile (· = newline) with
  | 91 :: rest => do
    let ss ← readStrings n rest
    if writeStrings ss <+: rest then some (.array (ss.map .string)) else none
  | _ => none

theorem forall_byte {p : UInt8 → Prop} (h : ∀ n : Fin 256, p (UInt8.ofFin n)) (b : UInt8) : p b :=
  h b.toFin

theorem hexValue_hexDigit (b : UInt8) :
    hexValue (hexDigit (b / 16)) * 16 + hexValue (hexDigit (b % 16)) = b := by
  revert b
  exact forall_byte (by decide +kernel)

theorem escape_clean (b : UInt8) : newline ∉ escape b ∧ 0 ∉ escape b ∧ 91 ∉ escape b := by
  revert b
  exact forall_byte (by decide +kernel)

theorem readString_escape (b : UInt8) (rest : Bytes) :
    readString (escape b ++ rest) = (readString rest).map fun r => (b :: r.1, r.2) := by
  rw [escape]
  split_ifs with h
  · simp [readString, hexValue_hexDigit]
  · -- a byte that stands for itself is neither a quote nor a backslash
    rw [not_or, not_or, not_or] at h
    rw [List.singleton_append, readString]
    · rintro ⟨⟩
      exact h.2.1 rfl
    · rintro _ _ _ _ _ _ ⟨⟩
      exact absurd rfl h.2.2.2

theorem readString_quoted (s rest : Bytes) :
    readString (s.flatMap escape ++ 34 :: rest) = some (s, rest) := by
  induction s with
  | nil => simp [readString]
  | cons b s ih => simp [readString_escape, ih]

theorem readStrings_writeStrings (ss : List Bytes) (more : Bytes) :
    readStrings ss.length (writeStrings ss ++ more) = some ss := by
  induction ss with
  | nil => rfl
  | cons s ss ih =>
    have hsep : ss.length = 0 ↔ ss = [] := List.length_eq_zero_iff
    simp only [writeStrings, quote, List.length_cons, List.cons_append, List.append_assoc,
      List.nil_append, readStrings, readString_quoted, hsep, if_true, ih, Option.map_some]

theorem readLine_of_text (ss : List Bytes) (more : Bytes) :
    readLine ss.length (91 :: writeStrings ss ++ more) = some (.array (ss.map .string)) ∧
      readLine ss.length (newline :: 91 :: writeStrings ss ++ more) =
        some (.array (ss.map .string)) := by
  have hpre : writeStrings ss <+: writeStrings ss ++ more := List.prefix_append _ _
  have hne : ¬ (91 : UInt8) = newline := by decide
  simp only [readLine, List.cons_append, List.dropWhile_cons, hne, decide_false, decide_true,
    Bool.false_eq_true, if_false, if_true, readStrings_writeStrings, Option.bind_eq_bind,
    Option.bind_some, hpre, and_self]

theorem length_of_readStrings {n : ℕ} {json : Bytes} {ss : List Bytes}
    (h : readStrings n json = some ss) : ss.length = n := by
  fun_induction readStrings n json generalizing ss with
  | case1 => simpa [eq_comm] using h
  | case2 n rest s rest' hread ih =>
    obtain ⟨ss', hss', rfl⟩ := Option.map_eq_some_iff.mp h
    rw [List.length_cons, ih hss']
  | case3 => cases h
  | case4 => cases h
  | case5 => cases h

theorem readLine_eq_some {n : ℕ} {json : Bytes} {v : Value} (h : readLine n json = some v) :
    ∃ ss ws, ss.length = n ∧ v = .array (ss.map .string) ∧
      ws ++ 91 :: writeStrings ss <+: json := by
  have hsplit : json.takeWhile (· = newline) ++ json.dropWhile (· = newline) = json :=
    List.takeWhile_append_dropWhile
  unfold readLine at h
  split at h
  · next rest hjson =>
    simp only [Option.bind_eq_bind, Option.bind_eq_some_iff, Option.ite_none_right_eq_some,
      Option.some.injEq] at h
    obtain ⟨ss, hss, hpre, rfl⟩ := h
    refine ⟨ss, json.takeWhile (· = newline), length_of_readStrings hss, rfl, ?_⟩
    conv_rhs => rw [← hsplit]
    rw [List.prefix_append_right_inj, hjson]
    exact (List.prefix_cons_inj 91).mpr hpre
  · cases h

/-- Bytes that no escaped string has. -/
def reserved : Bytes := [newline, 0, 91]

theorem quote_clean (s : Bytes) : ∀ c ∈ reserved, c ∉ quote s := by
  have hescape : ∀ c ∈ reserved, ∀ b ∈ s, c ∉ escape b := by
    intro c hc b _
    have hclean := escape_clean b
    simp only [reserved, List.mem_cons, List.not_mem_nil, or_false] at hc
    rcases hc with rfl | rfl | rfl
    · exact hclean.1
    · exact hclean.2.1
    · exact hclean.2.2
  intro c hc
  simp only [quote, List.cons_append, List.mem_cons, List.mem_append, List.mem_flatMap,
    List.not_mem_nil, or_false, not_or, not_exists, not_and]
  have hquote : c ≠ 34 := by
    rintro rfl
    exact absurd hc (by decide)
  exact ⟨hquote, hescape c hc, hquote⟩

theorem writeStrings_clean (ss : List Bytes) : ∀ c ∈ reserved, c ∉ writeStrings ss := by
  intro c hc
  induction ss with
  | nil => simp [writeStrings]
  | cons s ss ih =>
    have hsep : c ≠ (if ss = [] then (93 : UInt8) else 44) := by
      rintro rfl
      revert hc
      split_ifs <;> decide
    simp only [writeStrings, List.mem_append, List.mem_cons, not_or]
    exact ⟨quote_clean s c hc, hsep, ih⟩

end NetworkPrograms.Json
