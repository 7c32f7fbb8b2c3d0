import Mathlib.Tactic

/-!
# Numerals and separated fields

A numeral is read from left to right: the value so far times the base, plus the next digit.
What a digit is worth is said by a function, so that letters of both cases can be digits.
The numerals that are printed are those of `Nat.toDigits`.

A reader that works through fields with a separator between them sees each field but the
last one with its separator behind it.
-/
namespace NetworkPrograms.Numerals

variable (digit : Char → Option ℕ) (b : ℕ)

/-- The value of a text of digits, read behind others with the value `acc`. -/
def value (acc : ℕ) (text : List Char) : ℕ :=
  text.foldl (fun acc ch => acc * b + (digit ch).getD 0) acc

def AllDigits (text : List Char) : Prop := ∀ ch ∈ text, (digit ch).isSome

variable {digit b}

@[simp] theorem value_nil (acc : ℕ) : value digit b acc [] = acc := rfl

theorem value_cons {acc d : ℕ} {ch : Char} (h : digit ch = some d) (text : List Char) :
    value digit b acc (ch :: text) = value digit b (acc * b + d) text := by
  simp [value, h]

theorem value_append (acc : ℕ) (text more : List Char) :
    value digit b acc (text ++ more) = value digit b (value digit b acc text) more := by
  simp [value]

theorem le_value (hb : 1 ≤ b) (acc : ℕ) (text : List Char) : acc ≤ value digit b acc text := by
  induction text generalizing acc with
  | nil => exact le_rfl
  | cons ch text ih =>
    calc acc ≤ acc * b := Nat.le_mul_of_pos_right acc hb
      _ ≤ acc * b + (digit ch).getD 0 := Nat.le_add_right _ _
      _ ≤ value digit b acc (ch :: text) := ih _

theorem AllDigits.cons {text : List Char} {ch : Char} {d : ℕ} (h : AllDigits digit text)
    (hd : digit ch = some d) : AllDigits digit (ch :: text) := by
  intro c hc
  rcases List.mem_cons.mp hc with rfl | hc
  · simp [hd]
  · exact h c hc

theorem AllDigits.exists_head {text : List Char} {ch : Char} (h : AllDigits digit (ch :: text)) :
    ∃ d, digit ch = some d ∧ AllDigits digit text := by
  obtain ⟨d, hd⟩ := Option.isSome_iff_exists.mp (h ch List.mem_cons_self)
  exact ⟨d, hd, fun c hc => h c (List.mem_cons_of_mem ch hc)⟩

theorem AllDigits.append {text more : List Char} (h : AllDigits digit text)
    (hmore : AllDigits digit more) : AllDigits digit (text ++ more) := by
  intro c hc
  rcases List.mem_append.mp hc with hc | hc
  · exact h c hc
  · exact hmore c hc

/-! ## The numeral of a number -/

section
variable (hb : 1 < b) (hdigit : ∀ d < b, digit (Nat.digitChar d) = some d)
include hb hdigit

theorem allDigits_toDigits (n : ℕ) : AllDigits digit (Nat.toDigits b n) := by
  induction n using Nat.strong_induction_on with
  | _ n ih =>
    have hlast : AllDigits digit [Nat.digitChar (n % b)] := by
      intro c hc
      rw [List.mem_singleton.mp hc, hdigit _ (Nat.mod_lt n (by omega))]
      rfl
    rw [Nat.toDigits_eq_if hb]
    split_ifs with hlt
    · rwa [Nat.mod_eq_of_lt hlt] at hlast
    · exact (ih _ (Nat.div_lt_self (by omega) hb)).append hlast

theorem value_toDigits (n : ℕ) : value digit b 0 (Nat.toDigits b n) = n := by
  induction n using Nat.strong_induction_on with
  | _ n ih =>
    rw [Nat.toDigits_eq_if hb]
    split_ifs with hlt
    · rw [value_cons (hdigit n hlt), value_nil, zero_mul, zero_add]
    · rw [value_append, ih _ (Nat.div_lt_self (by omega) hb),
        value_cons (hdigit _ (Nat.mod_lt n (by omega))), value_nil, Nat.div_add_mod']

end

/-! ## Fields -/

section
variable {α : Type*} (sep : α)

/-- Every field with the separator behind it. -/
def terminated (fields : List (List α)) : List α := fields.flatMap fun g => g ++ [sep]

@[simp] theorem terminated_nil : terminated sep [] = [] := rfl

@[simp] theorem terminated_cons (g : List α) (fields : List (List α)) :
    terminated sep (g :: fields) = g ++ sep :: terminated sep fields := by
  simp [terminated]

theorem terminated_append (fields more : List (List α)) :
    terminated sep (fields ++ more) = terminated sep fields ++ terminated sep more := by
  simp [terminated]

theorem intercalate_concat (fields : List (List α)) (g : List α) :
    [sep].intercalate (fields ++ [g]) = terminated sep fields ++ g := by
  induction fields with
  | nil => simp [List.intercalate]
  | cons f fields ih =>
    rw [List.cons_append, List.intercalate_cons_of_ne_nil (by simp), ih]
    simp

theorem intercalate_append_sep {fields : List (List α)} (h : fields ≠ []) :
    [sep].intercalate fields ++ [sep] = terminated sep fields := by
  obtain ⟨init, g, rfl⟩ := (List.eq_nil_or_concat' fields).resolve_left h
  rw [intercalate_concat, terminated_append]
  simp

theorem append_flatMap_sep (g : List α) (fields : List (List α)) :
    g ++ fields.flatMap (fun f => sep :: f) = [sep].intercalate (g :: fields) := by
  induction fields generalizing g with
  | nil => simp [List.intercalate]
  | cons f fields ih =>
    rw [List.flatMap_cons, List.intercalate_cons_cons, ← ih f]
    simp

theorem flatMap_sep_append (fields : List (List α)) :
    fields.flatMap (fun f => sep :: f) ++ [sep] = sep :: terminated sep fields := by
  induction fields with
  | nil => rfl
  | cons f fields ih =>
    rw [List.flatMap_cons, List.append_assoc, ih]
    simp

theorem length_terminated_le {n : ℕ} {fields : List (List α)} (h : ∀ g ∈ fields, g.length ≤ n) :
    (terminated sep fields).length ≤ (n + 1) * fields.length := by
  induction fields with
  | nil => simp
  | cons g fields ih =>
    have hg := h g List.mem_cons_self
    have hfields := ih fun f hf => h f (List.mem_cons_of_mem g hf)
    rw [terminated_cons, List.length_append, List.length_cons, List.length_cons, mul_add, mul_one]
    omega

theorem length_intercalate_le {n : ℕ} {fields : List (List α)} (h : ∀ g ∈ fields, g.length ≤ n) :
    ([sep].intercalate fields).length ≤ (n + 1) * fields.length - 1 := by
  by_cases hnil : fields = []
  · simp [hnil, List.intercalate]
  · have hlen := length_terminated_le sep h
    rw [← intercalate_append_sep sep hnil, List.length_append, List.length_singleton] at hlen
    omega

end

end NetworkPrograms.Numerals
