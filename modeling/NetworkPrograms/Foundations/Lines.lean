import Mathlib.Tactic

/-!
# Lines of a text, cut to a length

A line of a text ends with a separator or with the text. Reading a text by lines of at
most `m` items takes its first line, or the first `m` items of it, and goes on behind
them. The pieces are the text again.
-/
namespace NetworkPrograms.Lines

variable {α : Type*} (sep : α)

/-- The first line, cut to `m` items, is the same whatever follows the text: a separator is
among the first `m` items, or there are so many. -/
def Settled (m : ℕ) (as : List α) : Prop := sep ∈ as.take m ∨ m ≤ as.length

theorem not_settled {sep : α} {m : ℕ} {as : List α} (hsep : sep ∉ as) (hlen : as.length < m) :
    ¬ Settled sep m as := by
  rintro (hmem | hle)
  · exact hsep (List.mem_of_mem_take hmem)
  · omega

variable [DecidableEq α]

/-- The first line of a text, with the separator at its end. -/
def line : List α → List α
  | [] => []
  | a :: as => if a = sep then [a] else a :: line as

/-- The first line, or its first `m` items. -/
def piece (m : ℕ) (as : List α) : List α := (line sep as).take m

/-- The line or the text ends before `m` items are full: a separator is among them, or
there are not so many. -/
def Ended (m : ℕ) (as : List α) : Prop := sep ∈ as.take m ∨ as.length < m

instance (m : ℕ) (as : List α) : Decidable (Ended sep m as) :=
  inferInstanceAs (Decidable (_ ∨ _))

/-- The first `k` pieces of a text, and what is left. -/
def pieces (m : ℕ) : ℕ → List α → List (List α) × List α
  | 0, as => ([], as)
  | k + 1, as =>
    let rest := pieces m k (as.drop (piece sep m as).length)
    (piece sep m as :: rest.1, rest.2)

def AllEnded (m : ℕ) : ℕ → List α → Prop
  | 0, _ => True
  | k + 1, as => Ended sep m as ∧ AllEnded m k (as.drop (piece sep m as).length)

instance AllEnded.decidable (m : ℕ) : ∀ k as, Decidable (AllEnded sep m k as)
  | 0, _ => isTrue trivial
  | k + 1, as =>
    have : Decidable (AllEnded sep m k (as.drop (piece sep m as).length)) :=
      AllEnded.decidable m k _
    inferInstanceAs (Decidable (_ ∧ _))

variable {sep}

theorem line_append {as : List α} (h : sep ∉ as) (bs : List α) :
    line sep (as ++ bs) = as ++ line sep bs := by
  induction as with
  | nil => rfl
  | cons a as ih =>
    rw [List.mem_cons, not_or] at h
    rw [List.cons_append, line, if_neg (Ne.symm h.1), ih h.2, List.cons_append]

theorem line_isPrefix (as : List α) : line sep as <+: as := by
  induction as with
  | nil => exact List.prefix_rfl
  | cons a as ih =>
    rw [line]
    split_ifs
    · exact (List.prefix_cons_inj a).mpr List.nil_prefix
    · exact (List.prefix_cons_inj a).mpr ih

theorem piece_isPrefix (m : ℕ) (as : List α) : piece sep m as <+: as :=
  (List.take_prefix m _).trans (line_isPrefix as)

theorem length_piece_le (m : ℕ) (as : List α) : (piece sep m as).length ≤ m :=
  List.length_take_le m _

theorem piece_append_drop (m : ℕ) (as : List α) :
    piece sep m as ++ as.drop (piece sep m as).length = as := by
  exact (List.prefix_append_drop (piece_isPrefix m as)).symm

theorem piece_ne_nil {m : ℕ} (hm : 0 < m) {as : List α} (h : as ≠ []) : piece sep m as ≠ [] := by
  cases as with
  | nil => exact absurd rfl h
  | cons a as =>
    rw [piece, line]
    split_ifs
    · simp [hm.ne']
    · simp [hm.ne']

/-! ## The three ends of a piece -/

section
variable {m : ℕ} {as : List α} (hsep : sep ∉ as)
include hsep

theorem piece_of_sep (hlen : as.length < m) (bs : List α) :
    piece sep m (as ++ sep :: bs) = as ++ [sep] ∧ Ended sep m (as ++ sep :: bs) := by
  have hline : line sep (as ++ sep :: bs) = as ++ [sep] := by
    rw [line_append hsep, line, if_pos rfl]
  constructor
  · rw [piece, hline]
    apply List.take_of_length_le
    rw [List.length_append, List.length_singleton]
    omega
  · obtain ⟨d, rfl⟩ : ∃ d, m = as.length + (d + 1) := ⟨m - as.length - 1, by omega⟩
    left
    rw [List.take_length_add_append, List.take_succ_cons]
    exact List.mem_append_right as List.mem_cons_self

theorem piece_of_end (hlen : as.length < m) : piece sep m as = as ∧ Ended sep m as := by
  have hline : line sep as = as := by
    have := line_append hsep []
    rwa [List.append_nil, line, List.append_nil] at this
  constructor
  · rw [piece, hline]
    exact List.take_of_length_le hlen.le
  · exact .inr hlen

theorem piece_of_full (hlen : as.length = m) (bs : List α) :
    piece sep m (as ++ bs) = as ∧ ¬ Ended sep m (as ++ bs) := by
  constructor
  · rw [piece, line_append hsep, ← hlen, List.take_left]
  · rintro (hmem | hshort)
    · rw [← hlen, List.take_left] at hmem
      exact hsep hmem
    · rw [List.length_append] at hshort
      omega

end

/-! ## The text in pieces -/

theorem pieces_append (m k : ℕ) (as : List α) :
    (pieces sep m k as).1.flatten ++ (pieces sep m k as).2 = as := by
  induction k generalizing as with
  | zero => rfl
  | succ k ih =>
    rw [pieces, List.flatten_cons, List.append_assoc, ih]
    exact piece_append_drop m as

theorem pieces_rest {m k : ℕ} (hm : 0 < m) {as : List α} (h : as.length ≤ k) :
    (pieces sep m k as).2 = [] := by
  induction k generalizing as with
  | zero => exact List.eq_nil_of_length_eq_zero (Nat.le_zero.mp h)
  | succ k ih =>
    apply ih
    rw [List.length_drop]
    rcases eq_or_ne as [] with rfl | hne
    · rw [List.length_nil, Nat.zero_sub]
      exact Nat.zero_le k
    · have hpiece : piece sep m as ≠ [] := piece_ne_nil hm hne
      have hpos := List.length_pos_iff.mpr hpiece
      omega

end NetworkPrograms.Lines
