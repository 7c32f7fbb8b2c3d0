import Mathlib.Data.List.Sort
import Mathlib.Order.Defs.LinearOrder

/-!
# Ordered sets

A finite set over a linear order that is walked in ascending order, with
positions for iterators: position `i` is the `i`-th element and the length is
the end. The lower bound of a value is the position of the first element that
is not less than it.
-/
namespace NetworkPrograms.Foundations

variable {α : Type*} [LinearOrder α]

/-- A finite set as the list of its elements in ascending order, each once. -/
structure OrderedSet (α : Type*) [LinearOrder α] where
  toList : List α
  sorted : toList.Pairwise (· < ·)

/-- In an ascending list the elements before the first that is at least `x`
are those less than `x`. -/
theorem mem_take_findIdx_le {l : List α} (hl : l.Pairwise (· < ·)) (x a : α) :
    a ∈ l.take (l.findIdx (x ≤ ·)) ↔ a ∈ l ∧ a < x := by
  induction l with
  | nil => simp
  | cons b l ih =>
    rw [List.pairwise_cons] at hl
    rw [List.findIdx_cons, List.mem_cons]
    by_cases hb : x ≤ b
    · simp only [hb, decide_true, cond_true, List.take_zero, List.not_mem_nil, false_iff]
      rintro ⟨rfl | ha, hax⟩
      · exact not_lt.mpr hb hax
      · exact not_lt.mpr hb ((hl.1 a ha).trans hax)
    · simp only [hb, decide_false, cond_false, List.take_succ_cons, List.mem_cons]
      rw [ih hl.2]
      constructor
      · rintro (rfl | ⟨ha, hax⟩)
        · exact ⟨.inl rfl, not_le.mp hb⟩
        · exact ⟨.inr ha, hax⟩
      · rintro ⟨rfl | ha, hax⟩
        · exact .inl rfl
        · exact .inr ⟨ha, hax⟩

theorem getElem?_findIdx_le {l : List α} (hl : l.Pairwise (· < ·)) {x : α} (hx : x ∈ l) :
    l[l.findIdx (x ≤ ·)]? = some x := by
  induction l with
  | nil => cases hx
  | cons b l ih =>
    rw [List.pairwise_cons] at hl
    rw [List.findIdx_cons]
    rcases List.mem_cons.mp hx with rfl | hx
    · simp
    · have hb : ¬ x ≤ b := not_le.mpr (hl.1 x hx)
      simpa [hb] using ih hl.2 hx

namespace OrderedSet

instance : Membership α (OrderedSet α) := ⟨fun s a => a ∈ s.toList⟩

/-- The element at a position, none at the end. -/
def at? (s : OrderedSet α) (i : ℕ) : Option α := s.toList[i]?

/-- The elements from the beginning up to a position. -/
def upTo (s : OrderedSet α) (i : ℕ) : List α := s.toList.take i

/-- The position of the first element that is not less than the value. -/
def lowerBound (s : OrderedSet α) (x : α) : ℕ := s.toList.findIdx (x ≤ ·)

variable (s : OrderedSet α)

theorem upTo_sorted (i : ℕ) : (s.upTo i).Pairwise (· < ·) :=
  s.sorted.sublist (List.take_sublist i s.toList)

theorem mem_upTo_lowerBound {x a : α} : a ∈ s.upTo (s.lowerBound x) ↔ a ∈ s ∧ a < x :=
  mem_take_findIdx_le s.sorted x a

theorem at?_lowerBound {x a : α} (h : s.at? (s.lowerBound x) = some a) : a ∈ s ∧ x ≤ a := by
  obtain ⟨hlt, ha⟩ := List.getElem?_eq_some_iff.mp h
  have hle : decide (x ≤ s.toList[s.lowerBound x]) = true := List.findIdx_getElem (w := hlt)
  rw [ha] at hle
  exact ⟨List.mem_of_getElem? h, of_decide_eq_true hle⟩

theorem at?_lowerBound_of_mem {x : α} (hx : x ∈ s) : s.at? (s.lowerBound x) = some x :=
  getElem?_findIdx_le s.sorted hx

end OrderedSet

end NetworkPrograms.Foundations
