import Mathlib.Tactic

/-!
# Ring buffers

A queue kept in the cells of an array, from one index up to another, both of which
start again at 0 when they come to the end. The indices alone do not say whether the
array is full or empty.
-/
namespace NetworkPrograms.RingBuffer

open Function

variable {α : Type*}

/-- The index that follows `i` in an array of `n` cells. -/
def next (n i : ℕ) : ℕ := if i + 1 ≥ n then 0 else i + 1

theorem next_eq_mod {n i : ℕ} (h : i < n) : next n i = (i + 1) % n := by
  unfold next
  split_ifs with hend
  · rw [show i + 1 = n by omega, Nat.mod_self]
  · exact (Nat.mod_eq_of_lt (by omega)).symm

theorem next_lt {n i : ℕ} (h : i < n) : next n i < n := by
  rw [next_eq_mod h]
  exact Nat.mod_lt _ (by omega)

theorem index_ne {n i j : ℕ} (start : ℕ) (hij : i < j) (hj : j < n) :
    (start + i) % n ≠ (start + j) % n := by
  intro heq
  have hdvd : n ∣ start + j - (start + i) :=
    Nat.dvd_of_mod_eq_zero (Nat.sub_mod_eq_zero_of_mod_eq heq.symm)
  have hle := Nat.le_of_dvd (by omega) hdvd
  omega

/-- The elements of the `count` cells from `iget` on. -/
def contents (n : ℕ) (cell : ℕ → α) (iget count : ℕ) : List α :=
  (List.range count).map fun i => cell ((iget + i) % n)

/-- The cells from `iget` up to `iput` hold the elements of a list. -/
structure Holds (n : ℕ) (cell : ℕ → α) (iget iput : ℕ) (xs : List α) : Prop where
  iget_lt : iget < n
  length_le : xs.length ≤ n
  iput_eq : iput = (iget + xs.length) % n
  cells : ∀ i (h : i < xs.length), cell ((iget + i) % n) = xs[i]

namespace Holds

variable {n : ℕ} {cell : ℕ → α} {iget iput : ℕ} {xs : List α} {x : α}

theorem empty {start : ℕ} (h : start < n) (cell : ℕ → α) : Holds n cell start start [] where
  iget_lt := h
  length_le := Nat.zero_le n
  iput_eq := (Nat.mod_eq_of_lt h).symm
  cells := by simp

theorem iput_lt (h : Holds n cell iget iput xs) : iput < n := by
  rw [h.iput_eq]
  exact Nat.mod_lt _ (by have := h.iget_lt; omega)

theorem iput_eq_iget_iff (h : Holds n cell iget iput xs) :
    iput = iget ↔ xs = [] ∨ xs.length = n := by
  constructor
  · intro heq
    by_contra hne
    obtain ⟨hnil, hfull⟩ := not_or.mp hne
    have hpos := List.length_pos_iff.mpr hnil
    have hle := h.length_le
    apply index_ne iget hpos (show xs.length < n by omega)
    rw [add_zero, Nat.mod_eq_of_lt h.iget_lt, ← h.iput_eq, heq]
  · intro hor
    rw [h.iput_eq]
    rcases hor with hnil | hfull
    · simp [hnil, Nat.mod_eq_of_lt h.iget_lt]
    · simp [hfull, Nat.mod_eq_of_lt h.iget_lt]

theorem length_eq (h : Holds n cell iget iput xs) (hroom : xs.length < n) :
    xs.length = (iput + n - iget) % n := by
  have hlt := h.iget_lt
  have hput := h.iput_eq
  by_cases hwrap : iget + xs.length < n
  · rw [Nat.mod_eq_of_lt hwrap] at hput
    rw [hput, show iget + xs.length + n - iget = xs.length + n by omega, Nat.add_mod_right,
      Nat.mod_eq_of_lt hroom]
  · rw [Nat.mod_eq_sub_mod (not_lt.mp hwrap), Nat.mod_eq_of_lt (by omega)] at hput
    rw [hput, show iget + xs.length - n + n - iget = xs.length by omega, Nat.mod_eq_of_lt hroom]

theorem put (h : Holds n cell iget iput xs) (hroom : xs.length < n) (x : α) :
    Holds n (update cell iput x) iget (next n iput) (xs ++ [x]) where
  iget_lt := h.iget_lt
  length_le := by simpa using hroom
  iput_eq := by
    rw [next_eq_mod h.iput_lt, h.iput_eq, Nat.mod_add_mod, List.length_append,
      List.length_singleton, add_assoc]
  cells := by
    intro i hi
    rw [List.length_append, List.length_singleton] at hi
    rw [h.iput_eq]
    by_cases hlast : i = xs.length
    · subst hlast
      simp
    · have hlt : i < xs.length := by omega
      rw [update_of_ne (index_ne iget hlt hroom), h.cells i hlt, List.getElem_append_left hlt]

theorem scratch (h : Holds n cell iget iput xs) (hroom : xs.length < n) (x : α) :
    Holds n (update cell iput x) iget iput xs where
  iget_lt := h.iget_lt
  length_le := h.length_le
  iput_eq := h.iput_eq
  cells := by
    intro i hi
    rw [h.iput_eq, update_of_ne (index_ne iget hi hroom), h.cells i hi]

theorem head (h : Holds n cell iget iput (x :: xs)) : cell iget = x := by
  have hcell := h.cells 0 (by simp)
  rwa [add_zero, Nat.mod_eq_of_lt h.iget_lt] at hcell

theorem get (h : Holds n cell iget iput (x :: xs)) :
    Holds n cell (next n iget) iput xs where
  iget_lt := next_lt h.iget_lt
  length_le := (Nat.le_succ _).trans h.length_le
  iput_eq := by
    rw [next_eq_mod h.iget_lt, h.iput_eq, Nat.mod_add_mod, List.length_cons, add_assoc,
      add_comm 1]
  cells := by
    intro i hi
    rw [next_eq_mod h.iget_lt, Nat.mod_add_mod, add_assoc, add_comm 1,
      h.cells (i + 1) (by simpa using hi), List.getElem_cons_succ]

end Holds

end NetworkPrograms.RingBuffer
