import Mathlib.Tactic
import Mathlib.Algebra.BigOperators.Fin

/-!
# Totals over a finite family

Each member of a family is in a state, and each state counts for a number. When one member
changes its state, the total changes by the two numbers. For the members of a list, the states
that count are those with a property.
-/
namespace NetworkPrograms.Census

open Function

variable {α β : Type*}

section

variable [Fintype α]

/-- What the members of the family count for together. -/
def total (g : β → ℕ) (f : α → β) : ℕ := ∑ a, g (f a)

variable {g : β → ℕ} {f : α → β}

theorem total_update [DecidableEq α] (g : β → ℕ) (f : α → β) (a : α) (b : β) :
    total g (update f a b) + g (f a) = total g f + g b := by
  have hnew := Finset.add_sum_erase Finset.univ (fun i => g (update f a b i)) (Finset.mem_univ a)
  have hold := Finset.add_sum_erase Finset.univ (fun i => g (f i)) (Finset.mem_univ a)
  have hsame : ∑ i ∈ Finset.univ.erase a, g (update f a b i) =
      ∑ i ∈ Finset.univ.erase a, g (f i) := by
    apply Finset.sum_congr rfl
    intro i hi
    rw [update_of_ne (Finset.ne_of_mem_erase hi)]
  simp only [update_self] at hnew
  unfold total
  omega

theorem total_lt {f' : α → β} (hle : ∀ a, g (f a) ≤ g (f' a)) {a : α} (hlt : g (f a) < g (f' a)) :
    total g f < total g f' :=
  Finset.sum_lt_sum (fun a _ => hle a) ⟨a, Finset.mem_univ a, hlt⟩

end

/-! ## Counting the members of a list -/

section

variable {p : β → Bool} {f : β → β} {l : List β} {i : ℕ}

theorem countP_modify_le (h : ∀ b, l[i]? = some b → p (f b) = true → p b = true) :
    (l.modify i f).countP p ≤ l.countP p := by
  induction l generalizing i with
  | nil => simp
  | cons b l ih =>
    cases i with
    | zero =>
      have hb := h b rfl
      simp only [List.modify_zero_cons, List.countP_cons]
      split_ifs <;> simp_all
    | succ i =>
      simp only [List.modify_succ_cons, List.countP_cons]
      exact Nat.add_le_add_right (ih h) _

theorem countP_modify_lt {b : β} (hb : l[i]? = some b) (hp : p b = true) (hf : p (f b) = false) :
    (l.modify i f).countP p < l.countP p := by
  induction l generalizing i with
  | nil => cases hb
  | cons c l ih =>
    cases i with
    | zero =>
      cases hb
      simp [List.modify_zero_cons, hp, hf]
    | succ i =>
      simp only [List.modify_succ_cons, List.countP_cons]
      exact Nat.add_lt_add_right (ih hb) _

end

end NetworkPrograms.Census
