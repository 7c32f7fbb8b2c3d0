import Mathlib.Logic.Function.Basic
import Mathlib.Tactic

/-!
# Two tables that refer to each other

A table of slots says for each slot which key it holds and with which data; a
table of registrations says for each key which slot it belongs to and with
which data. The tables agree when they are the two readings of one relation.
The operations below change both sides at once.
-/
namespace NetworkPrograms.Registry

open Function

variable {ι κ μ : Type*}

/-- Slot `i` holds key `k` with data `m` exactly when `k` is registered for `i`
with `m`. -/
def Agrees (slots : ι → Option (κ × μ)) (keys : κ → Option (ι × μ)) : Prop :=
  ∀ i k m, slots i = some (k, m) ↔ keys k = some (i, m)

variable {slots : ι → Option (κ × μ)} {keys : κ → Option (ι × μ)}

theorem Agrees.slot_unique (h : Agrees slots keys) {i j : ι} {k : κ} {m m' : μ}
    (hi : slots i = some (k, m)) (hj : slots j = some (k, m')) : i = j := by
  have hki := (h i k m).mp hi
  rw [(h j k m').mp hj] at hki
  cases hki
  rfl

theorem Agrees.key_unique (h : Agrees slots keys) {i : ι} {k l : κ} {m m' : μ}
    (hk : keys k = some (i, m)) (hl : keys l = some (i, m')) : k = l := by
  have hik := (h i k m).mpr hk
  rw [(h i l m').mpr hl] at hik
  cases hik
  rfl

variable [DecidableEq ι] [DecidableEq κ]

/-- Give key `k` to slot `i`, when the slot holds no other key and the key
belongs to no other slot. -/
theorem Agrees.bind (h : Agrees slots keys) {i : ι} {k : κ} (m : μ)
    (hi : ∀ l n, slots i = some (l, n) → l = k) (hk : ∀ j n, keys k = some (j, n) → j = i) :
    Agrees (update slots i (some (k, m))) (update keys k (some (i, m))) := by
  intro j l n
  rcases eq_or_ne j i with rfl | hj <;> rcases eq_or_ne l k with rfl | hl
  · simp
  · rw [update_self, update_of_ne hl, ← h]
    refine ⟨fun he => absurd ?_ hl, fun he => absurd (hi l n he) hl⟩
    cases he
    rfl
  · rw [update_of_ne hj, update_self, h]
    refine ⟨fun he => absurd (hk j n he) hj, fun he => absurd ?_ hj⟩
    cases he
    rfl
  · rw [update_of_ne hj, update_of_ne hl, h]

theorem Agrees.release (h : Agrees slots keys) {i : ι} {k : κ} {m : μ}
    (hi : slots i = some (k, m)) : Agrees (update slots i none) (update keys k none) := by
  have hk := (h i k m).mp hi
  intro j l n
  rcases eq_or_ne j i with rfl | hj <;> rcases eq_or_ne l k with rfl | hl
  · simp
  · rw [update_self, update_of_ne hl]
    refine ⟨fun he => (Option.some_ne_none _ he.symm).elim,
      fun he => absurd (h.key_unique he hk) hl⟩
  · rw [update_of_ne hj, update_self]
    refine ⟨fun he => absurd (h.slot_unique he hi) hj,
      fun he => (Option.some_ne_none _ he.symm).elim⟩
  · rw [update_of_ne hj, update_of_ne hl, h]

end NetworkPrograms.Registry
