import Mathlib.Tactic

/-!
# Interleavings and locks

A machine whose inputs are the steps of several threads: the list of inputs is the
interleaving, and a step is taken where it is enabled. A lock is exclusive when its owner
is the one thread that is inside.
-/
namespace NetworkPrograms.Interleaving

variable {σ ι τ : Type*}

/-- The states that a machine comes to from a first one, when every step is enabled where it
is taken. -/
inductive Reachable (next : σ → ι → σ) (enabled : σ → ι → Prop) (init : σ) : σ → Prop
  | init : Reachable next enabled init init
  | step {s : σ} (i : ι) : Reachable next enabled init s → enabled s i →
      Reachable next enabled init (next s i)

/-- What holds at first and is kept by every enabled step holds in every reachable state. -/
theorem Reachable.invariant {next : σ → ι → σ} {enabled : σ → ι → Prop} {init s : σ}
    (h : Reachable next enabled init s) (inv : σ → Prop) (hinit : inv init)
    (hstep : ∀ s i, inv s → enabled s i → inv (next s i)) : inv s := by
  induction h with
  | init => exact hinit
  | step i _ henabled ih => exact hstep _ i ih henabled

def Allowed (next : σ → ι → σ) (enabled : σ → ι → Prop) : σ → List ι → Prop
  | _, [] => True
  | s, i :: is => enabled s i ∧ Allowed next enabled (next s i) is

theorem Reachable.foldl {next : σ → ι → σ} {enabled : σ → ι → Prop} {init s : σ}
    (h : Reachable next enabled init s) (is : List ι) (his : Allowed next enabled s is) :
    Reachable next enabled init (is.foldl next s) := by
  induction is generalizing s with
  | nil => exact h
  | cons i is ih => exact ih (.step i h his.1) his.2

/-- The owner of a lock is the one thread that is inside. -/
def Exclusive (owner : Option τ) (inside : τ → Prop) : Prop := ∀ t, owner = some t ↔ inside t

namespace Exclusive

variable {owner : Option τ} {inside inside' : τ → Prop} {t u : τ}

theorem eq (h : Exclusive owner inside) (ht : inside t) (hu : inside u) : t = u := by
  have hsome := (h t).mpr ht
  rw [(h u).mpr hu] at hsome
  exact (Option.some.inj hsome).symm

theorem enter (h : Exclusive none inside) (ht : inside' t)
    (hothers : ∀ u, u ≠ t → (inside' u ↔ inside u)) : Exclusive (some t) inside' := by
  intro u
  by_cases hut : u = t
  · subst hut
    exact iff_of_true rfl ht
  · rw [hothers u hut, ← h u]
    apply iff_of_false
    · intro heq
      exact hut (Option.some.inj heq).symm
    · simp

theorem leave (h : Exclusive owner inside) (ht : inside t) (hout : ¬ inside' t)
    (hothers : ∀ u, u ≠ t → (inside' u ↔ inside u)) : Exclusive none inside' := by
  intro u
  apply iff_of_false
  · simp
  · intro hu
    by_cases hut : u = t
    · subst hut
      exact hout hu
    · exact hut (h.eq ((hothers u hut).mp hu) ht)

theorem stay (h : Exclusive owner inside) (hsame : ∀ u, inside' u ↔ inside u) :
    Exclusive owner inside' := by
  intro u
  rw [h u, hsame u]

end Exclusive

end NetworkPrograms.Interleaving
