import Mathlib.Tactic

/-!
# Loops with an explicit body

A `while` loop is given by the function that runs its body once. The body
either asks for another pass or leaves with a result. `run` executes a bounded
number of passes, so a loop that never leaves has no result at any bound.

The rules below are the ones the program proofs use: more passes never change
a result, a loop with an invariant and a decreasing variant returns, also when
some passes are retries that make no progress, and a loop whose body keeps an
invariant without ever leaving returns at no bound.
-/
namespace NetworkPrograms.Loop

/-- The outcome of one pass through a loop body. -/
inductive Pass (σ ρ : Type*) where
  | again (s : σ)
  | leave (r : ρ)

variable {σ ρ : Type*} (body : σ → Pass σ ρ)

/-- At most `fuel` passes, starting in the given state. -/
def run : ℕ → σ → Option ρ
  | 0, _ => none
  | fuel + 1, s =>
    match body s with
    | .again t => run fuel t
    | .leave r => some r

/-- The loop leaves with `r` after finitely many passes. -/
def Returns (s : σ) (r : ρ) : Prop := ∃ fuel, run body fuel s = some r

variable {body}

theorem run_again {s t : σ} (h : body s = .again t) (fuel : ℕ) :
    run body (fuel + 1) s = run body fuel t := by
  simp [run, h]

theorem run_leave {s : σ} {r : ρ} (h : body s = .leave r) (fuel : ℕ) :
    run body (fuel + 1) s = some r := by
  simp [run, h]

theorem run_mono {fuel more : ℕ} {s : σ} {r : ρ} (h : run body fuel s = some r)
    (hle : fuel ≤ more) : run body more s = some r := by
  induction fuel generalizing s more with
  | zero => simp [run] at h
  | succ fuel ih =>
    obtain ⟨more, rfl⟩ : ∃ m, more = m + 1 := ⟨more - 1, by omega⟩
    cases hb : body s with
    | again t =>
      rw [run_again hb] at h ⊢
      exact ih h (by omega)
    | leave r' =>
      rw [run_leave hb] at h ⊢
      exact h

theorem Returns.of_leave {s : σ} {r : ρ} (h : body s = .leave r) : Returns body s r :=
  ⟨1, run_leave h 0⟩

theorem Returns.of_again {s t : σ} {r : ρ} (h : body s = .again t) (ht : Returns body t r) :
    Returns body s r := by
  obtain ⟨fuel, hf⟩ := ht
  exact ⟨fuel + 1, by rw [run_again h, hf]⟩

theorem Returns.unique {s : σ} {r r' : ρ} (h : Returns body s r) (h' : Returns body s r') :
    r = r' := by
  obtain ⟨fuel, hf⟩ := h
  obtain ⟨fuel', hf'⟩ := h'
  have hr := run_mono hf (le_max_left fuel fuel')
  have hr' := run_mono hf' (le_max_right fuel fuel')
  rw [hr] at hr'
  exact Option.some_inj.mp hr'

/-- Total correctness: an invariant whose variant drops at every further pass
brings the loop to a result that satisfies the postcondition, with any bound
above the variant. -/
theorem run_of_variant (body : σ → Pass σ ρ) (inv : σ → Prop) (post : ρ → Prop) (variant : σ → ℕ)
    (hagain : ∀ s t, inv s → body s = .again t → inv t ∧ variant t < variant s)
    (hleave : ∀ s r, inv s → body s = .leave r → post r) :
    ∀ fuel s, inv s → variant s < fuel → ∃ r, run body fuel s = some r ∧ post r := by
  intro fuel
  induction fuel with
  | zero => intro s _ hv; omega
  | succ fuel ih =>
    intro s hs hv
    cases hb : body s with
    | again t =>
      obtain ⟨ht, hlt⟩ := hagain s t hs hb
      rw [run_again hb]
      exact ih t ht (by omega)
    | leave r =>
      exact ⟨r, run_leave hb fuel, hleave s r hs hb⟩

/-- Total correctness with retries, for a body of which `Step` says what a pass can do: a
further pass makes progress, or it makes none and comes closer to the end of the retries. -/
theorem run_of_retries (Step : σ → Pass σ ρ → Prop) (hbody : ∀ s, Step s (body s))
    (inv : σ → Prop) (post : ρ → Prop) (variant retries : σ → ℕ)
    (hagain : ∀ s t, inv s → Step s (.again t) → inv t ∧
      (variant t < variant s ∨ variant t = variant s ∧ retries t < retries s))
    (hleave : ∀ s r, inv s → Step s (.leave r) → post r) {s : σ} (hs : inv s) :
    ∃ N r, (∀ fuel, N ≤ fuel → run body fuel s = some r) ∧ post r := by
  have hreturns : ∃ r, Returns body s r ∧ post r := by
    induction hv : variant s using Nat.strong_induction_on generalizing s with
    | _ v ihv =>
      induction hw : retries s using Nat.strong_induction_on generalizing s with
      | _ w ihw =>
        have hstep := hbody s
        cases hb : body s with
        | leave r =>
          rw [hb] at hstep
          exact ⟨r, .of_leave hb, hleave s r hs hstep⟩
        | again t =>
          rw [hb] at hstep
          obtain ⟨ht, hlt | ⟨heq, hlt⟩⟩ := hagain s t hs hstep
          · obtain ⟨r, hr, hpost⟩ := ihv (variant t) (hv ▸ hlt) ht rfl
            exact ⟨r, .of_again hb hr, hpost⟩
          · obtain ⟨r, hr, hpost⟩ := ihw (retries t) (hw ▸ hlt) ht (heq.trans hv) rfl
            exact ⟨r, .of_again hb hr, hpost⟩
  obtain ⟨r, ⟨N, hN⟩, hpost⟩ := hreturns
  exact ⟨N, r, fun fuel hle => run_mono hN hle, hpost⟩

theorem run_induction (inv : σ → Prop) (post : ρ → Prop)
    (hagain : ∀ s t, inv s → body s = .again t → inv t)
    (hleave : ∀ s r, inv s → body s = .leave r → post r) {fuel : ℕ} {s : σ} {r : ρ} (hs : inv s)
    (h : run body fuel s = some r) : post r := by
  induction fuel generalizing s with
  | zero => simp [run] at h
  | succ fuel ih =>
    cases hb : body s with
    | again t =>
      rw [run_again hb] at h
      exact ih (hagain s t hs hb) h
    | leave r' =>
      rw [run_leave hb] at h
      cases h
      exact hleave s r hs hb

/-- A body that keeps an invariant and never leaves has no result at any bound. -/
theorem not_returns_of_invariant (inv : σ → Prop)
    (hagain : ∀ s, inv s → ∃ t, body s = .again t ∧ inv t) {s : σ} (hs : inv s) (r : ρ) :
    ¬ Returns body s r := by
  rintro ⟨fuel, hf⟩
  induction fuel generalizing s with
  | zero => simp [run] at hf
  | succ fuel ih =>
    obtain ⟨t, hb, ht⟩ := hagain s hs
    rw [run_again hb] at hf
    exact ih ht hf

end NetworkPrograms.Loop
