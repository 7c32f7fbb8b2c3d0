import Mathlib.Tactic

/-!
# Runs of a state machine that may fault

A machine takes one input at a time and either moves to a new state or stops
with an error. An admissible run is one in which every input is allowed by a
side condition in the state where it arrives. The invariant rule turns a
statement about one allowed step into a statement about every admissible run.
-/
namespace NetworkPrograms.Runs

variable {σ ι ε : Type*} (step : σ → ι → Except ε σ)

/-- Feed the inputs one after the other. -/
def run : σ → List ι → Except ε σ
  | s, [] => .ok s
  | s, c :: cs => match step s c with
    | .ok t => run t cs
    | .error e => .error e

variable (ok : σ → ι → Prop)

/-- Every input is allowed when it arrives. -/
def Admissible : σ → List ι → Prop
  | _, [] => True
  | s, c :: cs => ok s c ∧ match step s c with
    | .ok t => Admissible t cs
    | .error _ => True

instance Admissible.decidable [∀ s c, Decidable (ok s c)] :
    ∀ (s : σ) (cs : List ι), Decidable (Admissible step ok s cs)
  | _, [] => isTrue trivial
  | s, c :: cs =>
    have : Decidable (match step s c with
        | .ok t => Admissible step ok t cs
        | .error _ => True) :=
      match step s c with
      | .ok t => Admissible.decidable t cs
      | .error _ => isTrue trivial
    inferInstanceAs (Decidable (ok s c ∧ _))

variable {step ok}

@[simp] theorem run_nil (s : σ) : run step s [] = .ok s := rfl

theorem run_cons {s t : σ} {c : ι} (h : step s c = .ok t) (cs : List ι) :
    run step s (c :: cs) = run step t cs := by
  simp [run, h]

theorem Admissible.tail {s t : σ} {c : ι} {cs : List ι} (h : Admissible step ok s (c :: cs))
    (ht : step s c = .ok t) : Admissible step ok t cs := by
  have h2 := h.2
  rw [ht] at h2
  exact h2

theorem Admissible.of_forall (h : ∀ s c, ok s c) (s : σ) (cs : List ι) :
    Admissible step ok s cs := by
  induction cs generalizing s with
  | nil => trivial
  | cons c cs ih =>
    refine ⟨h s c, ?_⟩
    cases step s c with
    | error e => trivial
    | ok t => exact ih t

theorem run_append {s t : σ} {xs ys : List ι} (h : run step s (xs ++ ys) = .ok t) :
    ∃ u, run step s xs = .ok u ∧ run step u ys = .ok t := by
  induction xs generalizing s with
  | nil => exact ⟨s, rfl, h⟩
  | cons x xs ih =>
    cases hx : step s x with
    | ok u =>
      rw [List.cons_append, run_cons hx] at h
      rw [run_cons hx]
      exact ih h
    | error e => simp [run, hx] at h

theorem Admissible.append_right {s u : σ} {xs ys : List ι}
    (h : Admissible step ok s (xs ++ ys)) (hu : run step s xs = .ok u) :
    Admissible step ok u ys := by
  induction xs generalizing s with
  | nil =>
    cases hu
    exact h
  | cons x xs ih =>
    cases hx : step s x with
    | ok t =>
      rw [run_cons hx] at hu
      exact ih (h.tail hx) hu
    | error e => simp [run, hx] at hu

theorem Admissible.of_isPrefix {s : σ} {cs pre : List ι} (h : Admissible step ok s cs)
    (hpre : pre <+: cs) : Admissible step ok s pre := by
  induction cs generalizing s pre with
  | nil =>
    rw [List.prefix_nil.mp hpre]
    trivial
  | cons c cs ih =>
    cases pre with
    | nil => trivial
    | cons d pre =>
      obtain ⟨rfl, htail⟩ := List.cons_prefix_cons.mp hpre
      refine ⟨h.1, ?_⟩
      cases ht : step s d with
      | error e => trivial
      | ok t => exact ih (h.tail ht) htail

/-- An invariant that every allowed step keeps, without a fault, holds at the
end of every admissible run. -/
theorem run_invariant (inv : σ → Prop)
    (hstep : ∀ s c, inv s → ok s c → ∃ t, step s c = .ok t ∧ inv t) {s : σ} (hs : inv s)
    {cs : List ι} (h : Admissible step ok s cs) : ∃ t, run step s cs = .ok t ∧ inv t := by
  induction cs generalizing s with
  | nil => exact ⟨s, rfl, hs⟩
  | cons c cs ih =>
    obtain ⟨t, ht, hinv⟩ := hstep s c hs h.1
    rw [run_cons ht]
    exact ih hinv (h.tail ht)

theorem run_invariant_of_forall (inv : σ → Prop)
    (hstep : ∀ s c, inv s → ∃ t, step s c = .ok t ∧ inv t) {s : σ} (hs : inv s)
    (cs : List ι) : ∃ t, run step s cs = .ok t ∧ inv t := by
  induction cs generalizing s with
  | nil => exact ⟨s, rfl, hs⟩
  | cons c cs ih =>
    obtain ⟨t, ht, hinv⟩ := hstep s c hs
    rw [run_cons ht]
    exact ih hinv

/-- Two machines with the same inputs. A relation that every allowed step of both
keeps, without a fault, holds at the end of every admissible run of the second. -/
theorem run_simulation {τ ε' : Type*} {step' : τ → ι → Except ε' τ} (rel : τ → σ → Prop)
    (hstep : ∀ t s c, rel t s → ok s c →
      ∃ t' s', step' t c = .ok t' ∧ step s c = .ok s' ∧ rel t' s')
    {t : τ} {s : σ} (hs : rel t s) {cs : List ι} (h : Admissible step ok s cs) :
    ∃ t' s', run step' t cs = .ok t' ∧ run step s cs = .ok s' ∧ rel t' s' := by
  induction cs generalizing s t with
  | nil => exact ⟨t, s, rfl, rfl, hs⟩
  | cons c cs ih =>
    obtain ⟨t', s', ht, hs', hrel⟩ := hstep t s c hs h.1
    rw [run_cons ht, run_cons hs']
    exact ih hrel (h.tail hs')

/-- An invariant that every step without an error keeps holds after every run
without an error. -/
theorem run_induction (inv : σ → Prop) (hstep : ∀ s c t, inv s → step s c = .ok t → inv t)
    {s t : σ} (hs : inv s) {cs : List ι} (h : run step s cs = .ok t) : inv t := by
  induction cs generalizing s with
  | nil =>
    cases h
    exact hs
  | cons c cs ih =>
    cases hc : step s c with
    | ok u =>
      rw [run_cons hc] at h
      exact ih (hstep s c u hs hc) h
    | error e => simp [run, hc] at h

theorem Admissible.run_induction (inv : σ → Prop)
    (hstep : ∀ s c t, inv s → ok s c → step s c = .ok t → inv t) {s t : σ} (hs : inv s)
    {cs : List ι} (hadm : Admissible step ok s cs) (h : run step s cs = .ok t) : inv t := by
  induction cs generalizing s with
  | nil =>
    cases h
    exact hs
  | cons c cs ih =>
    cases hc : step s c with
    | ok u =>
      rw [run_cons hc] at h
      exact ih (hstep s c u hs hadm.1 hc) (hadm.tail hc) h
    | error e => simp [run, hc] at h

/-- A side condition that is exactly what a step needs to keep a property. The
property then holds after every part of a run, read from its start, exactly when
every step of the run meets the condition. -/
theorem forall_isPrefix_iff_admissible {base : σ → ι → Prop} (inv P : σ → Prop)
    (hP : ∀ s, inv s → P s)
    (hstep : ∀ s c, inv s → base s c →
      ∃ t, step s c = .ok t ∧ (ok s c → inv t) ∧ (¬ ok s c → ¬ P t))
    {s : σ} (hs : inv s) {cs : List ι} (h : Admissible step base s cs) :
    (∀ pre, pre <+: cs → ∃ t, run step s pre = .ok t ∧ P t) ↔ Admissible step ok s cs := by
  induction cs generalizing s with
  | nil =>
    refine ⟨fun _ => trivial, fun _ pre hpre => ?_⟩
    rw [List.prefix_nil.mp hpre]
    exact ⟨s, rfl, hP s hs⟩
  | cons c cs ih =>
    obtain ⟨t, ht, hkeep, hlose⟩ := hstep s c hs h.1
    by_cases hc : ok s c
    · have hrest := ih (hkeep hc) (h.tail ht)
      constructor
      · intro hall
        refine ⟨hc, ?_⟩
        rw [ht]
        refine hrest.mp fun pre hpre => ?_
        obtain ⟨u, hu, hPu⟩ := hall (c :: pre) ((List.prefix_cons_inj c).mpr hpre)
        exact ⟨u, run_cons ht pre ▸ hu, hPu⟩
      · intro hadm pre hpre
        cases pre with
        | nil => exact ⟨s, rfl, hP s hs⟩
        | cons d pre =>
          obtain ⟨rfl, htail⟩ := List.cons_prefix_cons.mp hpre
          rw [run_cons ht]
          exact hrest.mpr (hadm.tail ht) pre htail
    · refine ⟨fun hall => ?_, fun hadm => absurd hadm.1 hc⟩
      obtain ⟨u, hu, hPu⟩ := hall [c] (by simp)
      rw [run_cons ht, run_nil] at hu
      cases hu
      exact absurd hPu (hlose hc)

/-- Two side conditions that mean the same in every state of an invariant. The
second one is enough to keep the invariant. -/
theorem admissible_congr {base P Q : σ → ι → Prop} (inv : σ → Prop)
    (hiff : ∀ s c, inv s → base s c → (P s c ↔ Q s c))
    (hkeep : ∀ s c t, inv s → base s c → Q s c → step s c = .ok t → inv t) {s : σ} (hs : inv s)
    {cs : List ι} (h : Admissible step base s cs) :
    Admissible step P s cs ↔ Admissible step Q s cs := by
  induction cs generalizing s with
  | nil => exact Iff.rfl
  | cons c cs ih =>
    rw [Admissible, Admissible, hiff s c hs h.1]
    apply and_congr_right
    intro hc
    cases ht : step s c with
    | error e => exact Iff.rfl
    | ok t => exact ih (hkeep s c t hs h.1 hc ht) (h.tail ht)

/-- A side condition that implies another one in every state of an invariant, and keeps the
invariant. -/
theorem Admissible.imp {P Q : σ → ι → Prop} (inv : σ → Prop)
    (himp : ∀ s c, inv s → P s c → Q s c ∧ ∀ t, step s c = .ok t → inv t) {s : σ} (hs : inv s)
    {cs : List ι} (h : Admissible step P s cs) : Admissible step Q s cs := by
  induction cs generalizing s with
  | nil => trivial
  | cons c cs ih =>
    obtain ⟨hq, hkeep⟩ := himp s c hs h.1
    refine ⟨hq, ?_⟩
    cases ht : step s c with
    | error e => trivial
    | ok t => exact ih (hkeep t ht) (h.tail ht)

theorem admissible_iff_forall_mem {p : ι → Prop} (hstep : ∀ s c, ∃ t, step s c = .ok t) {s : σ}
    {cs : List ι} : Admissible step (fun _ c => p c) s cs ↔ ∀ c ∈ cs, p c := by
  induction cs generalizing s with
  | nil => simp [Admissible]
  | cons c cs ih =>
    obtain ⟨t, ht⟩ := hstep s c
    rw [Admissible, ht, List.forall_mem_cons]
    exact and_congr_right fun _ => ih

/-- A property holds in every state of a run exactly when it holds in the first one
and every step leads to a state in which it holds. -/
theorem forall_isPrefix_iff (P : σ → Prop) {s : σ} {cs : List ι} :
    (∀ pre t, pre <+: cs → run step s pre = .ok t → P t) ↔
      P s ∧ Admissible step (fun s c => ∀ t, step s c = .ok t → P t) s cs := by
  induction cs generalizing s with
  | nil =>
    constructor
    · intro h
      exact ⟨h [] s List.prefix_rfl rfl, trivial⟩
    · rintro ⟨hs, -⟩ pre t hpre ht
      rw [List.prefix_nil.mp hpre] at ht
      cases ht
      exact hs
  | cons c cs ih =>
    constructor
    · intro h
      refine ⟨h [] s (List.nil_prefix) rfl, ?_, ?_⟩
      · intro t ht
        exact h [c] t (by simp) (run_cons ht [])
      · cases ht : step s c with
        | error e => trivial
        | ok t =>
          apply (ih.mp ?_).2
          intro pre u hpre hu
          exact h (c :: pre) u ((List.prefix_cons_inj c).mpr hpre) (run_cons ht pre ▸ hu)
    · rintro ⟨hs, hnext, hrest⟩ pre u hpre hu
      cases pre with
      | nil =>
        cases hu
        exact hs
      | cons d pre =>
        obtain ⟨rfl, htail⟩ := List.cons_prefix_cons.mp hpre
        cases ht : step s d with
        | error e => simp [run, ht] at hu
        | ok t =>
          rw [ht] at hrest
          rw [run_cons ht] at hu
          exact ih.mpr ⟨hnext t ht, hrest⟩ pre u htail hu

theorem forall_isPrefix_iff_of_stable (P : σ → Prop)
    (hstable : ∀ s c t, step s c = .ok t → P t → P s) {s t : σ} {cs : List ι}
    (h : run step s cs = .ok t) :
    (∀ pre u, pre <+: cs → run step s pre = .ok u → P u) ↔ P t := by
  constructor
  · intro hall
    exact hall cs t List.prefix_rfl h
  · intro ht
    induction cs generalizing s with
    | nil =>
      cases h
      intro pre u hpre hu
      rw [List.prefix_nil.mp hpre] at hu
      cases hu
      exact ht
    | cons c cs ih =>
      cases hc : step s c with
      | error e => simp [run, hc] at h
      | ok v =>
        rw [run_cons hc] at h
        intro pre u hpre hu
        cases pre with
        | nil =>
          cases hu
          exact hstable s c v hc (ih h [] v List.nil_prefix rfl)
        | cons d pre =>
          obtain ⟨rfl, htail⟩ := List.cons_prefix_cons.mp hpre
          rw [run_cons hc] at hu
          exact ih h pre u htail hu

end NetworkPrograms.Runs
