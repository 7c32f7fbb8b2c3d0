import NetworkPrograms.Foundations.Interleaving
import NetworkPrograms.Foundations.Runs

/-!
# Who owns the mutex

`Mutexlock` and `Condition` of `test5.hpp`. The mutex records its owner in
`holder_`, which `lock` sets after it has got the mutex and `unlock` clears before
it gives the mutex back. `wait` gives the mutex away and takes it again inside
`pthread_cond_wait`, without a word to `holder_`.

Any number of threads run in any interleaving. Each of `lock`, `unlock` and `wait`
is two steps, so that other threads may act in between.
-/
namespace NetworkPrograms.Threads

open Function

/-- Where a thread is: outside; in `lock` with the mutex but not yet in `holder_`;
the owner; in `unlock` with `holder_` cleared; blocked in `wait`; woken up in `wait`
and in need of the mutex. -/
inductive Phase where
  | outside
  | locking
  | owning
  | unlocking
  | waiting
  | signalled
  deriving DecidableEq

/-- The thread has the pthread mutex. -/
def Phase.inside : Phase → Bool
  | .locking | .owning | .unlocking => true
  | _ => false

/-- The thread that has the pthread mutex, and what the threads are doing. -/
structure Mutexlock (τ : Type*) where
  mutex_ : Option τ := none
  holder_ : ℤ := 0
  phase : τ → Phase := fun _ => .outside

/-- The steps of the threads. `notify` wakes the threads that the system chooses;
it may wake some that nobody meant to. -/
inductive Call (τ : Type*) where
  | lock (t : τ)
  | lockReturns (t : τ)
  | unlock (t : τ)
  | unlockReturns (t : τ)
  | wait (t : τ)
  | waitReturns (t : τ)
  | notify (woken : τ → Bool)
  | notifyAll

namespace Mutexlock

variable {τ : Type*}

section Model

variable [DecidableEq τ] (gettid : τ → ℤ)

def isLockedByThisThread (s : Mutexlock τ) (t : τ) : Bool := s.holder_ = gettid t

/-- `lock` is `pthread_mutex_lock` and then the assignment to `holder_`, `unlock`
the other way round. `wait` gives the mutex away and returns with it. -/
def next (s : Mutexlock τ) : Call τ → Mutexlock τ
  | .lock t => { s with mutex_ := some t, phase := update s.phase t .locking }
  | .lockReturns t => { s with holder_ := gettid t, phase := update s.phase t .owning }
  | .unlock t => { s with holder_ := 0, phase := update s.phase t .unlocking }
  | .unlockReturns t => { s with mutex_ := none, phase := update s.phase t .outside }
  | .wait t => { s with mutex_ := none, phase := update s.phase t .waiting }
  | .waitReturns t => { s with mutex_ := some t, phase := update s.phase t .owning }
  | .notify woken => { s with
      phase := fun t => if s.phase t = .waiting ∧ woken t then .signalled else s.phase t }
  | .notifyAll => { s with
      phase := fun t => if s.phase t = .waiting then .signalled else s.phase t }

def step (s : Mutexlock τ) (c : Call τ) : Except Empty (Mutexlock τ) := .ok (s.next gettid c)

/-- The mutex is taken when it is free; `unlock` and `wait` are called by the owner. -/
def Enabled (s : Mutexlock τ) : Call τ → Prop
  | .lock t => s.phase t = .outside ∧ s.mutex_ = none
  | .lockReturns t => s.phase t = .locking
  | .unlock t => s.phase t = .owning
  | .unlockReturns t => s.phase t = .unlocking
  | .wait t => s.phase t = .owning
  | .waitReturns t => s.phase t = .signalled ∧ s.mutex_ = none
  | .notify _ => True
  | .notifyAll => True

instance (s : Mutexlock τ) : DecidablePred s.Enabled
  | .lock _ => inferInstanceAs (Decidable (_ ∧ _))
  | .lockReturns _ => inferInstanceAs (Decidable (_ = _))
  | .unlock _ => inferInstanceAs (Decidable (_ = _))
  | .unlockReturns _ => inferInstanceAs (Decidable (_ = _))
  | .wait _ => inferInstanceAs (Decidable (_ = _))
  | .waitReturns _ => inferInstanceAs (Decidable (_ ∧ _))
  | .notify _ => isTrue trivial
  | .notifyAll => isTrue trivial

/-- A thread that has returned from `lock` or `wait` sees itself as the owner, and no
other thread does. -/
def OwnerSees (s : Mutexlock τ) : Prop :=
  ∀ t, s.phase t = .owning →
    s.isLockedByThisThread gettid t = true ∧
      ∀ u, u ≠ t → s.isLockedByThisThread gettid u = false

/-- And without an owner `holder_` is 0. -/
def Tracked (s : Mutexlock τ) : Prop :=
  s.OwnerSees gettid ∧ (s.mutex_ = none → s.holder_ = 0)

end Model

/-! ## One thread at a time -/

variable {gettid : τ → ℤ} {s : Mutexlock τ}

/-- The mutex is with the thread whose phase says so. -/
abbrev Exclusive (s : Mutexlock τ) : Prop :=
  Interleaving.Exclusive s.mutex_ fun u => (s.phase u).inside = true

theorem exclusive_init : Exclusive ({} : Mutexlock τ) := by
  intro u
  simp [Phase.inside]

theorem inside_of_owning {t : τ} (h : s.phase t = .owning) : (s.phase t).inside = true := by
  rw [h]
  rfl

theorem ownerSees_iff (hinj : Injective gettid) :
    s.OwnerSees gettid ↔ ∀ t, s.phase t = .owning → s.holder_ = gettid t := by
  constructor
  · intro h t ht
    exact of_decide_eq_true (h t ht).1
  · intro h t ht
    refine ⟨decide_eq_true (h t ht), ?_⟩
    intro u hut
    apply decide_eq_false
    rw [h t ht]
    exact fun heq => hut (hinj heq.symm)

/-- While no thread waits for the condition, `holder_` is the owner or 0. -/
structure Settled (gettid : τ → ℤ) (s : Mutexlock τ) : Prop where
  exclusive : s.Exclusive
  own : ∀ t, s.phase t = .owning → s.holder_ = gettid t
  owned : s.holder_ ≠ 0 → ∃ t, s.phase t = .owning
  nobody : ∀ t, s.phase t ≠ .waiting ∧ s.phase t ≠ .signalled

theorem settled_init : Settled gettid {} where
  exclusive := exclusive_init
  own := by simp
  owned := by simp
  nobody := by simp

theorem Settled.tracked (h : s.Settled gettid) (hinj : Injective gettid) : s.Tracked gettid := by
  refine ⟨(ownerSees_iff hinj).mpr h.own, ?_⟩
  intro hfree
  by_contra hne
  obtain ⟨t, ht⟩ := h.owned hne
  have hsome := (h.exclusive t).mpr (inside_of_owning ht)
  rw [hfree] at hsome
  cases hsome

/-- A woken thread was waiting. -/
theorem wake_cases (p : Phase) (q : Prop) [Decidable q] :
    (if p = .waiting ∧ q then .signalled else p) = p ∨
      p = .waiting ∧ (if p = .waiting ∧ q then .signalled else p) = .signalled := by
  split_ifs with hp
  · exact .inr ⟨hp.1, rfl⟩
  · exact .inl rfl

theorem Exclusive.wake (h : s.Exclusive) {phase : τ → Phase}
    (hphase : ∀ t, phase t = s.phase t ∨ s.phase t = .waiting ∧ phase t = .signalled) :
    Exclusive { s with phase := phase } := by
  apply Interleaving.Exclusive.stay h
  intro u
  rcases hphase u with hu | ⟨hw, hu⟩
  · simp only [hu]
  · simp only [hu, hw, Phase.inside]

/-! ## The steps -/

variable [DecidableEq τ]

theorem inside_update (phase : τ → Phase) (t : τ) (p : Phase) (u : τ) (hut : u ≠ t) :
    (update phase t p u).inside = true ↔ (phase u).inside = true := by
  rw [update_of_ne hut]

theorem Exclusive.enter (h : s.Exclusive) (hfree : s.mutex_ = none) (t : τ) {p : Phase}
    (hp : p.inside = true) :
    Exclusive { s with mutex_ := some t, phase := update s.phase t p } := by
  rw [Exclusive, hfree] at h
  exact Interleaving.Exclusive.enter h (by simpa using hp) (inside_update s.phase t p)

theorem Exclusive.leave (h : s.Exclusive) {t : τ} (ht : (s.phase t).inside = true) {p : Phase}
    (hp : p.inside = false) :
    Exclusive { s with mutex_ := none, phase := update s.phase t p } :=
  Interleaving.Exclusive.leave h ht (by simpa using hp) (inside_update s.phase t p)

theorem Exclusive.stay (h : s.Exclusive) {t : τ} (ht : (s.phase t).inside = true) {p : Phase}
    (hp : p.inside = true) (holder : ℤ) :
    Exclusive { s with holder_ := holder, phase := update s.phase t p } := by
  apply Interleaving.Exclusive.stay h
  intro u
  by_cases hut : u = t
  · simp [hut, hp, ht]
  · exact inside_update s.phase t p u hut

theorem notifyAll_eq (s : Mutexlock τ) :
    s.next gettid .notifyAll = s.next gettid (.notify fun _ => true) := by
  simp [next]

theorem Exclusive.next (h : s.Exclusive) {c : Call τ} (hc : s.Enabled c) :
    (s.next gettid c).Exclusive := by
  cases c with
  | lock t => exact h.enter hc.2 t rfl
  | lockReturns t => exact h.stay (by rw [show s.phase t = _ from hc]; rfl) rfl _
  | unlock t => exact h.stay (by rw [show s.phase t = _ from hc]; rfl) rfl _
  | unlockReturns t => exact h.leave (by rw [show s.phase t = _ from hc]; rfl) rfl
  | wait t => exact h.leave (by rw [show s.phase t = _ from hc]; rfl) rfl
  | waitReturns t => exact h.enter hc.2 t rfl
  | notify woken => exact h.wake fun t => wake_cases (s.phase t) _
  | notifyAll =>
    rw [notifyAll_eq]
    exact h.wake fun t => wake_cases (s.phase t) _

theorem owning_of_update {t u : τ} {p : Phase} (hp : p ≠ .owning)
    (hu : update s.phase t p u = .owning) : u ≠ t ∧ s.phase u = .owning := by
  by_cases hut : u = t
  · rw [hut, update_self] at hu
    exact absurd hu hp
  · rw [update_of_ne hut] at hu
    exact ⟨hut, hu⟩

/-- The owner is in `holder_`, as long as every return from `wait` finds its own
thread there. -/
theorem Exclusive.holder_next (h : s.Exclusive)
    (hown : ∀ t, s.phase t = .owning → s.holder_ = gettid t) {c : Call τ} (hc : s.Enabled c)
    (hret : ∀ t, c = .waitReturns t → s.holder_ = gettid t) :
    ∀ u, (s.next gettid c).phase u = .owning → (s.next gettid c).holder_ = gettid u := by
  intro u hu
  cases c with
  | lock t => exact hown u (owning_of_update (by decide) hu).2
  | lockReturns t =>
    by_cases hut : u = t
    · rw [hut]
      rfl
    · have hold : s.phase u = .owning := (update_of_ne hut _ _).symm.trans hu
      have hin : (s.phase t).inside = true := by
        rw [show s.phase t = _ from hc]
        rfl
      exact absurd (Interleaving.Exclusive.eq h (inside_of_owning hold) hin) hut
  | unlock t =>
    obtain ⟨hut, hold⟩ := owning_of_update (by decide) hu
    exact absurd (Interleaving.Exclusive.eq h (inside_of_owning hold) (inside_of_owning hc)) hut
  | unlockReturns t => exact hown u (owning_of_update (by decide) hu).2
  | wait t => exact hown u (owning_of_update (by decide) hu).2
  | waitReturns t =>
    by_cases hut : u = t
    · rw [hut]
      exact hret t rfl
    · exact hown u ((update_of_ne hut _ _).symm.trans hu)
  | notify woken =>
    rcases wake_cases (s.phase u) (woken u = true) with hsame | ⟨-, hsig⟩
    · exact hown u (hsame.symm.trans hu)
    · cases hsig.symm.trans hu
  | notifyAll =>
    rw [notifyAll_eq] at hu
    rcases wake_cases (s.phase u) (true = true) with hsame | ⟨-, hsig⟩
    · exact hown u (hsame.symm.trans hu)
    · cases hsig.symm.trans hu

/-- The phase of one thread changes, to something else than waiting, and the thread
was not the owner. -/
theorem Settled.owned_update (h : s.Settled gettid) {t : τ} (ht : s.phase t ≠ .owning)
    (p : Phase) (hne : s.holder_ ≠ 0) : ∃ u, update s.phase t p u = .owning := by
  obtain ⟨u, hu⟩ := h.owned hne
  have hut : u ≠ t := by
    rintro rfl
    exact ht hu
  exact ⟨u, by rw [update_of_ne hut, hu]⟩

theorem Settled.nobody_update (h : s.Settled gettid) (t : τ) {p : Phase}
    (hp : p ≠ .waiting ∧ p ≠ .signalled) (u : τ) :
    update s.phase t p u ≠ .waiting ∧ update s.phase t p u ≠ .signalled := by
  by_cases hut : u = t
  · rw [hut, update_self]
    exact hp
  · rw [update_of_ne hut]
    exact h.nobody u

theorem Settled.notify_eq (h : s.Settled gettid) (woken : τ → Bool) :
    s.next gettid (.notify woken) = s := by
  simp [next, (h.nobody _).1]

theorem Settled.next (h : s.Settled gettid) {c : Call τ} (hc : s.Enabled c)
    (hwait : ∀ t, c ≠ .wait t) : (s.next gettid c).Settled gettid := by
  have hown := h.exclusive.holder_next h.own hc (by
    rintro t rfl
    exact absurd hc.1 (h.nobody t).2)
  have hex : (s.next gettid c).Exclusive := h.exclusive.next hc
  cases c with
  | lock t =>
    have ht : s.phase t ≠ .owning := by
      rw [hc.1]
      decide
    exact ⟨hex, hown, h.owned_update ht _, h.nobody_update t (by decide)⟩
  | lockReturns t =>
    exact ⟨hex, hown, fun _ => ⟨t, update_self _ _ _⟩, h.nobody_update t (by decide)⟩
  | unlock t => exact ⟨hex, hown, fun hne => absurd rfl hne, h.nobody_update t (by decide)⟩
  | unlockReturns t =>
    have ht : s.phase t ≠ .owning := by
      rw [show s.phase t = _ from hc]
      decide
    exact ⟨hex, hown, h.owned_update ht _, h.nobody_update t (by decide)⟩
  | wait t => exact absurd rfl (hwait t)
  | waitReturns t => exact absurd hc.1 (h.nobody t).2
  | notify woken =>
    rw [h.notify_eq]
    exact h
  | notifyAll =>
    rw [notifyAll_eq, h.notify_eq]
    exact h

/-- For any number of threads and any interleaving. The owner is tracked at every
moment exactly when no thread ever calls `wait`: a call leaves the caller in `holder_`
while nobody has the mutex. The owner itself sees its ownership, and nobody else does,
exactly when every return from `wait` still finds its own thread in `holder_`. -/
theorem tracked_iff (hinj : Injective gettid) (hpos : ∀ t, gettid t ≠ 0) (calls : List (Call τ))
    (h : Runs.Admissible (step gettid) Enabled {} calls) :
    ((∀ pre, pre <+: calls → ∃ s, Runs.run (step gettid) {} pre = .ok s ∧ s.Tracked gettid) ↔
      ∀ t, .wait t ∉ calls) ∧
    ((∀ pre, pre <+: calls → ∃ s, Runs.run (step gettid) {} pre = .ok s ∧ s.OwnerSees gettid) ↔
      Runs.Admissible (step gettid)
        (fun s c => ∀ t, c = .waitReturns t → s.holder_ = gettid t) {} calls) := by
  constructor
  · have hmem : (∀ t, .wait t ∉ calls) ↔
        Runs.Admissible (step gettid) (fun _ c => ∀ t, c ≠ .wait t) {} calls := by
      have hstep : ∀ s c, ∃ t, step gettid s c = .ok t := fun s c => ⟨_, rfl⟩
      rw [Runs.admissible_iff_forall_mem hstep]
      constructor
      · rintro hno c hc t rfl
        exact hno t hc
      · intro hno t ht
        exact hno _ ht t rfl
    rw [hmem]
    apply Runs.forall_isPrefix_iff_admissible (Settled gettid) (Tracked gettid)
      (fun s hs => hs.tracked hinj) _ settled_init h
    intro s c hs hc
    refine ⟨_, rfl, fun hwait => hs.next hc hwait, ?_⟩
    intro hwait htracked
    simp only [not_forall, not_not] at hwait
    obtain ⟨t, rfl⟩ := hwait
    have hzero : s.holder_ = 0 := htracked.2 rfl
    rw [hs.own t hc] at hzero
    exact hpos t hzero
  · apply Runs.forall_isPrefix_iff_admissible
      (fun s => s.Exclusive ∧ ∀ t, s.phase t = .owning → s.holder_ = gettid t) (OwnerSees gettid)
      (fun s hs => (ownerSees_iff hinj).mpr hs.2) _ ⟨exclusive_init, by simp⟩ h
    rintro s c ⟨hex, hown⟩ hc
    refine ⟨_, rfl, fun hret => ⟨hex.next hc, hex.holder_next hown hc hret⟩, ?_⟩
    intro hret hsees
    simp only [not_forall] at hret
    obtain ⟨t, rfl, hne⟩ := hret
    exact hne ((ownerSees_iff hinj).mp hsees t (update_self _ _ _))

/-- Two threads that lock and unlock in turn. -/
theorem tracked_iff_two_threads :
    ∃ s, Runs.run (step fun t : ℕ => (t : ℤ) + 1) {} [.lock 0, .lockReturns 0, .unlock 0,
        .unlockReturns 0, .lock 1, .lockReturns 1] = .ok s ∧
      s.Tracked fun t : ℕ => (t : ℤ) + 1 := by
  have hinj : Injective fun t : ℕ => (t : ℤ) + 1 := by
    intro t u htu
    simpa using htu
  have hpos : ∀ t : ℕ, (t : ℤ) + 1 ≠ 0 := by
    intro t
    positivity
  exact (tracked_iff hinj hpos _ (by decide)).1.mpr (by simp) _ List.prefix_rfl

/-- A waiting thread gets the mutex back after another one has locked and unlocked it:
`assertLocked` fails for the owner. -/
theorem owner_not_recorded_after_wait :
    ¬ ∀ calls : List (Call ℕ), Runs.Admissible (step fun t : ℕ => (t : ℤ) + 1) Enabled {} calls →
      ∀ pre, pre <+: calls → ∃ s, Runs.run (step fun t : ℕ => (t : ℤ) + 1) {} pre = .ok s ∧
        ∀ t, s.phase t = .owning → s.isLockedByThisThread (fun t : ℕ => (t : ℤ) + 1) t = true := by
  intro h
  obtain ⟨s, hrun, hs⟩ := h [.lock 0, .lockReturns 0, .wait 0, .lock 1, .lockReturns 1, .notifyAll,
    .unlock 1, .unlockReturns 1, .waitReturns 0] (by decide) _ List.prefix_rfl
  cases hrun
  exact absurd (hs 0 (by decide)) (by decide)

end Mutexlock
end NetworkPrograms.Threads
