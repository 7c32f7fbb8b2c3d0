import NetworkPrograms.Foundations.Runs

/-!
# Event loops and threads

`EventLoop.cc` seen from outside: threads create loops, run them, give functors to them and
destroy them. A thread finds its loop through the variable `t_loopInThisThread`. The functions
check their use with `LOG_FATAL` and `assert`, which both end the process. What a loop does
with its channels is a matter of `Poller.cc`; here a turn of the loop is one test of `quit_`,
and the calls that its callbacks make are calls of its thread.
-/
namespace NetworkPrograms.LoopThread

open Function

/-- The members of an `EventLoop` that do not concern its channels. -/
structure EventLoop (τ F : Type*) where
  threadId_ : τ
  looping_ : Bool := false
  quit_ : Bool := false
  pendingFunctors_ : List F := []

/-- How the process can end. -/
inductive Abort where
  | anotherEventloop
  | looping
  | abortNotInLoopThread
  | ownerLoop

/-- What a thread can call. `turn` is the next test of `quit_` in the innermost `loop` that
the thread is in. -/
inductive Call (ℓ F : Type*) where
  | construct (l : ℓ)
  | destruct (l : ℓ)
  | loop (l : ℓ)
  | turn
  | quit (l : ℓ)
  | updatechannel (l : ℓ) (ownerLoop : ℓ)
  | runInLoop (l : ℓ) (cb : F)
  | queueInLoop (l : ℓ) (cb : F)

/-- The living loops, the thread-local variable, the calls of `loop` that a thread is in with
the innermost one first, and the functors that have been called, each with its thread. -/
structure Process (τ ℓ F : Type*) where
  object : ℓ → Option (EventLoop τ F) := fun _ => none
  t_loopInThisThread : τ → Option ℓ := fun _ => none
  inside : τ → List ℓ := fun _ => []
  called : List (τ × ℓ × F) := []

variable {τ ℓ F : Type*}

namespace Process

/-- A function called on an object; there is nothing to call where there is no object. -/
def withObject (s : Process τ ℓ F) (l : ℓ)
    (f : EventLoop τ F → Except Abort (Process τ ℓ F)) : Except Abort (Process τ ℓ F) :=
  match s.object l with
  | none => .ok s
  | some o => f o

theorem withObject_of_some {s s' : Process τ ℓ F} {l : ℓ} {o : EventLoop τ F}
    {f : EventLoop τ F → Except Abort (Process τ ℓ F)} (h : s.object l = some o)
    (hstep : s.withObject l f = .ok s') : f o = .ok s' := by
  rw [withObject, h] at hstep
  exact hstep

/-- The variable of each thread is its living loop. There is then one at most. -/
def Registered (s : Process τ ℓ F) : Prop :=
  ∀ t l, s.t_loopInThisThread t = some l ↔ ∃ o, s.object l = some o ∧ o.threadId_ = t

/-- The loop runs, and the thread is its own. -/
def RunsIn (s : Process τ ℓ F) (l : ℓ) (t : τ) : Prop :=
  ∃ o, s.object l = some o ∧ o.looping_ = true ∧ o.threadId_ = t

theorem runsIn_self {s : Process τ ℓ F} {l : ℓ} {o : EventLoop τ F} (h : s.object l = some o)
    (t : τ) : s.RunsIn l t ↔ o.looping_ = true ∧ o.threadId_ = t := by
  simp [RunsIn, h]

/-- A thread is in the loops that run and are its own, once in each. -/
structure InOwn (s : Process τ ℓ F) : Prop where
  nodup : ∀ t, (s.inside t).Nodup
  mem_iff : ∀ t l, l ∈ s.inside t ↔ s.RunsIn l t

theorem InOwn.congr {s s' : Process τ ℓ F} (h : s.InOwn) (hinside : s'.inside = s.inside)
    (hruns : ∀ l t, s'.RunsIn l t ↔ s.RunsIn l t) : s'.InOwn := by
  constructor
  · intro t
    rw [hinside]
    exact h.nodup t
  · intro t l
    rw [hinside, hruns]
    exact h.mem_iff t l

variable [DecidableEq ℓ]

def store (s : Process τ ℓ F) (l : ℓ) (o : EventLoop τ F) : Process τ ℓ F :=
  { s with object := update s.object l (some o) }

theorem Registered.store {s : Process τ ℓ F} (h : s.Registered) {l : ℓ} {o o' : EventLoop τ F}
    (ho : s.object l = some o) (ht : o'.threadId_ = o.threadId_) : (s.store l o').Registered := by
  intro t k
  change s.t_loopInThisThread t = some k ↔
    ∃ o, update s.object l (some o') k = some o ∧ o.threadId_ = t
  rw [h t k]
  by_cases hk : k = l
  · subst hk
    simp [ho, ht]
  · rw [update_of_ne hk]

theorem runsIn_store_self (s : Process τ ℓ F) (l : ℓ) (o : EventLoop τ F) (t : τ) :
    (s.store l o).RunsIn l t ↔ o.looping_ = true ∧ o.threadId_ = t := by
  apply runsIn_self
  exact update_self _ _ _

theorem runsIn_store_of_ne (s : Process τ ℓ F) {k l : ℓ} (h : k ≠ l) (o : EventLoop τ F) (t : τ) :
    (s.store l o).RunsIn k t ↔ s.RunsIn k t := by
  have hobject : (s.store l o).object k = s.object k := update_of_ne h _ _
  rw [RunsIn, RunsIn, hobject]

theorem InOwn.of_idle {s s' : Process τ ℓ F} (h : s.InOwn) (hinside : s'.inside = s.inside) {l : ℓ}
    (hidle : ∀ t, ¬ s.RunsIn l t) (hidle' : ∀ t, ¬ s'.RunsIn l t)
    (hothers : ∀ k, k ≠ l → s'.object k = s.object k) : s'.InOwn := by
  apply h.congr hinside
  intro k t
  by_cases hk : k = l
  · subst hk
    exact iff_of_false (hidle' t) (hidle t)
  · rw [RunsIn, RunsIn, hothers k hk]

theorem InOwn.store {s : Process τ ℓ F} (h : s.InOwn) {l : ℓ} {o o' : EventLoop τ F}
    (ho : s.object l = some o) (hloop : o'.looping_ = o.looping_)
    (ht : o'.threadId_ = o.threadId_) : (s.store l o').InOwn := by
  have hinside : (s.store l o').inside = s.inside := rfl
  apply h.congr hinside
  intro k t
  by_cases hk : k = l
  · subst hk
    rw [runsIn_store_self, runsIn_self ho, hloop, ht]
  · exact s.runsIn_store_of_ne hk o' t

end Process

variable [DecidableEq τ] [DecidableEq ℓ]

def EventLoop.isInLoopThread (o : EventLoop τ F) (t : τ) : Bool := o.threadId_ = t

namespace Process

def construct (s : Process τ ℓ F) (t : τ) (l : ℓ) : Except Abort (Process τ ℓ F) :=
  if (s.t_loopInThisThread t).isSome then .error .anotherEventloop
  else .ok { s.store l { threadId_ := t } with
    t_loopInThisThread := update s.t_loopInThisThread t (some l) }

/-- `~EventLoop()`: the variable that is reset is that of the thread which runs it. -/
def destruct (s : Process τ ℓ F) (t : τ) (l : ℓ) (o : EventLoop τ F) :
    Except Abort (Process τ ℓ F) :=
  if o.looping_ then .error .looping
  else .ok { s with
    object := update s.object l none
    t_loopInThisThread := update s.t_loopInThisThread t none }

/-- `loop()`, up to its first test of `quit_`. -/
def loop (s : Process τ ℓ F) (t : τ) (l : ℓ) (o : EventLoop τ F) :
    Except Abort (Process τ ℓ F) :=
  if o.looping_ then .error .looping
  else if o.isInLoopThread t then
    .ok { s.store l { o with looping_ := true, quit_ := false } with
      inside := update s.inside t (l :: s.inside t) }
  else .error .abortNotInLoopThread

/-- The test of `quit_`, and the end of `loop()`. -/
def turn (s : Process τ ℓ F) (t : τ) (l : ℓ) (o : EventLoop τ F) : Process τ ℓ F :=
  if o.quit_ then
    { s.store l { o with looping_ := false } with inside := update s.inside t (s.inside t).tail }
  else s

def updatechannel (s : Process τ ℓ F) (t : τ) (l ownerLoop : ℓ) (o : EventLoop τ F) :
    Except Abort (Process τ ℓ F) :=
  if ownerLoop = l then
    if o.isInLoopThread t then .ok s else .error .abortNotInLoopThread
  else .error .ownerLoop

/-- The loop is not woken up: the branch that should do so is empty. -/
def queueInLoop (s : Process τ ℓ F) (l : ℓ) (o : EventLoop τ F) (cb : F) : Process τ ℓ F :=
  s.store l { o with pendingFunctors_ := o.pendingFunctors_ ++ [cb] }

def runInLoop (s : Process τ ℓ F) (t : τ) (l : ℓ) (o : EventLoop τ F) (cb : F) :
    Process τ ℓ F :=
  if o.isInLoopThread t then { s with called := s.called ++ [(t, l, cb)] }
  else s.queueInLoop l o cb

def step (s : Process τ ℓ F) : τ × Call ℓ F → Except Abort (Process τ ℓ F)
  | (t, .construct l) => s.construct t l
  | (t, .destruct l) => s.withObject l (s.destruct t l)
  | (t, .loop l) => s.withObject l (s.loop t l)
  | (t, .turn) =>
    match s.inside t with
    | [] => .ok s
    | l :: _ => s.withObject l fun o => .ok (s.turn t l o)
  | (_, .quit l) => s.withObject l fun o => .ok (s.store l { o with quit_ := true })
  | (t, .updatechannel l ownerLoop) => s.withObject l (s.updatechannel t l ownerLoop)
  | (t, .runInLoop l cb) => s.withObject l fun o => .ok (s.runInLoop t l o cb)
  | (_, .queueInLoop l cb) => s.withObject l fun o => .ok (s.queueInLoop l o cb)

/-- The use of memory is right: an object is constructed where there is none, and otherwise
the object is there. -/
def Legal (s : Process τ ℓ F) : τ × Call ℓ F → Prop
  | (_, .construct l) => s.object l = none
  | (_, .destruct l) => (s.object l).isSome
  | (_, .loop l) => (s.object l).isSome
  | (t, .turn) => s.inside t ≠ []
  | (_, .quit l) => (s.object l).isSome
  | (_, .updatechannel l _) => (s.object l).isSome
  | (_, .runInLoop l _) => (s.object l).isSome
  | (_, .queueInLoop l _) => (s.object l).isSome

instance (s : Process τ ℓ F) : ∀ c, Decidable (s.Legal c)
  | (_, .construct l) => inferInstanceAs (Decidable (s.object l = none))
  | (_, .destruct l) => inferInstanceAs (Decidable ((s.object l).isSome = true))
  | (_, .loop l) => inferInstanceAs (Decidable ((s.object l).isSome = true))
  | (t, .turn) => inferInstanceAs (Decidable (s.inside t ≠ []))
  | (_, .quit l) => inferInstanceAs (Decidable ((s.object l).isSome = true))
  | (_, .updatechannel l _) => inferInstanceAs (Decidable ((s.object l).isSome = true))
  | (_, .runInLoop l _) => inferInstanceAs (Decidable ((s.object l).isSome = true))
  | (_, .queueInLoop l _) => inferInstanceAs (Decidable ((s.object l).isSome = true))

/-- All that a legal call can do without ending the process. -/
inductive Stepped (s : Process τ ℓ F) : τ × Call ℓ F → Process τ ℓ F → Prop
  | construct {t l} (free : s.t_loopInThisThread t = none) :
      Stepped s (t, .construct l) { s.store l { threadId_ := t } with
        t_loopInThisThread := update s.t_loopInThisThread t (some l) }
  | destruct {t l o} (object : s.object l = some o) (idle : o.looping_ = false) :
      Stepped s (t, .destruct l) { s with
        object := update s.object l none
        t_loopInThisThread := update s.t_loopInThisThread t none }
  | loop {t l o} (object : s.object l = some o) (idle : o.looping_ = false)
      (own : o.threadId_ = t) :
      Stepped s (t, .loop l) { s.store l { o with looping_ := true, quit_ := false } with
        inside := update s.inside t (l :: s.inside t) }
  | leave {t l rest o} (inside : s.inside t = l :: rest) (object : s.object l = some o)
      (quit : o.quit_ = true) :
      Stepped s (t, .turn) { s.store l { o with looping_ := false } with
        inside := update s.inside t rest }
  | dispatch {t} : Stepped s (t, .turn) s
  | quit {t l o} (object : s.object l = some o) :
      Stepped s (t, .quit l) (s.store l { o with quit_ := true })
  | updatechannel {t l} : Stepped s (t, .updatechannel l l) s
  | call {t l o cb} (object : s.object l = some o) (own : o.threadId_ = t) :
      Stepped s (t, .runInLoop l cb) { s with called := s.called ++ [(t, l, cb)] }
  | defer {t l o cb} (object : s.object l = some o) (foreign : o.threadId_ ≠ t) :
      Stepped s (t, .runInLoop l cb) (s.queueInLoop l o cb)
  | queue {t l o cb} (object : s.object l = some o) :
      Stepped s (t, .queueInLoop l cb) (s.queueInLoop l o cb)

theorem step_stepped {s s' : Process τ ℓ F} {c : τ × Call ℓ F} (hlegal : s.Legal c)
    (h : s.step c = .ok s') : Stepped s c s' := by
  obtain ⟨t, c⟩ := c
  cases c with
  | construct l =>
    simp only [step, Process.construct] at h
    split_ifs at h with hsome
    cases h
    exact .construct (by simpa using hsome)
  | destruct l =>
    obtain ⟨o, ho⟩ := Option.isSome_iff_exists.mp hlegal
    have h := withObject_of_some ho h
    unfold Process.destruct at h
    split_ifs at h with hloop
    cases h
    exact .destruct ho (by simpa using hloop)
  | loop l =>
    obtain ⟨o, ho⟩ := Option.isSome_iff_exists.mp hlegal
    have h := withObject_of_some ho h
    unfold Process.loop EventLoop.isInLoopThread at h
    split_ifs at h with hloop hown
    cases h
    exact .loop ho (by simpa using hloop) (by simpa using hown)
  | turn =>
    simp only [step] at h
    cases hin : s.inside t with
    | nil => exact absurd hin hlegal
    | cons l rest =>
      rw [hin] at h
      simp only [withObject] at h
      cases ho : s.object l with
      | none =>
        rw [ho] at h
        cases h
        exact .dispatch
      | some o =>
        rw [ho] at h
        cases h
        unfold turn
        split_ifs with hquit
        · rw [hin]
          exact .leave hin ho hquit
        · exact .dispatch
  | quit l =>
    obtain ⟨o, ho⟩ := Option.isSome_iff_exists.mp hlegal
    cases withObject_of_some ho h
    exact .quit ho
  | updatechannel l ownerLoop =>
    obtain ⟨o, ho⟩ := Option.isSome_iff_exists.mp hlegal
    have h := withObject_of_some ho h
    unfold Process.updatechannel at h
    split_ifs at h with howner hown
    cases h
    subst howner
    exact .updatechannel
  | runInLoop l cb =>
    obtain ⟨o, ho⟩ := Option.isSome_iff_exists.mp hlegal
    cases withObject_of_some ho h
    unfold Process.runInLoop EventLoop.isInLoopThread
    split_ifs with hown
    · exact .call ho (by simpa using hown)
    · exact .defer ho (by simpa using hown)
  | queueInLoop l cb =>
    obtain ⟨o, ho⟩ := Option.isSome_iff_exists.mp hlegal
    cases withObject_of_some ho h
    exact .queue ho

/-! ## The loop of a thread -/

/-- A loop that is not running is destroyed by its own thread only. -/
def OwnDestructor (s : Process τ ℓ F) : τ × Call ℓ F → Prop
  | (t, .destruct l) => ∀ o, s.object l = some o → o.looping_ = false → o.threadId_ = t
  | _ => True

theorem Registered.construct {s : Process τ ℓ F} (h : s.Registered) {t : τ} {l : ℓ}
    (hnone : s.object l = none) (hfree : s.t_loopInThisThread t = none) :
    Registered { s.store l { threadId_ := t } with
      t_loopInThisThread := update s.t_loopInThisThread t (some l) } := by
  intro u k
  change update s.t_loopInThisThread t (some l) u = some k ↔
    ∃ o, update s.object l (some _) k = some o ∧ o.threadId_ = u
  by_cases hu : u = t
  · subst hu
    rw [update_self]
    by_cases hk : k = l
    · subst hk
      simp
    · rw [update_of_ne hk, ← h u k, hfree]
      simp [Ne.symm hk]
  · rw [update_of_ne hu, h u k]
    by_cases hk : k = l
    · subst hk
      simp [hnone, Ne.symm hu]
    · rw [update_of_ne hk]

theorem Registered.destruct {s : Process τ ℓ F} (h : s.Registered) {t : τ} {l : ℓ}
    {o : EventLoop τ F} (ho : s.object l = some o) :
    Registered { s with
      object := update s.object l none
      t_loopInThisThread := update s.t_loopInThisThread t none } ↔ o.threadId_ = t := by
  constructor
  · intro h'
    by_contra hne
    have hl : s.t_loopInThisThread o.threadId_ = some l := (h _ _).mpr ⟨o, ho, rfl⟩
    obtain ⟨o', ho', -⟩ := (h' o.threadId_ l).mp ((update_of_ne hne _ _).trans hl)
    simp at ho'
  · rintro rfl u k
    change update s.t_loopInThisThread o.threadId_ none u = some k ↔
      ∃ o, update s.object l none k = some o ∧ o.threadId_ = u
    have hl : s.t_loopInThisThread o.threadId_ = some l := (h _ _).mpr ⟨o, ho, rfl⟩
    by_cases hk : k = l
    · subst hk
      by_cases hu : u = o.threadId_
      · subst hu
        simp
      · simp [update_of_ne hu, h u k, ho, Ne.symm hu]
    · rw [update_of_ne hk, ← h u k]
      by_cases hu : u = o.threadId_
      · subst hu
        simp [hl, Ne.symm hk]
      · rw [update_of_ne hu]

theorem Registered.stepped {s s' : Process τ ℓ F} {c : τ × Call ℓ F} (h : s.Registered)
    (hlegal : s.Legal c) (hc : Stepped s c s') : s'.Registered ↔ s.OwnDestructor c := by
  cases hc with
  | construct free => exact iff_of_true (h.construct hlegal free) trivial
  | @destruct t l o object idle =>
    rw [h.destruct object]
    constructor
    · intro hown o' ho' _
      rw [object] at ho'
      cases ho'
      exact hown
    · intro hown
      exact hown o object idle
  | loop object idle own => exact iff_of_true (h.store object rfl) trivial
  | leave inside object quit => exact iff_of_true (h.store object rfl) trivial
  | dispatch => exact iff_of_true h trivial
  | quit object => exact iff_of_true (h.store object rfl) trivial
  | updatechannel => exact iff_of_true h trivial
  | call object own => exact iff_of_true h trivial
  | defer object foreign => exact iff_of_true (h.store object rfl) trivial
  | queue object => exact iff_of_true (h.store object rfl) trivial

def run (calls : List (τ × Call ℓ F)) : Except Abort (Process τ ℓ F) := Runs.run step {} calls

/-- Every use of memory in the run is right. -/
def LegalRun (calls : List (τ × Call ℓ F)) : Prop := Runs.Admissible step Legal {} calls

instance (calls : List (τ × Call ℓ F)) : Decidable (LegalRun calls) :=
  inferInstanceAs (Decidable (Runs.Admissible step Legal {} calls))

/-- A call keeps the variables right exactly when it is no foreign destructor; one that ends
the process keeps them. -/
theorem Registered.step_iff {s : Process τ ℓ F} {c : τ × Call ℓ F} (h : s.Registered)
    (hlegal : s.Legal c) : (∀ s', s.step c = .ok s' → s'.Registered) ↔ s.OwnDestructor c := by
  cases hc : s.step c with
  | ok s' =>
    rw [← h.stepped hlegal (step_stepped hlegal hc)]
    constructor
    · intro hall
      exact hall s' rfl
    · intro hs' s'' heq
      cases heq
      exact hs'
  | error e =>
    apply iff_of_true
    · intro s' hs'
      cases hs'
    · obtain ⟨t, c⟩ := c
      cases c with
      | destruct l =>
        intro o ho hidle
        simp [step, withObject, ho, Process.destruct, hidle] at hc
      | _ => trivial

/-- In all states of a run the variable of every thread points to the living loop of that
thread exactly when each loop is destroyed by the thread that made it. -/
theorem loop_of_thread_iff {calls : List (τ × Call ℓ F)} (hlegal : LegalRun calls) :
    (∀ pre s, pre <+: calls → run pre = .ok s → s.Registered) ↔
      Runs.Admissible step OwnDestructor {} calls := by
  have hinit : Registered ({} : Process τ ℓ F) := by
    intro t l
    simp
  have hcongr := Runs.admissible_congr (P := fun s c => ∀ s', step s c = .ok s' → s'.Registered)
    Registered (fun s c h hc => h.step_iff hc)
    (fun s c s' h hc hown hs' => (h.stepped hc (step_stepped hc hs')).mpr hown) hinit hlegal
  rw [← hcongr, ← and_iff_right (b := Runs.Admissible _ _ _ _) hinit]
  exact Runs.forall_isPrefix_iff Registered

/-- A loop that another thread destroys. -/
theorem loop_of_thread_iff_foreign :
    LegalRun (F := ℕ) [(0, .construct 7), (1, .destruct 7)] ∧
      ¬ ∀ pre (s : Process ℕ ℕ ℕ), pre <+: [(0, .construct 7), (1, .destruct 7)] →
        run pre = .ok s → s.Registered := by
  have hlegal : LegalRun (F := ℕ) [(0, .construct 7), (1, .destruct 7)] := by decide
  refine ⟨hlegal, ?_⟩
  rw [loop_of_thread_iff hlegal]
  rintro ⟨-, hown, -⟩
  exact absurd (hown _ rfl rfl) (by decide)

/-! ## The calls of `loop` -/

theorem InOwn.loop {s : Process τ ℓ F} (h : s.InOwn) {l : ℓ} {o : EventLoop τ F}
    (ho : s.object l = some o) (hidle : o.looping_ = false) :
    InOwn { s.store l { o with looping_ := true, quit_ := false } with
      inside := update s.inside o.threadId_ (l :: s.inside o.threadId_) } := by
  have hout : ∀ t, l ∉ s.inside t := by
    intro t hmem
    simp [h.mem_iff, runsIn_self ho, hidle] at hmem
  constructor
  · intro t
    by_cases ht : t = o.threadId_
    · subst ht
      simp only [update_self, List.nodup_cons]
      exact ⟨hout _, h.nodup _⟩
    · simp only [update_of_ne ht]
      exact h.nodup t
  · intro t k
    change k ∈ update s.inside o.threadId_ (l :: s.inside o.threadId_) t ↔
      (s.store l { o with looping_ := true, quit_ := false }).RunsIn k t
    by_cases hk : k = l
    · subst hk
      rw [runsIn_store_self]
      by_cases ht : t = o.threadId_
      · simp [ht]
      · simp [update_of_ne ht, hout, Ne.symm ht]
    · rw [runsIn_store_of_ne _ hk, ← h.mem_iff]
      by_cases ht : t = o.threadId_
      · simp [ht, hk]
      · rw [update_of_ne ht]

theorem InOwn.leave {s : Process τ ℓ F} (h : s.InOwn) {t : τ} {l : ℓ} {rest : List ℓ}
    {o : EventLoop τ F} (hin : s.inside t = l :: rest) (ho : s.object l = some o) :
    InOwn { s.store l { o with looping_ := false } with inside := update s.inside t rest } := by
  have hnodup := h.nodup t
  rw [hin, List.nodup_cons] at hnodup
  have hown : o.threadId_ = t := by
    have hmem : l ∈ s.inside t := by simp [hin]
    rw [h.mem_iff, runsIn_self ho] at hmem
    exact hmem.2
  constructor
  · intro u
    by_cases hu : u = t
    · subst hu
      simp only [update_self]
      exact hnodup.2
    · simp only [update_of_ne hu]
      exact h.nodup u
  · intro u k
    change k ∈ update s.inside t rest u ↔ (s.store l { o with looping_ := false }).RunsIn k u
    by_cases hk : k = l
    · subst hk
      rw [runsIn_store_self]
      by_cases hu : u = t
      · simp [hu, hnodup.1]
      · simp [update_of_ne hu, h.mem_iff, runsIn_self ho, hown, Ne.symm hu]
    · rw [runsIn_store_of_ne _ hk, ← h.mem_iff]
      by_cases hu : u = t
      · simp [hu, hin, hk]
      · rw [update_of_ne hu]

theorem InOwn.stepped {s s' : Process τ ℓ F} {c : τ × Call ℓ F} (h : s.InOwn)
    (hlegal : s.Legal c) (hc : Stepped s c s') : s'.InOwn := by
  cases hc with
  | @construct t l free =>
    have hnone : s.object l = none := hlegal
    apply InOwn.of_idle h (l := l)
    · rfl
    · simp [RunsIn, hnone]
    · intro u
      exact fun hruns => absurd ((s.runsIn_store_self l _ u).mp hruns).1 (by simp)
    · intro k hk
      exact update_of_ne hk _ _
  | @destruct t l o object idle =>
    apply InOwn.of_idle h (l := l)
    · rfl
    · simp [runsIn_self object, idle]
    · simp [RunsIn]
    · intro k hk
      exact update_of_ne hk _ _
  | loop object idle own =>
    subst own
    exact h.loop object idle
  | leave inside object quit => exact h.leave inside object
  | dispatch => exact h
  | quit object => exact h.store object rfl rfl
  | updatechannel => exact h
  | call object own => exact h.congr rfl fun _ _ => Iff.rfl
  | defer object foreign => exact h.store object rfl rfl
  | queue object => exact h.store object rfl rfl

/-! ## What becomes of a loop -/

/-- The functor that a call puts into the queue of a loop. -/
def queued (l : ℓ) (threadId_ : τ) : τ × Call ℓ F → Option F
  | (_, .queueInLoop k cb) => if k = l then some cb else none
  | (t, .runInLoop k cb) => if k = l ∧ t ≠ threadId_ then some cb else none
  | _ => none

/-- The functor that is called at once. -/
def direct (l : ℓ) (threadId_ : τ) : τ × Call ℓ F → Option F
  | (t, .runInLoop k cb) => if k = l ∧ t = threadId_ then some cb else none
  | _ => none

/-- The functors that were called for a loop, with their threads. -/
def calledOn (s : Process τ ℓ F) (l : ℓ) : List (τ × ℓ × F) := s.called.filter fun p => p.2.1 = l

/-- A loop before and after a call. It keeps its thread and its functors. Unless the call
enters it, it runs only if it ran before, and `quit_` is set by `quit()` alone. -/
structure Kept (l : ℓ) (c : τ × Call ℓ F) (o o' : EventLoop τ F) : Prop where
  thread : o'.threadId_ = o.threadId_
  pending : o'.pendingFunctors_ = o.pendingFunctors_ ++ (queued l o.threadId_ c).toList
  looping : (∀ t, c ≠ (t, .loop l)) → o'.looping_ = true → o.looping_ = true ∧
    (o'.quit_ = true ↔ o.quit_ = true ∨ ∃ t, c = (t, .quit l))

theorem Kept.of_none {l : ℓ} {c : τ × Call ℓ F} {o : EventLoop τ F}
    (hqueued : queued l o.threadId_ c = none) (hquit : ∀ t, c ≠ (t, .quit l)) :
    Kept l c o o := by
  constructor
  · rfl
  · simp [hqueued]
  · intro _ hloop
    simp [hloop, hquit]

theorem Stepped.kept {s s' : Process τ ℓ F} {c : τ × Call ℓ F} (hc : Stepped s c s') {l : ℓ}
    (hnew : ∀ t, c ≠ (t, .construct l)) {o' : EventLoop τ F} (ho' : s'.object l = some o') :
    ∃ o, s.object l = some o ∧ Kept l c o o' := by
  cases hc with
  | @construct t k free =>
    have hk : l ≠ k := by
      rintro rfl
      exact hnew t rfl
    exact ⟨o', (update_of_ne hk _ _).symm.trans ho', .of_none rfl (by simp)⟩
  | @destruct t k o object idle =>
    by_cases hk : l = k
    · subst hk
      simp at ho'
    · exact ⟨o', (update_of_ne hk _ _).symm.trans ho', .of_none rfl (by simp)⟩
  | @loop t k o object idle own =>
    by_cases hk : l = k
    · subst hk
      cases (update_self l _ s.object).symm.trans ho'
      exact ⟨o, object, rfl, by simp [queued], fun h => absurd rfl (h t)⟩
    · exact ⟨o', (update_of_ne hk _ _).symm.trans ho', .of_none rfl (by simp)⟩
  | @leave t k rest o inside object quit =>
    by_cases hk : l = k
    · subst hk
      cases (update_self l _ s.object).symm.trans ho'
      exact ⟨o, object, rfl, by simp [queued], by simp⟩
    · exact ⟨o', (update_of_ne hk _ _).symm.trans ho', .of_none rfl (by simp)⟩
  | dispatch => exact ⟨o', ho', .of_none rfl (by simp)⟩
  | @quit t k o object =>
    by_cases hk : l = k
    · subst hk
      cases (update_self l _ s.object).symm.trans ho'
      exact ⟨o, object, rfl, by simp [queued], by simp⟩
    · refine ⟨o', (update_of_ne hk _ _).symm.trans ho', .of_none rfl ?_⟩
      simp [Ne.symm hk]
  | updatechannel => exact ⟨o', ho', .of_none rfl (by simp)⟩
  | @call t k o cb object own =>
    refine ⟨o', ho', .of_none ?_ (by simp)⟩
    by_cases hk : k = l
    · subst hk
      cases object.symm.trans ho'
      simp [queued, own]
    · simp [queued, hk]
  | @defer t k o cb object foreign =>
    by_cases hk : l = k
    · subst hk
      cases (update_self l _ s.object).symm.trans ho'
      exact ⟨o, object, rfl, by simp [queued, Ne.symm foreign], by simp⟩
    · refine ⟨o', (update_of_ne hk _ _).symm.trans ho', .of_none ?_ (by simp)⟩
      simp [queued, Ne.symm hk]
  | @queue t k o cb object =>
    by_cases hk : l = k
    · subst hk
      cases (update_self l _ s.object).symm.trans ho'
      exact ⟨o, object, rfl, by simp [queued], by simp⟩
    · refine ⟨o', (update_of_ne hk _ _).symm.trans ho', .of_none ?_ (by simp)⟩
      simp [queued, Ne.symm hk]

theorem Stepped.calledOn {s s' : Process τ ℓ F} {c : τ × Call ℓ F} (hc : Stepped s c s') {l : ℓ}
    {o : EventLoop τ F} (ho : s.object l = some o) :
    s'.calledOn l =
      s.calledOn l ++ (direct l o.threadId_ c).toList.map fun cb => (o.threadId_, l, cb) := by
  cases hc with
  | @call t k o' cb object own =>
    by_cases hk : k = l
    · subst hk
      cases object.symm.trans ho
      simp [Process.calledOn, direct, own]
    · simp [Process.calledOn, direct, hk]
  | @defer t k o' cb object foreign =>
    by_cases hk : k = l
    · subst hk
      cases object.symm.trans ho
      simp [Process.calledOn, direct, Ne.symm foreign, Process.queueInLoop, Process.store]
    · simp [Process.calledOn, direct, hk, Process.queueInLoop, Process.store]
  | _ => simp [Process.calledOn, direct, Process.queueInLoop, Process.store]

theorem Stepped.running {s s' : Process τ ℓ F} {c : τ × Call ℓ F} (hc : Stepped s c s') {l : ℓ}
    (hnew : ∀ t, c ≠ (t, .loop l)) {o' : EventLoop τ F} (ho' : s'.object l = some o')
    (hloop : o'.looping_ = true) :
    ∃ o, s.object l = some o ∧ o.looping_ = true ∧
      (o'.quit_ = true ↔ o.quit_ = true ∨ ∃ t, c = (t, .quit l)) := by
  by_cases hmade : ∃ t, c = (t, .construct l)
  · obtain ⟨t, rfl⟩ := hmade
    cases hc with
    | construct free =>
      cases (update_self l _ s.object).symm.trans ho'
      cases hloop
  · push Not at hmade
    obtain ⟨o, ho, hkept⟩ := hc.kept hmade ho'
    exact ⟨o, ho, hkept.looping hnew hloop⟩

theorem functors_of_run {s s' : Process τ ℓ F} {calls : List (τ × Call ℓ F)} {l : ℓ}
    (hlegal : Runs.Admissible step Legal s calls) (hrun : Runs.run step s calls = .ok s')
    (hnew : ∀ t, (t, .construct l) ∉ calls) {o' : EventLoop τ F} (ho' : s'.object l = some o') :
    ∃ o, s.object l = some o ∧ o'.threadId_ = o.threadId_ ∧
      o'.pendingFunctors_ = o.pendingFunctors_ ++ calls.filterMap (queued l o.threadId_) ∧
      s'.calledOn l = s.calledOn l ++
        (calls.filterMap (direct l o.threadId_)).map fun cb => (o.threadId_, l, cb) := by
  induction calls generalizing s with
  | nil =>
    cases hrun
    exact ⟨o', ho', rfl, by simp, by simp⟩
  | cons c calls ih =>
    cases hc : step s c with
    | error e => simp [Runs.run, hc] at hrun
    | ok u =>
      rw [Runs.run_cons hc] at hrun
      obtain ⟨p, hp, hthread, hpending, hcalled⟩ := ih (hlegal.tail hc) hrun
        fun t ht => hnew t (List.mem_cons_of_mem c ht)
      have hfirst : ∀ t, c ≠ (t, .construct l) := by
        rintro t rfl
        exact hnew t List.mem_cons_self
      have hstep := step_stepped hlegal.1 hc
      obtain ⟨o, ho, hkept⟩ := hstep.kept hfirst hp
      rw [hkept.thread] at hthread hpending hcalled
      refine ⟨o, ho, hthread, ?_, ?_⟩
      · rw [hpending, hkept.pending, List.append_assoc, List.filterMap_cons]
        cases queued l o.threadId_ c <;> rfl
      · rw [hcalled, hstep.calledOn ho, List.append_assoc, List.filterMap_cons]
        cases direct l o.threadId_ c <;> rfl

/-! ## Whole runs -/

/-- The functors that were given to a loop since it was made, by any threads. Those which its
own thread gave to `runInLoop` were called at once, in that thread. All others are in the
queue, in order: none of them is ever called. -/
theorem functors_wait {calls : List (τ × Call ℓ F)} {s : Process τ ℓ F}
    (hlegal : LegalRun calls) (hrun : run calls = .ok s) :
    ∀ before t l after, calls = before ++ (t, .construct l) :: after →
      (∀ u, (u, .construct l) ∉ after) → ∀ o, s.object l = some o →
        o.threadId_ = t ∧ o.pendingFunctors_ = after.filterMap (queued l t) ∧
        ∃ s₀, run before = .ok s₀ ∧ s.calledOn l = s₀.calledOn l ++
          (after.filterMap (direct l t)).map fun cb => (t, l, cb) := by
  rintro before t l after rfl hnew o ho
  obtain ⟨u, hu, hafter⟩ := Runs.run_append hrun
  have hadm := hlegal.append_right hu
  cases hc : step u (t, .construct l) with
  | error e => simp [Runs.run, hc] at hafter
  | ok v =>
    rw [Runs.run_cons hc] at hafter
    obtain ⟨p, hp, hthread, hpending, hcalled⟩ :=
      functors_of_run (hadm.tail hc) hafter hnew ho
    cases step_stepped hadm.1 hc with
    | construct free =>
      cases (update_self l _ u.object).symm.trans hp
      exact ⟨hthread, hpending, u, hu, hcalled⟩

theorem functors_wait_two :
    ∃ s : Process ℕ ℕ ℕ, run [(0, .construct 7), (1, .runInLoop 7 5), (0, .runInLoop 7 6)] = .ok s ∧
      ∀ o, s.object 7 = some o → o.pendingFunctors_ = [5] := by
  have hlegal : LegalRun [(0, .construct 7), (1, .runInLoop 7 5), (0, .runInLoop 7 6)] := by
    decide
  refine ⟨_, rfl, ?_⟩
  intro o ho
  have hwait := functors_wait hlegal rfl [] 0 7 [(1, .runInLoop 7 5), (0, .runInLoop 7 6)] rfl
    (by simp) o ho
  exact hwait.2.1

end Process

end NetworkPrograms.LoopThread
