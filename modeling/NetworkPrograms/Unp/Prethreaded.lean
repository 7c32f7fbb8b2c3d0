import NetworkPrograms.Foundations.Census
import NetworkPrograms.Foundations.Interleaving
import NetworkPrograms.Foundations.RingBuffer

/-!
# The prethreaded server

`main` of `server/serv08.c` accepts all connections and puts their descriptors into the
ring `clifd`; the threads of `server/pthread08.c` take them from there. A mutex protects
the ring, and a condition variable tells the threads that it is not empty. A thread that has
a connection is in `web_child` until the client closes it, and waits there for every request.

Any number of threads run in any interleaving. Every access to the ring is a step of its
own, so that nothing but the mutex keeps the threads apart. The process ends with `err_quit`
when the ring is full or a request is out of range, with `err_sys` when a system call fails,
and with SIGINT.
-/
namespace NetworkPrograms.Prethreaded

open Function RingBuffer Interleaving

def MAXNCLI : ℕ := 32

/-- The most bytes that a client can request. -/
def MAXN : ℤ := 16384

/-- Where the main thread is: before `Accept`, before the lock, before the assignment to
`clifd[iput]`, before `++iput`, before the signal, before the unlock. -/
inductive Main where
  | accepting
  | locking (connfd : ℤ)
  | storing (connfd : ℤ)
  | advancing (connfd : ℤ)
  | signalling
  | unlocking
  deriving DecidableEq

/-- Where a thread is: before the lock, before the test of the loop, blocked in
`Pthread_cond_wait`, woken up there and in need of the mutex, before `++iget`, before the
unlock, before `thread_count++`, in `Readline` of `web_child`, before `Close`. -/
inductive Phase where
  | locking
  | checking
  | waiting
  | woken
  | advancing (connfd : ℤ)
  | unlocking (connfd : ℤ)
  | counting (connfd : ℤ)
  | serving (connfd : ℤ)
  | closing (connfd : ℤ)
  deriving DecidableEq

/-- Why the process has ended: the ring was full, a request was out of range, a system call
has failed, or SIGINT came. -/
inductive Exit where
  | full
  | request (ntowrite : ℤ)
  | error
  | sigint
  deriving DecidableEq

def Main.holds : Main → Bool
  | .accepting | .locking _ => false
  | _ => true

def Phase.holds : Phase → Bool
  | .checking | .advancing _ | .unlocking _ => true
  | _ => false

/-- The phases in which a thread is about to look into the ring. -/
def Phase.active : Phase → Bool
  | .locking | .checking | .woken | .advancing _ => true
  | _ => false

/-- A thread, with the connections it has processed and closed, and the numbers of bytes it
has written on connections. -/
structure Thread where
  phase : Phase := .locking
  thread_count : ℕ := 0
  served : List ℤ := []
  written : List (ℤ × ℤ) := []

/-- The owner of the mutex is `none`, the main thread, or `some` thread. -/
structure Server (τ : Type*) where
  clifd : ℕ → ℤ := fun _ => 0
  iget : ℕ := 0
  iput : ℕ := 0
  clifd_mutex : Option (Option τ) := none
  main : Main := .accepting
  tptr : τ → Thread := fun _ => {}
  exited : Option Exit := none
  accepted : List ℤ := []

/-- What the client of a thread brings about in `web_child`: a line with a number, the end of
the connection, an error in `Readline` or `Writen`. -/
inductive Web where
  | line (ntowrite : ℤ)
  | closed
  | failed

/-- The kernel hands out a connection or `Accept` fails, the main thread or another one makes
its next step, the condition is signalled and wakes the threads that the system chooses, a
thread wakes up for no reason, a client does something, or SIGINT comes. -/
inductive Input (τ : Type*) where
  | accept (connfd : ℤ)
  | acceptFails
  | main
  | signal (woken : τ → Bool)
  | thread (t : τ)
  | spurious (t : τ)
  | client (t : τ) (web : Web)
  | sigint

def advance (i : ℕ) : ℕ := if i + 1 = MAXNCLI then 0 else i + 1

namespace Server

variable {τ : Type*}

/-- The loop of `main`, where the next step is neither `Accept` nor the signal. -/
def mainNext (s : Server τ) : Server τ :=
  match s.main with
  | .locking connfd => { s with clifd_mutex := some none, main := .storing connfd }
  | .storing connfd =>
    { s with clifd := update s.clifd s.iput connfd, main := .advancing connfd }
  | .advancing _ =>
    { s with
      iput := advance s.iput
      exited := if advance s.iput = s.iget then some .full else s.exited
      main := .signalling }
  | .unlocking => { s with clifd_mutex := none, main := .accepting }
  | _ => s

/-- The mutex is taken when it is free. A signal wakes at least one of the threads that
wait. A thread in `web_child` goes on when its client does something. When the process has
ended there are no more steps. -/
def Enabled (s : Server τ) (i : Input τ) : Prop :=
  s.exited = none ∧ match i with
  | .accept _ | .acceptFails => s.main = .accepting
  | .main => match s.main with
    | .locking _ => s.clifd_mutex = none
    | .accepting | .signalling => False
    | _ => True
  | .signal woken => s.main = .signalling ∧
      ((∃ t, (s.tptr t).phase = .waiting) → ∃ t, (s.tptr t).phase = .waiting ∧ woken t = true)
  | .thread t => match (s.tptr t).phase with
    | .locking | .woken => s.clifd_mutex = none
    | .waiting | .serving _ => False
    | _ => True
  | .spurious t => (s.tptr t).phase = .waiting
  | .client t _ => ∃ connfd, (s.tptr t).phase = .serving connfd
  | .sigint => True

def queued (s : Server τ) : List ℤ :=
  contents MAXNCLI s.clifd s.iget
    (if s.exited = some .full then MAXNCLI else (s.iput + MAXNCLI - s.iget) % MAXNCLI)

variable [DecidableEq τ]

/-- A thread moves on, with the mutex as it is afterwards. -/
def move (s : Server τ) (t : τ) (w : Thread) (mutex : Option (Option τ)) : Server τ :=
  { s with tptr := update s.tptr t w, clifd_mutex := mutex }

def threadNext (s : Server τ) (t : τ) : Server τ :=
  let w := s.tptr t
  match w.phase with
  | .locking => s.move t { w with phase := .checking } (some (some t))
  | .checking =>
    if s.iget = s.iput then s.move t { w with phase := .waiting } none
    else s.move t { w with phase := .advancing (s.clifd s.iget) } s.clifd_mutex
  | .waiting => s
  | .woken => s.move t { w with phase := .checking } (some (some t))
  | .advancing connfd =>
    { s.move t { w with phase := .unlocking connfd } s.clifd_mutex with iget := advance s.iget }
  | .unlocking connfd => s.move t { w with phase := .counting connfd } none
  | .counting connfd =>
    s.move t { w with phase := .serving connfd, thread_count := w.thread_count + 1 } s.clifd_mutex
  | .serving _ => s
  | .closing connfd =>
    s.move t { w with phase := .locking, served := w.served ++ [connfd] } s.clifd_mutex

def webChild (s : Server τ) (t : τ) (web : Web) : Server τ :=
  let w := s.tptr t
  match w.phase, web with
  | .serving sockfd, .line ntowrite =>
    if ntowrite ≤ 0 ∨ ntowrite > MAXN then { s with exited := some (.request ntowrite) }
    else s.move t { w with written := w.written ++ [(sockfd, ntowrite)] } s.clifd_mutex
  | .serving sockfd, .closed => s.move t { w with phase := .closing sockfd } s.clifd_mutex
  | .serving _, .failed => { s with exited := some .error }
  | _, _ => s

def next (s : Server τ) : Input τ → Server τ
  | .accept connfd => { s with main := .locking connfd, accepted := s.accepted ++ [connfd] }
  | .acceptFails => { s with exited := some .error }
  | .main => s.mainNext
  | .signal woken => { s with
      main := .unlocking
      tptr := fun t => if (s.tptr t).phase = .waiting ∧ woken t then
        { s.tptr t with phase := .woken } else s.tptr t }
  | .thread t => s.threadNext t
  | .spurious t => s.move t { s.tptr t with phase := .woken } s.clifd_mutex
  | .client t web => s.webChild t web
  | .sigint => { s with exited := some .sigint }

end Server

/-- The connection that the main thread is about to put into the ring. -/
def Main.inHand : Main → List ℤ
  | .locking connfd | .storing connfd | .advancing connfd => [connfd]
  | _ => []

/-- The signal that is still to come for the last connection. -/
def Main.pending : Main → ℕ
  | .signalling => 1
  | _ => 0

/-- The connection that a thread has taken out of the ring. -/
def Phase.inHand : Phase → List ℤ
  | .unlocking connfd | .counting connfd | .serving connfd | .closing connfd => [connfd]
  | _ => []

def Thread.received (w : Thread) : List ℤ := w.served ++ w.phase.inHand

/-- `thread_count` is incremented before the connection is processed. -/
def Thread.counts (w : Thread) : ℕ :=
  match w.phase with
  | .serving _ | .closing _ => w.served.length + 1
  | _ => w.served.length

/-- A thread that is about to look into the ring counts. -/
def Thread.weight (w : Thread) : ℕ := if w.phase.active then 1 else 0

/-- Bytes are written only on connections that the thread got, as many as may be requested. -/
def Thread.Answers (w : Thread) : Prop :=
  ∀ p ∈ w.written, p.1 ∈ w.received ∧ 0 < p.2 ∧ p.2 ≤ MAXN

theorem Thread.Answers.of_received {w w' : Thread} (h : w.Answers)
    (hwritten : w'.written = w.written) (hreceived : w'.received = w.received) : w'.Answers := by
  intro p hp
  rw [hwritten] at hp
  rw [hreceived]
  exact h p hp

namespace Server

variable {τ : Type*} {queue : List ℤ} {taken : List (τ × ℤ)} {s : Server τ} {t : τ}

def inside (s : Server τ) : Option τ → Prop
  | none => s.main.holds = true
  | some t => (s.tptr t).phase.holds = true

theorem inside_main_of_ne {m : Main} {mutex : Option (Option τ)} (u : Option τ) (hu : u ≠ none) :
    { s with main := m, clifd_mutex := mutex }.inside u ↔ s.inside u := by
  cases u with
  | none => exact absurd rfl hu
  | some u => rfl

theorem advance_eq {i : ℕ} (h : i < MAXNCLI) : advance i = RingBuffer.next MAXNCLI i := by
  unfold advance RingBuffer.next
  split_ifs <;> omega

variable [DecidableEq τ]

theorem inside_move_self {w : Thread} {mutex : Option (Option τ)} :
    (s.move t w mutex).inside (some t) ↔ w.phase.holds = true := by
  simp [inside, Server.move]

theorem inside_move_of_ne {w : Thread} {mutex : Option (Option τ)} (u : Option τ)
    (hu : u ≠ some t) : (s.move t w mutex).inside u ↔ s.inside u := by
  cases u with
  | none => rfl
  | some u =>
    have hut : u ≠ t := fun heq => hu (congrArg some heq)
    simp [inside, Server.move, hut]

variable [Fintype τ]

def active (s : Server τ) : ℕ := Census.total Thread.weight s.tptr

/-- `queue` are the connections in the ring, `taken` those that were taken, with the threads
that have them. As long as a thread waits, every connection in the ring has woken one. -/
structure Inv (queue : List ℤ) (taken : List (τ × ℤ)) (s : Server τ) : Prop where
  lock : Exclusive s.clifd_mutex s.inside
  ring : Holds MAXNCLI s.clifd s.iget s.iput queue
  order : taken.map Prod.snd ++ queue ++ s.main.inHand = s.accepted
  own : ∀ t, (taken.filter fun p => p.1 = t).map Prod.snd = (s.tptr t).received
  counts : ∀ t, (s.tptr t).thread_count = (s.tptr t).counts
  answers : ∀ t, (s.tptr t).Answers
  stored : ∀ connfd, s.main = .advancing connfd → s.clifd s.iput = connfd
  fetched : ∀ t connfd, (s.tptr t).phase = .advancing connfd → ∃ rest, queue = connfd :: rest
  full : s.exited = some .full ↔ queue.length = MAXNCLI
  woken : (∃ t, (s.tptr t).phase = .waiting) → queue.length ≤ s.active + s.main.pending

theorem inv_init : Inv [] [] ({} : Server τ) where
  lock := by
    rintro (_ | t) <;> simp [inside, Main.holds, Phase.holds]
  ring := .empty (show 0 < MAXNCLI by decide) _
  order := rfl
  own := by simp [Thread.received, Phase.inHand]
  counts := by simp [Thread.counts]
  answers := by simp [Thread.Answers]
  stored := by simp
  fetched := by simp
  full := by simp [MAXNCLI]
  woken := by simp

theorem Inv.room (h : Inv queue taken s) (hexit : s.exited = none) : queue.length < MAXNCLI := by
  apply lt_of_le_of_ne h.ring.length_le
  intro hfull
  rw [h.full.mpr hfull] at hexit
  cases hexit

theorem Inv.iget_eq_iput_iff (h : Inv queue taken s) (hexit : s.exited = none) :
    s.iget = s.iput ↔ queue = [] := by
  rw [eq_comm, h.ring.iput_eq_iget_iff, or_iff_left (h.room hexit).ne]

theorem Inv.exit (h : Inv queue taken s) (hexit : s.exited = none) {e : Exit} (he : e ≠ .full) :
    Inv queue taken { s with exited := some e } where
  lock := h.lock
  ring := h.ring
  order := h.order
  own := h.own
  counts := h.counts
  answers := h.answers
  stored := h.stored
  fetched := h.fetched
  full := by
    apply iff_of_false
    · intro heq
      exact he (Option.some.inj heq)
    · exact (h.room hexit).ne
  woken := h.woken

/-! ## The threads -/

theorem active_move (w : Thread) (mutex : Option (Option τ)) :
    (s.move t w mutex).active + (s.tptr t).weight = s.active + w.weight :=
  Census.total_update Thread.weight s.tptr t w

theorem Inv.move (h : Inv queue taken s) {w : Thread} {mutex : Option (Option τ)}
    (hlock : Exclusive mutex (s.move t w mutex).inside)
    (hreceived : w.received = (s.tptr t).received) (hcounts : w.thread_count = w.counts)
    (hanswers : w.Answers)
    (hfetched : ∀ connfd, w.phase = .advancing connfd → ∃ rest, queue = connfd :: rest)
    (hweight : w.phase = .waiting ∧ queue = [] ∨
      w.phase ≠ .waiting ∧ (s.tptr t).weight ≤ w.weight) :
    Inv queue taken (s.move t w mutex) where
  lock := hlock
  ring := h.ring
  order := h.order
  own := by
    intro u
    by_cases hut : u = t
    · subst hut
      simp [Server.move, hreceived, h.own u]
    · simp [Server.move, hut, h.own u]
  counts := by
    intro u
    by_cases hut : u = t
    · subst hut
      simpa [Server.move] using hcounts
    · simpa [Server.move, hut] using h.counts u
  answers := by
    intro u
    by_cases hut : u = t
    · subst hut
      simpa [Server.move] using hanswers
    · simpa [Server.move, hut] using h.answers u
  stored := h.stored
  fetched := by
    intro u connfd
    by_cases hut : u = t
    · subst hut
      simpa [Server.move] using hfetched connfd
    · simpa [Server.move, hut] using h.fetched u connfd
  full := h.full
  woken := by
    rintro ⟨u, hu⟩
    rcases hweight with ⟨-, rfl⟩ | ⟨hne, hle⟩
    · exact Nat.zero_le _
    · have hut : u ≠ t := by
        rintro rfl
        exact hne (by simpa [Server.move] using hu)
      have hold := h.woken ⟨u, by simpa [Server.move, hut] using hu⟩
      have hactive := active_move (s := s) (t := t) w mutex
      change _ ≤ _ + s.main.pending
      omega

/-- A thread goes on with the connection that it has, or with none. -/
theorem Inv.rephase (h : Inv queue taken s) {p : Phase} {mutex : Option (Option τ)}
    (hlock : Exclusive mutex (s.move t { s.tptr t with phase := p } mutex).inside)
    (hhand : p.inHand = (s.tptr t).phase.inHand)
    (hcounts : Thread.counts { s.tptr t with phase := p } = (s.tptr t).counts)
    (hfetched : ∀ connfd, p = .advancing connfd → ∃ rest, queue = connfd :: rest)
    (hweight : p = .waiting ∧ queue = [] ∨
      p ≠ .waiting ∧ (s.tptr t).weight ≤ Thread.weight { s.tptr t with phase := p }) :
    Inv queue taken (s.move t { s.tptr t with phase := p } mutex) := by
  have hreceived : Thread.received { s.tptr t with phase := p } = (s.tptr t).received :=
    congrArg ((s.tptr t).served ++ ·) hhand
  exact h.move hlock hreceived ((h.counts t).trans hcounts.symm)
    ((h.answers t).of_received rfl hreceived) hfetched hweight

theorem Inv.enter (h : Inv queue taken s) (hfree : s.clifd_mutex = none) {w : Thread}
    (hw : w.phase.holds = true) :
    Exclusive (some (some t)) (s.move t w (some (some t))).inside := by
  have hlock := h.lock
  rw [hfree] at hlock
  exact hlock.enter (inside_move_self.mpr hw) inside_move_of_ne

theorem Inv.leave (h : Inv queue taken s) (ht : (s.tptr t).phase.holds = true) {w : Thread}
    (hw : ¬ w.phase.holds = true) : Exclusive none (s.move t w none).inside :=
  h.lock.leave (t := some t) ht (fun hin => hw (inside_move_self.mp hin)) inside_move_of_ne

theorem Inv.stay (h : Inv queue taken s) {w : Thread}
    (hw : w.phase.holds = (s.tptr t).phase.holds) :
    Exclusive s.clifd_mutex (s.move t w s.clifd_mutex).inside := by
  apply h.lock.stay
  intro u
  by_cases hu : u = some t
  · subst hu
    rw [inside_move_self, hw]
    rfl
  · exact inside_move_of_ne u hu

/-- A thread takes the connection that it has read. No other thread is inside, so none has
read the same one. -/
theorem Inv.take (h : Inv queue taken s) {connfd : ℤ}
    (hphase : (s.tptr t).phase = .advancing connfd) (hexit : s.exited = none) :
    ∃ queue', Inv queue' (taken ++ [(t, connfd)])
      { s.move t { s.tptr t with phase := .unlocking connfd } s.clifd_mutex with
        iget := advance s.iget } := by
  obtain ⟨rest, rfl⟩ := h.fetched t connfd hphase
  have hcounts := h.counts t
  have howner : s.inside (some t) := by simp [inside, hphase, Phase.holds]
  refine ⟨rest, ?_, ?_, ?_, ?_, ?_, ?_, h.stored, ?_, ?_, ?_⟩
  · apply h.stay
    simp [hphase, Phase.holds]
  · rw [advance_eq h.ring.iget_lt]
    exact h.ring.get
  · simpa [Server.move] using h.order
  · intro u
    by_cases hut : u = t
    · subst hut
      simp [Server.move, List.filter_append, h.own u, Thread.received, hphase, Phase.inHand]
    · simp [Server.move, List.filter_append, h.own u, hut, Ne.symm hut]
  · intro u
    by_cases hut : u = t
    · subst hut
      simpa [Server.move, Thread.counts, hphase] using hcounts
    · simpa [Server.move, hut] using h.counts u
  · intro u
    by_cases hut : u = t
    · subst hut
      simp only [Server.move, update_self]
      intro p hp
      obtain ⟨hmem, hrange⟩ := h.answers u p hp
      refine ⟨?_, hrange⟩
      simp only [Thread.received, hphase, Phase.inHand, List.append_nil] at hmem ⊢
      exact List.mem_append_left _ hmem
    · simpa [Server.move, hut] using h.answers u
  · intro u connfd' hu
    by_cases hut : u = t
    · subst hut
      simp [Server.move] at hu
    · have hu' : (s.tptr u).phase = .advancing connfd' := by simpa [Server.move, hut] using hu
      have heq := h.lock.eq (t := some u) (by simp [inside, hu', Phase.holds]) howner
      exact absurd (Option.some.inj heq) hut
  · have hroom := h.room hexit
    rw [List.length_cons] at hroom
    apply iff_of_false
    · simp [Server.move, hexit]
    · omega
  · -- the thread is no longer one that looks into the ring, and the ring has one less
    rintro ⟨u, hu⟩
    have hut : u ≠ t := by
      rintro rfl
      simp [Server.move] at hu
    have hold := h.woken ⟨u, by simpa [Server.move, hut] using hu⟩
    have hactive := active_move (s := s) (t := t) { s.tptr t with phase := .unlocking connfd }
      s.clifd_mutex
    have hself : (s.tptr t).weight = 1 := by simp [Thread.weight, hphase, Phase.active]
    have hnew : Thread.weight { s.tptr t with phase := .unlocking connfd } = 0 := rfl
    rw [List.length_cons] at hold
    change _ ≤ (s.move t { s.tptr t with phase := .unlocking connfd } s.clifd_mutex).active +
      s.main.pending
    omega

/-- The mutex is locked, at the beginning or at the end of `Pthread_cond_wait`. -/
theorem Inv.lockMutex (h : Inv queue taken s) (hfree : s.clifd_mutex = none)
    (hphase : (s.tptr t).phase = .locking ∨ (s.tptr t).phase = .woken) :
    Inv queue taken (s.move t { s.tptr t with phase := .checking } (some (some t))) := by
  apply h.rephase (h.enter hfree rfl)
  · rcases hphase with hphase | hphase <;> simp [hphase, Phase.inHand]
  · rcases hphase with hphase | hphase <;> simp [hphase, Thread.counts]
  · simp
  · refine .inr ⟨by simp, ?_⟩
    rcases hphase with hphase | hphase <;> simp [hphase, Thread.weight, Phase.active]

theorem Inv.threadNext (h : Inv queue taken s) (hen : s.Enabled (.thread t)) :
    ∃ queue' taken', Inv queue' taken' (s.threadNext t) := by
  obtain ⟨hexit, hen⟩ := hen
  have hcounts := h.counts t
  unfold Server.threadNext
  dsimp only
  cases hphase : (s.tptr t).phase with
  | locking =>
    simp only [hphase] at hen
    exact ⟨queue, taken, h.lockMutex hen (.inl hphase)⟩
  | checking =>
    split_ifs with hempty
    · refine ⟨queue, taken, h.rephase (h.leave ?_ ?_) ?_ ?_ (by simp) (.inl ⟨rfl, ?_⟩)⟩
      · simp [hphase, Phase.holds]
      · simp [Phase.holds]
      · simp [hphase, Phase.inHand]
      · simp [hphase, Thread.counts]
      · exact (h.iget_eq_iput_iff hexit).mp hempty
    · refine ⟨queue, taken, h.rephase (h.stay ?_) ?_ ?_ ?_ (.inr ⟨by simp, ?_⟩)⟩
      · simp [hphase, Phase.holds]
      · simp [hphase, Phase.inHand]
      · simp [hphase, Thread.counts]
      · intro connfd hconn
        obtain ⟨x, rest, rfl⟩ :=
          List.exists_cons_of_ne_nil fun hnil => hempty ((h.iget_eq_iput_iff hexit).mpr hnil)
        rw [Phase.advancing.injEq, h.ring.head] at hconn
        exact ⟨rest, by rw [hconn]⟩
      · simp [Thread.weight, hphase, Phase.active]
  | waiting => exact ⟨queue, taken, h⟩
  | woken =>
    simp only [hphase] at hen
    exact ⟨queue, taken, h.lockMutex hen (.inr hphase)⟩
  | advancing connfd =>
    obtain ⟨queue', hinv⟩ := h.take hphase hexit
    exact ⟨queue', _, hinv⟩
  | unlocking connfd =>
    refine ⟨queue, taken, h.rephase (h.leave ?_ ?_) ?_ ?_ (by simp) (.inr ⟨by simp, ?_⟩)⟩
    · simp [hphase, Phase.holds]
    · simp [Phase.holds]
    · simp [hphase, Phase.inHand]
    · simp [hphase, Thread.counts]
    · simp [Thread.weight, hphase, Phase.active]
  | counting connfd =>
    have hreceived : Thread.received { s.tptr t with
        phase := .serving connfd, thread_count := (s.tptr t).thread_count + 1 } =
        (s.tptr t).received := by
      simp [Thread.received, hphase, Phase.inHand]
    refine ⟨queue, taken, h.move (h.stay ?_) hreceived ?_
      ((h.answers t).of_received rfl hreceived) (by simp) (.inr ⟨by simp, ?_⟩)⟩
    · simp [hphase, Phase.holds]
    · simpa [Thread.counts, hphase] using hcounts
    · simp [Thread.weight, hphase, Phase.active]
  | serving connfd => exact ⟨queue, taken, h⟩
  | closing connfd =>
    have hreceived : Thread.received { s.tptr t with
        phase := .locking, served := (s.tptr t).served ++ [connfd] } = (s.tptr t).received := by
      simp [Thread.received, hphase, Phase.inHand]
    refine ⟨queue, taken, h.move (h.stay ?_) hreceived ?_
      ((h.answers t).of_received rfl hreceived) (by simp) (.inr ⟨by simp, ?_⟩)⟩
    · simp [hphase, Phase.holds]
    · simpa [Thread.counts, hphase] using hcounts
    · simp [Thread.weight, hphase, Phase.active]

theorem Inv.webChild (h : Inv queue taken s) (hexit : s.exited = none) {sockfd : ℤ}
    (hphase : (s.tptr t).phase = .serving sockfd) (web : Web) :
    Inv queue taken (s.webChild t web) := by
  have hmem : sockfd ∈ (s.tptr t).received := by simp [Thread.received, hphase, Phase.inHand]
  unfold Server.webChild
  simp only [hphase]
  cases web with
  | line ntowrite =>
    dsimp only
    split_ifs with hrange
    · exact h.exit hexit (by simp)
    · rw [← hphase]
      refine h.move (h.stay rfl) rfl (h.counts t) ?_ (by simp [hphase])
        (.inr ⟨by simp [hphase], le_rfl⟩)
      intro p hp
      rcases List.mem_append.mp hp with hp | hp
      · exact h.answers t p hp
      · rw [List.mem_singleton.mp hp]
        exact ⟨hmem, by omega⟩
  | closed =>
    apply h.rephase (h.stay ?_) ?_ ?_ (by simp) (.inr ⟨by simp, ?_⟩)
    · simp [hphase, Phase.holds]
    · simp [hphase, Phase.inHand]
    · simp [hphase, Thread.counts]
    · simp [Thread.weight, hphase, Phase.active]
  | failed => exact h.exit hexit (by simp)

theorem Inv.spurious (h : Inv queue taken s) (hphase : (s.tptr t).phase = .waiting) :
    Inv queue taken (s.move t { s.tptr t with phase := .woken } s.clifd_mutex) := by
  apply h.rephase (h.stay ?_) ?_ ?_ (by simp) (.inr ⟨by simp, ?_⟩)
  · simp [hphase, Phase.holds]
  · simp [hphase, Phase.inHand]
  · simp [hphase, Thread.counts]
  · simp [Thread.weight, hphase, Phase.active]

/-! ## The main thread -/

theorem Inv.main (h : Inv queue taken s) {m : Main} {mutex : Option (Option τ)}
    {accepted : List ℤ}
    (hlock : Exclusive mutex { s with main := m, clifd_mutex := mutex }.inside)
    (horder : taken.map Prod.snd ++ queue ++ m.inHand = accepted)
    (hstored : ∀ connfd, m ≠ .advancing connfd) (hsignal : s.main.pending ≤ m.pending) :
    Inv queue taken { s with main := m, clifd_mutex := mutex, accepted := accepted } where
  lock := hlock
  ring := h.ring
  order := horder
  own := h.own
  counts := h.counts
  answers := h.answers
  stored := fun connfd hm => absurd hm (hstored connfd)
  fetched := h.fetched
  full := h.full
  woken := fun hwaiting => (h.woken hwaiting).trans (Nat.add_le_add_left hsignal s.active)

theorem Inv.mainNext (h : Inv queue taken s) (hen : s.Enabled .main) :
    ∃ queue', Inv queue' taken s.mainNext := by
  obtain ⟨hexit, hen⟩ := hen
  have horder := h.order
  have hlock := h.lock
  unfold Server.mainNext
  cases hmain : s.main with
  | accepting => simp [hmain] at hen
  | locking connfd =>
    simp only [hmain] at hen
    rw [hen] at hlock
    refine ⟨queue, h.main (hlock.enter ?_ inside_main_of_ne) ?_ (by simp)
      (by simp [hmain, Main.pending])⟩
    · simp [inside, Main.holds]
    · simpa [hmain, Main.inHand] using horder
  | storing connfd =>
    have hwoken := h.woken
    rw [hmain] at hwoken
    refine ⟨queue, ?_, h.ring.scratch (h.room hexit) connfd, ?_, h.own, h.counts, h.answers, ?_,
      h.fetched, h.full, hwoken⟩
    · apply hlock.stay
      rintro (_ | u)
      · simp [inside, Main.holds, hmain]
      · rfl
    · simpa [hmain, Main.inHand] using horder
    · intro connfd' heq
      cases heq
      exact update_self ..
  | advancing connfd =>
    have hput := h.ring.put (h.room hexit) connfd
    rw [← h.stored connfd hmain, update_eq_self, h.stored connfd hmain,
      ← advance_eq h.ring.iput_lt] at hput
    refine ⟨queue ++ [connfd], ?_, hput, ?_, h.own, h.counts, h.answers, by simp, ?_, ?_, ?_⟩
    · apply hlock.stay
      rintro (_ | u)
      · simp [inside, Main.holds, hmain]
      · rfl
    · simpa [hmain, Main.inHand] using horder
    · intro u connfd' hu
      obtain ⟨rest, rfl⟩ := h.fetched u connfd' hu
      exact ⟨rest ++ [connfd], rfl⟩
    · have hiff := hput.iput_eq_iget_iff
      rw [or_iff_right (by simp)] at hiff
      rw [← hiff, hexit]
      simp
    · -- the signal for the new connection is still to come
      intro hwaiting
      have hold := h.woken hwaiting
      rw [hmain] at hold
      rw [List.length_append, List.length_singleton]
      exact Nat.succ_le_succ hold
  | signalling => simp [hmain] at hen
  | unlocking =>
    refine ⟨queue, h.main (hlock.leave (t := none) ?_ ?_ inside_main_of_ne) ?_ (by simp)
      (by simp [hmain, Main.pending])⟩
    · simp [inside, Main.holds, hmain]
    · simp [inside, Main.holds]
    · simpa [hmain, Main.inHand] using horder

theorem Inv.signal (h : Inv queue taken s) {woken : τ → Bool}
    (hen : s.Enabled (.signal woken)) : Inv queue taken (s.next (.signal woken)) where
  lock := by
    apply h.lock.stay
    rintro (_ | u)
    · simp [inside, Server.next, Main.holds, hen.2.1]
    · simp only [inside, Server.next]
      split_ifs with hu
      · simp [Phase.holds, hu.1]
      · rfl
  ring := h.ring
  order := by simpa [Server.next, Main.inHand, hen.2.1] using h.order
  own := by
    intro u
    rw [h.own u]
    simp only [Server.next]
    split_ifs with hu
    · simp [Thread.received, Phase.inHand, hu.1]
    · rfl
  counts := by
    intro u
    have hcounts := h.counts u
    simp only [Server.next]
    split_ifs with hu
    · simpa [Thread.counts, hu.1] using hcounts
    · exact hcounts
  answers := by
    intro u
    simp only [Server.next]
    split_ifs with hu
    · exact (h.answers u).of_received rfl (by simp [Thread.received, Phase.inHand, hu.1])
    · exact h.answers u
  stored := by simp [Server.next]
  fetched := by
    intro u connfd hu
    simp only [Server.next] at hu
    split_ifs at hu with hw
    exact h.fetched u connfd hu
  full := h.full
  woken := by
    rintro ⟨u, hu⟩
    have hwaiting : (s.tptr u).phase = .waiting := by
      simp only [Server.next] at hu
      split_ifs at hu
      exact hu
    have hold := h.woken ⟨u, hwaiting⟩
    obtain ⟨t, ht, hwoken⟩ := hen.2.2 ⟨u, hwaiting⟩
    -- one thread more is about to look into the ring
    have hactive : s.active < (s.next (.signal woken)).active := by
      apply Census.total_lt (a := t)
      · intro a
        simp only [Server.next]
        split_ifs with ha
        · simp [Thread.weight, ha.1, Phase.active]
        · exact le_rfl
      · simp [Server.next, ht, hwoken, Thread.weight, Phase.active]
    rw [hen.2.1] at hold
    exact hold.trans hactive

theorem Inv.next (h : Inv queue taken s) {i : Input τ} (hen : s.Enabled i) :
    ∃ queue' taken', Inv queue' taken' (s.next i) := by
  cases i with
  | accept connfd =>
    refine ⟨queue, taken, h.main (h.lock.stay ?_) ?_ (by simp)
      (by simp [hen.2, Main.pending])⟩
    · rintro (_ | u)
      · simp [inside, Main.holds, hen.2]
      · rfl
    · have horder := h.order
      simp only [hen.2, Main.inHand, List.append_nil] at horder
      rw [← horder]
      rfl
  | acceptFails => exact ⟨queue, taken, h.exit hen.1 (by simp)⟩
  | main =>
    obtain ⟨queue', hinv⟩ := h.mainNext hen
    exact ⟨queue', taken, hinv⟩
  | signal woken => exact ⟨queue, taken, h.signal hen⟩
  | thread t => exact h.threadNext hen
  | spurious t => exact ⟨queue, taken, h.spurious hen.2⟩
  | client t web =>
    obtain ⟨hexit, sockfd, hphase⟩ := hen
    exact ⟨queue, taken, h.webChild hexit hphase web⟩
  | sigint => exact ⟨queue, taken, h.exit hen.1 (by simp)⟩

def Reachable (s : Server τ) : Prop := Interleaving.Reachable next Enabled {} s

theorem Reachable.inv (h : s.Reachable) : ∃ queue taken, Inv queue taken s := by
  apply Interleaving.Reachable.invariant h fun s => ∃ queue taken, Inv queue taken s
  · exact ⟨[], [], inv_init⟩
  · rintro s i ⟨queue, taken, h⟩ hen
    exact h.next hen

end Server

end NetworkPrograms.Prethreaded
