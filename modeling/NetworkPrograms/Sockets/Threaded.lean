import NetworkPrograms.Sockets.Upcase

/-!
# The server with a thread for each client

`server3.c` keeps the descriptors of its clients in the array `ttid`, so that the thread which
is started for a client finds its descriptor there, however late it looks. The places of the
array are used one after the other and never again, and nothing keeps the index inside it.
After a store behind the array, or after `pthread_detach` of a thread that was not created, the
behaviour is undefined: any state may follow.
-/
namespace NetworkPrograms.Sockets.Threaded

open Function
open Kernel (toupper)

def SIZE : ℕ := 256

/-- The process has ended with `exit` or by a signal, or can do anything. -/
inductive Status where
  | running
  | exited
  | undefined
  deriving DecidableEq

inductive Phase where
  | accept
  | store (cfd : ℤ)
  | create
  | increment
  deriving DecidableEq

/-- The thread that is given a place of the array, with its descriptor and what it has read and
not written back yet. -/
inductive Worker where
  | none
  | started
  | serving (cfd : ℤ) (buf : Bytes)
  | done
  deriving DecidableEq

def Worker.buf : Worker → Bytes
  | .serving _ buf => buf
  | _ => []

/-- The process, with the connections numbered as they are accepted. `opened` tells the
connection of an open descriptor. -/
structure Server where
  status : Status := .running
  phase : Phase := .accept
  i : ℕ := 0
  ttid : ℕ → ℤ := fun _ => 0
  count : ℕ := 0
  accepted : ℕ → Option ℤ := fun _ => none
  opened : ℤ → Option ℕ := fun _ => none
  worker : ℕ → Worker := fun _ => .none
  conn : ℕ → Conn := fun _ => {}

inductive Input where
  | accept (cfd : ℤ)
  | acceptError
  | store
  | create (ret : Bool)
  | increment
  | start (k : ℕ)
  | read (k n : ℕ)
  | readError (k : ℕ)
  | write (k m : ℕ)
  | finish (k : ℕ)
  | sigpipe
  | arrive (j : ℕ) (bytes : Bytes)
  | fin (j : ℕ)
  | reset (j : ℕ)
  | undefined (t : Server)

namespace Server

def onConn (s : Server) (j : ℕ) (f : Conn → Conn) : Server :=
  { s with conn := update s.conn j (f (s.conn j)) }

/-- `read(cfd,buf,sizeof(buf))` of a thread reaches the connection that is open there. -/
def readOn (s : Server) (k : ℕ) (cfd : ℤ) (n : ℕ) : Server :=
  match s.opened cfd with
  | some j =>
    { s with
      worker := update s.worker k (.serving cfd ((s.conn j).upper n))
      conn := update s.conn j ((s.conn j).read n) }
  | none => s

def writeOn (s : Server) (k : ℕ) (cfd : ℤ) (buf : Bytes) (m : ℕ) : Server :=
  match s.opened cfd with
  | some j =>
    { s with
      worker := update s.worker k (.serving cfd [])
      conn := update s.conn j ((s.conn j).write buf m) }
  | none => s

def storeAt (s : Server) (cfd : ℤ) : Server :=
  if s.i < SIZE then { s with phase := .create, ttid := update s.ttid s.i cfd }
  else { s with status := .undefined }

def next (s : Server) : Input → Server
  | .accept cfd =>
    { s with
      phase := .store cfd, count := s.count + 1
      accepted := update s.accepted s.count (some cfd)
      opened := update s.opened cfd (some s.count) }
  | .acceptError => { s with status := .exited }
  | .store =>
    match s.phase with
    | .store cfd => s.storeAt cfd
    | _ => s
  | .create true => { s with phase := .increment, worker := update s.worker s.i .started }
  | .create false =>
    -- the result is not looked at, and `pthread_detach` gets what `tid` held before
    { s with status := .undefined }
  | .increment => { s with phase := .accept, i := s.i + 1 }
  | .start k => { s with worker := update s.worker k (.serving (s.ttid k) []) }
  | .read k n =>
    match s.worker k with
    | .serving cfd _ => s.readOn k cfd n
    | _ => s
  | .readError _ => s
  | .write k m =>
    match s.worker k with
    | .serving cfd buf => s.writeOn k cfd buf m
    | _ => s
  | .finish k =>
    match s.worker k with
    | .serving cfd _ =>
      { s with worker := update s.worker k .done, opened := update s.opened cfd none }
    | _ => s
  | .sigpipe => { s with status := .exited }
  | .arrive j bytes => s.onConn j fun c => c.arrive bytes
  | .fin j => s.onConn j Conn.fin
  | .reset j => s.onConn j Conn.rst
  | .undefined t => { t with status := .undefined }

/-- What the descriptor of a worker is open on, and what the worker has in its buffer. -/
def Serves (s : Server) (k : ℕ) (p : Bytes → Conn → Prop) : Prop :=
  ∃ cfd buf j, s.worker k = .serving cfd buf ∧ s.opened cfd = some j ∧ p buf (s.conn j)

/-- The steps of the process, and those of the clients whose connection it has not closed. -/
def Enabled (s : Server) : Input → Prop
  | .accept cfd => s.status = .running ∧ s.phase = .accept ∧ s.opened cfd = none
  | .acceptError => s.status = .running ∧ s.phase = .accept
  | .store => s.status = .running ∧ ∃ cfd, s.phase = .store cfd
  | .create _ => s.status = .running ∧ s.phase = .create
  | .increment => s.status = .running ∧ s.phase = .increment
  | .start k => s.status = .running ∧ s.worker k = .started
  | .read k n => s.status = .running ∧ s.Serves k fun buf c => buf = [] ∧ c.Readable n
  | .readError k => s.status = .running ∧ s.Serves k fun buf _ => buf = []
  | .write k m => s.status = .running ∧ s.Serves k fun buf _ => buf ≠ [] ∧ m ≤ buf.length
  | .finish k => s.status = .running ∧ s.Serves k fun buf c => buf = [] ∧ c.AtEnd
  | .sigpipe => s.status = .running
  | .arrive j _ => s.worker j ≠ .done ∧ (s.conn j).Live
  | .fin j => s.worker j ≠ .done ∧ (s.conn j).Live
  | .reset j => s.worker j ≠ .done ∧ (s.conn j).reset = false
  | .undefined _ => s.status = .undefined

def Reachable (s : Server) : Prop := Interleaving.Reachable next Enabled {} s

/-! ## The connections -/

structure Kept (s : Server) : Prop where
  answered : ∀ j, (s.conn j).Answered (s.worker j).buf
  ended : ∀ j, s.worker j = .done → (s.conn j).AtEnd

theorem Kept.congr {s t : Server} (h : s.Kept) (hworker : t.worker = s.worker)
    (hconn : t.conn = s.conn) : t.Kept := by
  constructor
  · rw [hworker, hconn]
    exact h.answered
  · rw [hworker, hconn]
    exact h.ended

theorem Kept.update {s t : Server} (h : s.Kept) {k : ℕ} {w : Worker} {c : Conn}
    (hworker : t.worker = update s.worker k w) (hconn : t.conn = update s.conn k c)
    (hanswered : c.Answered w.buf) (hended : w = .done → c.AtEnd) : t.Kept := by
  constructor
  · intro j
    rw [hworker, hconn]
    by_cases hj : j = k
    · subst hj
      rw [update_self, update_self]
      exact hanswered
    · rw [update_of_ne hj, update_of_ne hj]
      exact h.answered j
  · intro j
    rw [hworker, hconn]
    by_cases hj : j = k
    · subst hj
      rw [update_self, update_self]
      exact hended
    · rw [update_of_ne hj, update_of_ne hj]
      exact h.ended j

theorem Kept.onConn {s : Server} (h : s.Kept) {j : ℕ} (hj : s.worker j ≠ .done) {f : Conn → Conn}
    (hdone : (f (s.conn j)).done = (s.conn j).done)
    (hsent : (f (s.conn j)).sent = (s.conn j).sent)
    (hshort : (f (s.conn j)).short = (s.conn j).short) : (s.onConn j f).Kept :=
  h.update (update_eq_self j s.worker).symm rfl ((h.answered j).congr hdone hsent hshort)
    fun hdone => absurd hdone hj

/-! ## The descriptors -/

structure Sound (s : Server) : Prop where
  index : s.i + (if s.phase = .accept then 0 else 1) = s.count
  inside : s.i ≤ SIZE ∧ (s.phase = .create ∨ s.phase = .increment → s.i < SIZE)
  accepted_lt : ∀ j cfd, s.accepted j = some cfd → j < s.count
  stored : ∀ j cfd, s.accepted j = some cfd →
    j < s.i ∨ s.phase = .create ∨ s.phase = .increment → s.ttid j = cfd
  storing : ∀ cfd, s.phase = .store cfd → s.accepted s.i = some cfd
  opened_iff : ∀ cfd j, s.opened cfd = some j ↔ s.accepted j = some cfd ∧ s.worker j ≠ .done
  worker_lt : ∀ j, s.worker j ≠ .none → j < s.i ∨ j = s.i ∧ s.phase = .increment
  serving : ∀ j cfd buf, s.worker j = .serving cfd buf → s.accepted j = some cfd
  present : ∀ j, j < s.count → ∃ cfd, s.accepted j = some cfd

theorem sound_init : Sound {} := by
  constructor <;> simp [SIZE]

theorem Sound.accept {s : Server} (h : s.Sound) {cfd : ℤ} (hphase : s.phase = .accept)
    (hnone : s.opened cfd = none) : (s.next (.accept cfd)).Sound := by
  have hcount : s.i = s.count := by simpa [hphase] using h.index
  have hnew : s.accepted s.count = none := by
    rw [Option.eq_none_iff_forall_ne_some]
    intro fd hfd
    exact absurd (h.accepted_lt _ _ hfd) (lt_irrefl _)
  have hidle : s.worker s.count = .none := by
    by_contra hworker
    rcases h.worker_lt _ hworker with hlt | ⟨-, hinc⟩
    · omega
    · simp [hphase] at hinc
  constructor
  · simp [Server.next, hcount]
  · simpa [Server.next] using h.inside.1
  · intro j fd hj
    simp only [Server.next] at hj ⊢
    by_cases hjc : j = s.count
    · omega
    · rw [update_of_ne hjc] at hj
      exact Nat.lt_succ_of_lt (h.accepted_lt j fd hj)
  · intro j fd hj hlt
    simp only [Server.next] at hj hlt ⊢
    have hji : j < s.i := by simpa using hlt
    rw [update_of_ne (by omega)] at hj
    exact h.stored j fd hj (.inl hji)
  · intro fd hfd
    simp only [Server.next, Phase.store.injEq] at hfd ⊢
    rw [hcount, update_self, hfd]
  · intro fd j
    simp only [Server.next]
    by_cases hfd : fd = cfd
    · subst hfd
      rw [update_self]
      by_cases hj : j = s.count
      · subst hj
        simp [hidle]
      · rw [update_of_ne hj, ← h.opened_iff, hnone]
        simp [Ne.symm hj]
    · rw [update_of_ne hfd, h.opened_iff]
      by_cases hj : j = s.count
      · subst hj
        simp [hnew, Ne.symm hfd]
      · rw [update_of_ne hj]
  · intro j hj
    rcases h.worker_lt j hj with hlt | ⟨-, hinc⟩
    · exact .inl hlt
    · simp [hphase] at hinc
  · intro j fd buf hj
    have hjc : j ≠ s.count := by
      rintro rfl
      simp [Server.next, hidle] at hj
    simp only [Server.next, update_of_ne hjc]
    exact h.serving j fd buf hj
  · intro j hj
    simp only [Server.next] at hj ⊢
    by_cases hjc : j = s.count
    · exact ⟨cfd, by rw [hjc, update_self]⟩
    · rw [update_of_ne hjc]
      exact h.present j (by omega)

theorem Sound.store {s : Server} (h : s.Sound) {cfd : ℤ} (hphase : s.phase = .store cfd)
    (hinside : s.i < SIZE) : Sound { s with phase := .create, ttid := update s.ttid s.i cfd } := by
  have hindex : s.i + 1 = s.count := by simpa [hphase] using h.index
  exact { h with
    index := by simpa using hindex
    inside := ⟨h.inside.1, fun _ => hinside⟩
    stored := by
      intro j fd hj _
      by_cases hji : j = s.i
      · subst hji
        rw [h.storing cfd hphase, Option.some.injEq] at hj
        simpa using hj
      · have hlt : j < s.i := by
          have := h.accepted_lt j fd hj
          omega
        simp only [update_of_ne hji]
        exact h.stored j fd hj (.inl hlt)
    storing := by simp
    worker_lt := by
      intro j hj
      rcases h.worker_lt j hj with hlt | ⟨-, hinc⟩
      · exact .inl hlt
      · simp [hphase] at hinc }

theorem Sound.idle {s : Server} (h : s.Sound) (hphase : s.phase = .create) :
    s.worker s.i = .none := by
  by_contra hworker
  rcases h.worker_lt _ hworker with hlt | ⟨-, hinc⟩
  · omega
  · simp [hphase] at hinc

theorem Sound.create {s : Server} (h : s.Sound) (hphase : s.phase = .create) :
    (s.next (.create true)).Sound := by
  have hindex : s.i + 1 = s.count := by simpa [hphase] using h.index
  have hidle := h.idle hphase
  -- the worker of this place is the only one that changes
  have hdone : ∀ j, (s.next (.create true)).worker j = .done ↔ s.worker j = .done := by
    intro j
    by_cases hj : j = s.i
    · subst hj
      simp [Server.next, hidle]
    · simp [Server.next, hj]
  exact { h with
    index := by simpa [Server.next] using hindex
    inside := ⟨h.inside.1, fun _ => h.inside.2 (.inl hphase)⟩
    stored := fun j fd hj _ => h.stored j fd hj (.inr (.inl hphase))
    storing := by simp [Server.next]
    opened_iff := by
      intro fd j
      rw [ne_eq, hdone]
      exact h.opened_iff fd j
    worker_lt := by
      intro j hj
      by_cases hji : j = s.i
      · exact .inr ⟨hji, rfl⟩
      · simp only [Server.next, update_of_ne hji] at hj
        rcases h.worker_lt j hj with hlt | ⟨heq, -⟩
        · exact .inl hlt
        · exact absurd heq hji
    serving := by
      intro j fd buf hj
      by_cases hji : j = s.i
      · subst hji
        simp [Server.next] at hj
      · simp only [Server.next, update_of_ne hji] at hj
        exact h.serving j fd buf hj }

theorem Sound.increment {s : Server} (h : s.Sound) (hphase : s.phase = .increment) :
    (s.next .increment).Sound := by
  have hindex : s.i + 1 = s.count := by simpa [hphase] using h.index
  exact { h with
    index := by simpa [Server.next] using hindex
    inside := ⟨h.inside.2 (.inr hphase), by simp [Server.next]⟩
    stored := fun j fd hj _ => h.stored j fd hj (.inr (.inr hphase))
    storing := by simp [Server.next]
    worker_lt := by
      intro j hj
      simp only [Server.next]
      rcases h.worker_lt j hj with hlt | ⟨heq, -⟩ <;> omega }

theorem Sound.serve {s : Server} (h : s.Sound) {k : ℕ} {cfd : ℤ} {buf : Bytes}
    (hnone : s.worker k ≠ .none) (hdone : s.worker k ≠ .done) (hcfd : s.accepted k = some cfd)
    {conn : ℕ → Conn} :
    Sound { s with worker := update s.worker k (.serving cfd buf), conn := conn } := by
  have hiff : ∀ j, update s.worker k (.serving cfd buf) j = .done ↔ s.worker j = .done := by
    intro j
    by_cases hj : j = k
    · subst hj
      simp [hdone]
    · rw [update_of_ne hj]
  exact { h with
    opened_iff := by
      intro fd j
      rw [ne_eq, hiff]
      exact h.opened_iff fd j
    worker_lt := by
      intro j hj
      by_cases hjk : j = k
      · subst hjk
        exact h.worker_lt j hnone
      · simp only [update_of_ne hjk] at hj
        exact h.worker_lt j hj
    serving := by
      intro j fd buf' hj
      by_cases hjk : j = k
      · subst hjk
        simp only [update_self, Worker.serving.injEq] at hj
        rw [← hj.1]
        exact hcfd
      · simp only [update_of_ne hjk] at hj
        exact h.serving j fd buf' hj }

theorem Sound.found {s : Server} (h : s.Sound) {k : ℕ} (hk : s.worker k = .started) :
    s.accepted k = some (s.ttid k) := by
  have hplace := h.worker_lt k (by simp [hk])
  have hk' : k < s.count := by
    have hindex := h.index
    rcases hplace with hlt | ⟨heq, hinc⟩
    · omega
    · rw [hinc] at hindex
      simp at hindex
      omega
  obtain ⟨cfd, hcfd⟩ := h.present k hk'
  rw [hcfd, h.stored k cfd hcfd]
  rcases hplace with hlt | ⟨-, hinc⟩
  · exact .inl hlt
  · exact .inr (.inr hinc)

theorem Sound.opened_of_serving {s : Server} (h : s.Sound) {k : ℕ} {cfd : ℤ} {buf : Bytes}
    (hk : s.worker k = .serving cfd buf) : s.opened cfd = some k :=
  (h.opened_iff cfd k).mpr ⟨h.serving k cfd buf hk, by simp [hk]⟩

theorem Sound.finish {s : Server} (h : s.Sound) {k : ℕ} {cfd : ℤ} {buf : Bytes}
    (hk : s.worker k = .serving cfd buf) :
    Sound { s with worker := update s.worker k .done, opened := update s.opened cfd none } := by
  have hopened := h.opened_of_serving hk
  have haccepted := h.serving k cfd buf hk
  exact { h with
    opened_iff := by
      intro fd j
      change update s.opened cfd none fd = some j ↔
        s.accepted j = some fd ∧ update s.worker k .done j ≠ .done
      by_cases hfd : fd = cfd
      · subst hfd
        by_cases hj : j = k
        · subst hj
          simp
        · rw [update_self, update_of_ne hj, ← h.opened_iff, hopened]
          simp [Ne.symm hj]
      · rw [update_of_ne hfd, h.opened_iff]
        by_cases hj : j = k
        · subst hj
          simp [haccepted, Ne.symm hfd]
        · rw [update_of_ne hj]
    worker_lt := by
      intro j hj
      by_cases hjk : j = k
      · subst hjk
        exact h.worker_lt j (by simp [hk])
      · simp only [update_of_ne hjk] at hj
        exact h.worker_lt j hj
    serving := by
      intro j fd buf' hj
      by_cases hjk : j = k
      · subst hjk
        simp at hj
      · simp only [update_of_ne hjk] at hj
        exact h.serving j fd buf' hj }

/-! ## The process -/

structure Inv (s : Server) : Prop where
  kept : s.status ≠ .undefined → s.Kept
  sound : s.status = .running → s.Sound

theorem inv_init : Inv {} where
  kept := fun _ => ⟨fun _ => Conn.answered_init, by simp⟩
  sound := fun _ => sound_init

theorem inv_of_undefined {s : Server} (h : s.status = .undefined) : s.Inv where
  kept := fun hne => absurd h hne
  sound := by simp [h]

theorem Inv.exited {s : Server} (h : s.Inv) (hstatus : s.status = .running) :
    Inv { s with status := .exited } where
  kept := fun _ => (h.kept (by simp [hstatus])).congr rfl rfl
  sound := by simp

theorem Inv.onConn {s : Server} (h : s.Inv) {j : ℕ} (hj : s.worker j ≠ .done) {f : Conn → Conn}
    (hdone : (f (s.conn j)).done = (s.conn j).done)
    (hsent : (f (s.conn j)).sent = (s.conn j).sent)
    (hshort : (f (s.conn j)).short = (s.conn j).short) : (s.onConn j f).Inv where
  kept := fun hne => (h.kept hne).onConn hj hdone hsent hshort
  sound := fun hrunning => { h.sound hrunning with }

theorem Inv.store {s : Server} (h : s.Inv) (hstatus : s.status = .running) {cfd : ℤ}
    (hphase : s.phase = .store cfd) : (s.next .store).Inv := by
  have hkept := h.kept (by simp [hstatus])
  simp only [Server.next, hphase, storeAt]
  split_ifs with hinside
  · exact ⟨fun _ => hkept.congr rfl rfl, fun _ => (h.sound hstatus).store hphase hinside⟩
  · exact inv_of_undefined rfl

theorem Inv.read {s : Server} (h : s.Inv) (hstatus : s.status = .running) {k : ℕ} {cfd : ℤ}
    (hk : s.worker k = .serving cfd []) (n : ℕ) : (s.next (.read k n)).Inv := by
  have hkept := h.kept (by simp [hstatus])
  have hsound := h.sound hstatus
  simp only [Server.next, hk, readOn, hsound.opened_of_serving hk]
  have hanswered := hkept.answered k
  rw [hk] at hanswered
  constructor
  · exact fun _ => hkept.update rfl rfl (hanswered.read n) (by simp)
  · exact fun _ => hsound.serve (by simp [hk]) (by simp [hk]) (hsound.serving k cfd [] hk)

theorem Inv.write {s : Server} (h : s.Inv) (hstatus : s.status = .running) {k : ℕ} {cfd : ℤ}
    {buf : Bytes} (hk : s.worker k = .serving cfd buf) (m : ℕ) : (s.next (.write k m)).Inv := by
  have hkept := h.kept (by simp [hstatus])
  have hsound := h.sound hstatus
  simp only [Server.next, hk, writeOn, hsound.opened_of_serving hk]
  have hanswered := hkept.answered k
  rw [hk] at hanswered
  constructor
  · exact fun _ => hkept.update rfl rfl (hanswered.write m) (by simp)
  · exact fun _ => hsound.serve (by simp [hk]) (by simp [hk]) (hsound.serving k cfd buf hk)

theorem Inv.finish {s : Server} (h : s.Inv) (hstatus : s.status = .running) {k : ℕ} {cfd : ℤ}
    (hk : s.worker k = .serving cfd []) (hend : (s.conn k).AtEnd) :
    (s.next (.finish k)).Inv := by
  have hkept := h.kept (by simp [hstatus])
  simp only [Server.next, hk]
  have hanswered := hkept.answered k
  rw [hk] at hanswered
  constructor
  · exact fun _ => hkept.update rfl (update_eq_self k s.conn).symm hanswered fun _ => hend
  · exact fun _ => (h.sound hstatus).finish hk

theorem Inv.next {s : Server} (h : s.Inv) {i : Input} (hi : s.Enabled i) : (s.next i).Inv := by
  cases i with
  | accept cfd =>
    obtain ⟨hstatus, hphase, hnone⟩ := hi
    have hkept := h.kept (by simp [hstatus])
    exact ⟨fun _ => hkept.congr rfl rfl, fun _ => (h.sound hstatus).accept hphase hnone⟩
  | acceptError => exact h.exited hi.1
  | store =>
    obtain ⟨hstatus, cfd, hphase⟩ := hi
    exact h.store hstatus hphase
  | create ret =>
    obtain ⟨hstatus, hphase⟩ := hi
    cases ret with
    | false => exact inv_of_undefined rfl
    | true =>
      have hkept := h.kept (by simp [hstatus])
      have hanswered := hkept.answered s.i
      rw [(h.sound hstatus).idle hphase] at hanswered
      constructor
      · exact fun _ => hkept.update rfl (update_eq_self s.i s.conn).symm hanswered (by simp)
      · exact fun _ => (h.sound hstatus).create hphase
  | increment =>
    obtain ⟨hstatus, hphase⟩ := hi
    have hkept := h.kept (by simp [hstatus])
    exact ⟨fun _ => hkept.congr rfl rfl, fun _ => (h.sound hstatus).increment hphase⟩
  | start k =>
    obtain ⟨hstatus, hk⟩ := hi
    have hkept := h.kept (by simp [hstatus])
    have hsound := h.sound hstatus
    have hanswered := hkept.answered k
    rw [hk] at hanswered
    constructor
    · exact fun _ => hkept.update rfl (update_eq_self k s.conn).symm hanswered (by simp)
    · exact fun _ => hsound.serve (by simp [hk]) (by simp [hk]) (hsound.found hk)
  | read k n =>
    obtain ⟨hstatus, cfd, buf, j, hk, -, rfl, -⟩ := hi
    exact h.read hstatus hk n
  | readError k => exact h
  | write k m =>
    obtain ⟨hstatus, cfd, buf, j, hk, -⟩ := hi
    exact h.write hstatus hk m
  | finish k =>
    obtain ⟨hstatus, cfd, buf, j, hk, hj, rfl, hend⟩ := hi
    cases ((h.sound hstatus).opened_of_serving hk).symm.trans hj
    exact h.finish hstatus hk hend
  | sigpipe => exact h.exited hi
  | arrive j bytes => exact h.onConn hi.1 (f := fun c => c.arrive bytes) rfl rfl rfl
  | fin j => exact h.onConn hi.1 (f := Conn.fin) rfl rfl rfl
  | reset j => exact h.onConn hi.1 (f := Conn.rst) rfl rfl rfl
  | undefined t => exact inv_of_undefined rfl

theorem Reachable.inv {s : Server} (h : s.Reachable) : s.Inv :=
  Interleaving.Reachable.invariant h Inv inv_init fun _ _ hinv hi => hinv.next hi

/-- Every thread works for its own client, in every interleaving: the descriptor that it has
found in the array is open on the connection with the number of its place. What it has sent and
has in its buffer is part of what it has read, in capitals and in order, and it is all of it
exactly when no write has taken less than it was given; so it is with all that the client sent
when the thread has closed a connection that was not reset. All this is for as long as the
behaviour is defined, which it is no longer after the store for the client that comes after the
array has been used up, however many of the others have left. -/
theorem workers_apart {s : Server} (h : s.Reachable) :
    (s.status = .running →
      (∀ k cfd buf, s.worker k = .serving cfd buf → s.opened cfd = some k) ∧
      (∀ k, s.worker k = .done → ∀ cfd, s.opened cfd ≠ some k) ∧
      ∀ cfd, s.phase = .store cfd → ((s.next .store).status = .undefined ↔ SIZE < s.count)) ∧
    (s.status ≠ .undefined → ∀ k,
      ((s.conn k).sent ++ (s.worker k).buf).Sublist ((s.conn k).done.map toupper) ∧
      ((s.conn k).sent ++ (s.worker k).buf = (s.conn k).done.map toupper ↔
        (s.conn k).short = false) ∧
      (s.worker k = .done → (s.conn k).reset = false →
        ((s.conn k).sent = (s.conn k).arrived.map toupper ↔ (s.conn k).short = false))) := by
  constructor
  · intro hstatus
    have hsound := h.inv.sound hstatus
    refine ⟨fun k cfd buf hk => hsound.opened_of_serving hk, ?_, ?_⟩
    · intro k hk cfd hcfd
      exact ((hsound.opened_iff cfd k).mp hcfd).2 hk
    · intro cfd hphase
      have hindex : s.i + 1 = s.count := by simpa [hphase] using hsound.index
      simp only [Server.next, hphase, storeAt]
      split_ifs with hinside
      · simp only [hstatus, reduceCtorEq, false_iff]
        omega
      · simp only [true_iff]
        omega
  · intro hstatus k
    have hanswered := (h.inv.kept hstatus).answered k
    refine ⟨hanswered.sublist, hanswered.whole, ?_⟩
    intro hdone
    rw [hdone] at hanswered
    exact hanswered.atEnd ((h.inv.kept hstatus).ended k hdone)

/-- A thread that looks for its descriptor after the main thread has gone on. -/
theorem workers_apart_late : ∃ s : Server, s.Reachable ∧ s.ttid 1 = 5 ∧
    s.worker 0 = .serving 4 [] ∧ s.opened 4 = some 0 := by
  have hreach : Reachable ([.accept 4, .store, .create true, .increment, .accept 5, .store,
      .start 0].foldl next {}) := by
    apply Interleaving.Reachable.foldl .init
    exact ⟨⟨rfl, rfl, rfl⟩, ⟨rfl, _, rfl⟩, ⟨rfl, rfl⟩, ⟨rfl, rfl⟩, ⟨rfl, rfl, rfl⟩, ⟨rfl, _, rfl⟩,
      ⟨rfl, rfl⟩, trivial⟩
  exact ⟨_, hreach, rfl, rfl, ((workers_apart hreach).1 rfl).1 0 4 [] rfl⟩

end Server

end NetworkPrograms.Sockets.Threaded
