import NetworkPrograms.Foundations.Census
import NetworkPrograms.Sockets.Upcase

/-!
# The server with a process for each client

`server2.c` forks a child for every connection, and installs a handler for `SIGCHLD` in the
parent, after the first `fork`. The handler is installed without `SA_RESTART`, so that a signal
which comes while the parent waits in `accept` makes that call fail. Children, clients and the
delivery of signals are interleaved with the parent in every possible way; `SIGCHLD` is pending
or not, however many children end meanwhile.
-/
namespace NetworkPrograms.Sockets.Fork

open Kernel (toupper)

/-- Where the parent is: about to call `accept`, in it without a connection, or before the
call of the same name. -/
inductive Phase where
  | accept
  | blocked
  | fork
  | sigaction
  | close
  | exited
  deriving DecidableEq

/-- A child that has ended is a zombie until the parent waits for it. It is known whether its
end was signalled; a signal without a handler is discarded. -/
inductive Status where
  | running
  | zombie (signalled : Bool)
  | reaped
  deriving DecidableEq

/-- How a child has ended: it has called `exit(1)` at the end of the stream, or a signal has
killed it, as `SIGPIPE` does when the client has gone. -/
inductive ExitStatus where
  | exited
  | signaled
  deriving DecidableEq

/-- A child, with the connections that are open in it, and what it has read from its client and
not written back yet. -/
structure Child where
  fds : List ℕ
  status : Status := .running
  exitStatus : Option ExitStatus := none
  buf : Bytes := []
  conn : Conn := {}

/-- The parent, with the connections that are open in it, and its children in the order of
their connections. When `waited` is set, `waitpid` has found no more children, and the handler
is about to return. -/
structure Server where
  phase : Phase := .accept
  installed : Bool := false
  pending : Bool := false
  handler : Bool := false
  waited : Bool := false
  fds : List ℕ := []
  child : List Child := []

inductive Input where
  | accept (ready : Bool)
  | connect
  | acceptError
  | fork (ret : Bool)
  | sigaction (ret : Bool)
  | close
  | deliver
  | waitpid (i : ℕ)
  | waitNone
  | sigreturn
  | arrive (i : ℕ) (bytes : Bytes)
  | fin (i : ℕ)
  | reset (i : ℕ)
  | read (i n : ℕ)
  | readError (i : ℕ)
  | write (i m : ℕ)
  | exit (i : ℕ)
  | kill (i : ℕ)

def Child.ended (c : Child) (exitStatus : ExitStatus) (status : Status) : Child :=
  { c with status := status, exitStatus := some exitStatus }

namespace Server

def accepted (s : Server) : Server := { s with phase := .fork, fds := s.fds ++ [s.child.length] }

def modify (s : Server) (i : ℕ) (f : Child → Child) : Server :=
  { s with child := s.child.modify i f }

def onConn (s : Server) (i : ℕ) (f : Conn → Conn) : Server :=
  s.modify i fun c => { c with conn := f c.conn }

/-- A child ends. Without a parent it is nobody's zombie. -/
def ended (s : Server) (i : ℕ) (exitStatus : ExitStatus) : Server :=
  if s.phase = .exited then s.modify i fun c => c.ended exitStatus .reaped
  else { s with
    child := s.child.modify i fun c => c.ended exitStatus (.zombie s.installed)
    pending := s.pending || s.installed }

def next (s : Server) : Input → Server
  | .accept true => s.accepted
  | .accept false => { s with phase := .blocked }
  | .connect => s.accepted
  | .acceptError => { s with phase := .exited }
  | .fork true => { s with phase := .sigaction, child := s.child ++ [{ fds := s.fds }] }
  | .fork false => { s with phase := .exited }
  | .sigaction true => { s with phase := .close, installed := true }
  | .sigaction false => { s with phase := .exited }
  | .close => { s with phase := .accept, fds := s.fds.erase (s.child.length - 1) }
  | .deliver => { s with handler := true, waited := false, pending := false }
  | .waitpid i => s.modify i fun c => { c with status := .reaped }
  | .waitNone => { s with waited := true }
  | .sigreturn =>
    -- `accept` fails with `EINTR`, which is an error like any other
    { s with handler := false, phase := if s.phase = .blocked then .exited else s.phase }
  | .arrive i bytes => s.onConn i fun c => c.arrive bytes
  | .fin i => s.onConn i Conn.fin
  | .reset i => s.onConn i Conn.rst
  | .read i n => s.modify i fun c => { c with buf := c.conn.upper n, conn := c.conn.read n }
  | .readError _ => s
  | .write i m => s.modify i fun c => { c with buf := [], conn := c.conn.write c.buf m }
  | .exit i => s.ended i .exited
  | .kill i => s.ended i .signaled

def HasZombie (s : Server) : Prop := ∃ c ∈ s.child, ∃ b, c.status = .zombie b

def IsRunning (s : Server) (i : ℕ) (p : Child → Prop) : Prop :=
  ∃ c, s.child[i]? = some c ∧ c.status = .running ∧ p c

def Enabled (s : Server) : Input → Prop
  | .accept _ => s.handler = false ∧ s.phase = .accept
  | .connect => s.handler = false ∧ s.phase = .blocked
  | .acceptError => s.handler = false ∧ (s.phase = .accept ∨ s.phase = .blocked)
  | .fork _ => s.handler = false ∧ s.phase = .fork
  | .sigaction _ => s.handler = false ∧ s.phase = .sigaction
  | .close => s.handler = false ∧ s.phase = .close
  | .deliver => s.handler = false ∧ s.phase ≠ .exited ∧ s.installed = true ∧ s.pending = true
  | .waitpid i => (s.handler = true ∧ s.waited = false) ∧
      ∃ c, s.child[i]? = some c ∧ ∃ b, c.status = .zombie b
  | .waitNone => (s.handler = true ∧ s.waited = false) ∧ ¬ s.HasZombie
  | .sigreturn => s.handler = true ∧ s.waited = true
  | .arrive i _ => s.IsRunning i fun c => c.conn.Live
  | .fin i => s.IsRunning i fun c => c.conn.Live
  | .reset i => s.IsRunning i fun c => c.conn.reset = false
  | .read i n => s.IsRunning i fun c => c.buf = [] ∧ c.conn.Readable n
  | .readError i => s.IsRunning i fun c => c.buf = []
  | .write i m => s.IsRunning i fun c => c.buf ≠ [] ∧ m ≤ c.buf.length
  | .exit i => s.IsRunning i fun c => c.buf = [] ∧ c.conn.AtEnd
  | .kill i => s.IsRunning i fun _ => True

def Reachable (s : Server) : Prop := Interleaving.Reachable next Enabled {} s

end Server

/-! ## What holds of every child -/

def Each (P : ℕ → Child → Prop) (child : List Child) : Prop :=
  ∀ i c, child[i]? = some c → P i c

theorem Each.mono {P Q : ℕ → Child → Prop} {child : List Child} (h : Each P child)
    (hPQ : ∀ i c, P i c → Q i c) : Each Q child :=
  fun i c hc => hPQ i c (h i c hc)

theorem Each.modify {P Q : ℕ → Child → Prop} {child : List Child} (h : Each P child) {i : ℕ}
    {f : Child → Child} (hothers : ∀ j c, P j c → Q j c)
    (hi : ∀ c, child[i]? = some c → P i c → Q i (f c)) : Each Q (child.modify i f) := by
  intro j c hc
  rw [List.getElem?_modify] at hc
  obtain ⟨c', hc', heq⟩ := Option.map_eq_some_iff.mp hc
  subst heq
  by_cases hij : i = j
  · subst hij
    rw [if_pos rfl]
    exact hi c' hc' (h i c' hc')
  · rw [if_neg hij]
    exact hothers j c' (h j c' hc')

theorem Each.concat {P : ℕ → Child → Prop} {child : List Child} (h : Each P child) {c : Child}
    (hc : P child.length c) : Each P (child ++ [c]) := by
  intro j c' hc'
  rcases Nat.lt_trichotomy j child.length with hlt | rfl | hgt
  · rw [List.getElem?_append_left hlt] at hc'
    exact h j c' hc'
  · rw [List.getElem?_concat_length] at hc'
    cases hc'
    exact hc
  · rw [List.getElem?_eq_none (by simp; omega)] at hc'
    cases hc'

/-- A child in order. When its end was signalled, the parent will still wait for it. -/
structure Child.Fine (heeds : Prop) (i : ℕ) (c : Child) : Prop where
  fds : c.fds = [i]
  answered : c.conn.Answered c.buf
  running : c.status = .running ↔ c.exitStatus = none
  finished : c.exitStatus = some .exited → c.buf = [] ∧ c.conn.AtEnd
  told : c.status = .zombie true → heeds
  early : c.status = .zombie false → i = 0

theorem Child.Fine.ended {heeds heeds' : Prop} {i : ℕ} {c : Child} (h : c.Fine heeds i)
    {exitStatus : ExitStatus} (hend : exitStatus = .exited → c.buf = [] ∧ c.conn.AtEnd)
    {status : Status} (hstatus : status ≠ .running) (htold : status = .zombie true → heeds')
    (hearly : status = .zombie false → i = 0) : (c.ended exitStatus status).Fine heeds' i := by
  constructor
  · exact h.fds
  · exact h.answered
  · exact iff_of_false hstatus (by simp [Child.ended])
  · intro heq
    exact hend (Option.some.inj heq)
  · exact htold
  · exact hearly

namespace Server

/-- The parent is about to wait for its zombies, or will never do so again. -/
def Heeds (s : Server) : Prop :=
  s.pending = true ∨ (s.handler = true ∧ s.waited = false) ∨ s.phase = .exited

structure Inv (s : Server) : Prop where
  child : Each (Child.Fine s.Heeds) s.child
  waiting : s.phase = .accept ∨ s.phase = .blocked → s.fds = []
  forking : s.phase = .fork → s.fds = [s.child.length]
  forked : s.phase = .sigaction ∨ s.phase = .close → s.fds = [s.child.length - 1]
  uninstalled : s.installed = false → s.child.length ≤ 1 ∧ s.phase ≠ .close ∧
    (s.phase = .accept ∨ s.phase = .blocked ∨ s.phase = .fork → s.child.length = 0)
  notified : s.pending = true ∨ s.handler = true → s.installed = true

theorem inv_init : Inv {} := by
  constructor <;> simp [Each]

theorem Inv.child_of_heeds {s : Server} (h : s.Inv) {heeds : Prop} (hheeds : s.Heeds → heeds) :
    Each (Child.Fine heeds) s.child :=
  h.child.mono fun _ _ hc => { hc with told := fun hzombie => hheeds (hc.told hzombie) }

theorem Inv.exit {s : Server} (h : s.Inv) : Inv { s with phase := .exited } := by
  constructor
  · exact h.child_of_heeds fun _ => .inr (.inr rfl)
  · simp
  · simp
  · simp
  · intro hinst
    exact ⟨(h.uninstalled hinst).1, by simp, by simp⟩
  · exact h.notified

theorem Heeds.of_phase {s : Server} (h : s.Heeds) (hphase : s.phase ≠ .exited) (phase : Phase)
    (installed : Bool) (fds : List ℕ) (child : List Child) :
    Heeds { s with phase := phase, installed := installed, fds := fds, child := child } := by
  rcases h with hpending | hhandler | hexited
  · exact .inl hpending
  · exact .inr (.inl hhandler)
  · exact absurd hexited hphase

theorem Inv.accepted {s : Server} (h : s.Inv) (hphase : s.phase = .accept ∨ s.phase = .blocked) :
    s.accepted.Inv := by
  have hne : s.phase ≠ .exited := by
    rcases hphase with hphase | hphase <;> simp [hphase]
  constructor
  · exact h.child_of_heeds fun hheeds => hheeds.of_phase hne _ _ _ _
  · simp [Server.accepted]
  · simp [Server.accepted, h.waiting hphase]
  · simp [Server.accepted]
  · intro hinst
    obtain ⟨hlen, -, hnone⟩ := h.uninstalled hinst
    exact ⟨hlen, by simp [Server.accepted], fun _ => hnone (by tauto)⟩
  · exact h.notified

theorem Inv.modify {s : Server} (h : s.Inv) {i : ℕ} {f : Child → Child}
    (hf : ∀ c, s.child[i]? = some c → c.Fine s.Heeds i → (f c).Fine s.Heeds i) :
    (s.modify i f).Inv := by
  have hlen : (s.child.modify i f).length = s.child.length := List.length_modify f s.child i
  constructor
  · exact h.child.modify (fun _ _ hc => hc) hf
  · exact h.waiting
  · simp only [Server.modify, hlen]
    exact h.forking
  · simp only [Server.modify, hlen]
    exact h.forked
  · simp only [Server.modify, hlen]
    exact h.uninstalled
  · exact h.notified

theorem Inv.serve {s : Server} (h : s.Inv) {i : ℕ} {c : Child} (hc : s.child[i]? = some c)
    (hrunning : c.status = .running) {f : Child → Child} {buf : Bytes} {conn : Conn}
    (hf : f c = { c with buf := buf, conn := conn })
    (hanswered : c.conn.Answered c.buf → conn.Answered buf) : (s.modify i f).Inv := by
  apply h.modify
  intro c' hc' hfine
  cases hc.symm.trans hc'
  have hnone := hfine.running.mp hrunning
  rw [hf]
  refine { hfine with answered := hanswered hfine.answered, finished := ?_ }
  simp [hnone]

theorem Inv.onConn {s : Server} (h : s.Inv) {i : ℕ} {c : Child} (hc : s.child[i]? = some c)
    (hrunning : c.status = .running) {f : Conn → Conn} (hdone : (f c.conn).done = c.conn.done)
    (hsent : (f c.conn).sent = c.conn.sent) (hshort : (f c.conn).short = c.conn.short) :
    (s.onConn i f).Inv :=
  h.serve hc hrunning (f := fun c => { c with conn := f c.conn }) rfl fun hanswered =>
    hanswered.congr hdone hsent hshort

theorem Inv.ended {s : Server} (h : s.Inv) {i : ℕ} {c : Child} (hc : s.child[i]? = some c)
    {exitStatus : ExitStatus} (hend : exitStatus = .exited → c.buf = [] ∧ c.conn.AtEnd) :
    (s.ended i exitStatus).Inv := by
  unfold Server.ended
  split_ifs with hexited
  · apply h.modify
    intro c' hc' hfine
    cases hc.symm.trans hc'
    exact hfine.ended hend (by simp) (by simp) (by simp)
  · have hlen := List.length_modify (fun c => c.ended exitStatus (.zombie s.installed)) s.child i
    constructor
    · have hheeds : s.Heeds → Heeds { s with
          child := s.child.modify i fun c => c.ended exitStatus (.zombie s.installed)
          pending := s.pending || s.installed } := by
        simp only [Heeds, Bool.or_eq_true]
        tauto
      refine Each.modify h.child ?_ ?_
      · intro j c' hfine
        exact { hfine with told := fun hzombie => hheeds (hfine.told hzombie) }
      · intro c' hc' hfine
        cases hc.symm.trans hc'
        apply hfine.ended hend (by simp)
        · intro htrue
          rw [Status.zombie.injEq] at htrue
          exact .inl (by simp [htrue])
        · -- without a handler there is only the first child
          intro hfalse
          rw [Status.zombie.injEq] at hfalse
          have hone := (h.uninstalled hfalse).1
          have hlt := (List.getElem?_eq_some_iff.mp hc).1
          omega
    · exact h.waiting
    · simp only [hlen]
      exact h.forking
    · simp only [hlen]
      exact h.forked
    · simp only [hlen]
      exact h.uninstalled
    · intro hnotified
      simp only [Bool.or_eq_true] at hnotified
      rcases hnotified with (hpending | hinst) | hhandler
      · exact h.notified (.inl hpending)
      · exact hinst
      · exact h.notified (.inr hhandler)

/-! The steps of the parent. -/

section

variable {s : Server} (h : s.Inv)

include h

theorem Inv.next_block (hphase : s.phase = .accept) : (s.next (.accept false)).Inv := by
  constructor
  · exact h.child_of_heeds fun hheeds => hheeds.of_phase (by simp [hphase]) _ _ _ _
  · intro _
    exact h.waiting (.inl hphase)
  · simp [Server.next]
  · simp [Server.next]
  · intro hinst
    obtain ⟨hlen, -, hnone⟩ := h.uninstalled hinst
    exact ⟨hlen, by simp [Server.next], fun _ => hnone (.inl hphase)⟩
  · exact h.notified

theorem Inv.next_fork (hphase : s.phase = .fork) : (s.next (.fork true)).Inv := by
  have hne : s.phase ≠ .exited := by simp [hphase]
  constructor
  · apply Each.concat
    · exact h.child_of_heeds fun hheeds => hheeds.of_phase hne _ _ _ _
    · exact ⟨h.forking hphase, Conn.answered_init, by simp, by simp, by simp, by simp⟩
  · simp [Server.next]
  · simp [Server.next]
  · simp [Server.next, h.forking hphase]
  · intro hinst
    have hnone := (h.uninstalled hinst).2.2 (.inr (.inr hphase))
    simp [Server.next, hnone]
  · exact h.notified

theorem Inv.next_sigaction (hphase : s.phase = .sigaction) : (s.next (.sigaction true)).Inv := by
  constructor
  · exact h.child_of_heeds fun hheeds => hheeds.of_phase (by simp [hphase]) _ _ _ _
  · simp [Server.next]
  · simp [Server.next]
  · intro _
    exact h.forked (.inl hphase)
  · simp [Server.next]
  · intro _
    rfl

theorem Inv.next_close (hphase : s.phase = .close) : (s.next .close).Inv := by
  constructor
  · exact h.child_of_heeds fun hheeds => hheeds.of_phase (by simp [hphase]) _ _ _ _
  · simp [Server.next, h.forked (.inr hphase)]
  · simp [Server.next]
  · simp [Server.next]
  · intro hinst
    exact absurd hphase (h.uninstalled hinst).2.1
  · exact h.notified

theorem Inv.next_deliver (hinst : s.installed = true) : (s.next .deliver).Inv := by
  constructor
  · exact h.child_of_heeds fun _ => .inr (.inl ⟨rfl, rfl⟩)
  · exact h.waiting
  · exact h.forking
  · exact h.forked
  · exact h.uninstalled
  · intro _
    exact hinst

theorem Inv.next_waitpid {i : ℕ} {c : Child} (hc : s.child[i]? = some c) {b : Bool}
    (hzombie : c.status = .zombie b) : (s.next (.waitpid i)).Inv := by
  apply h.modify
  intro c' hc' hfine
  cases hc.symm.trans hc'
  have hsome : c.exitStatus ≠ none := by
    rw [ne_eq, ← hfine.running, hzombie]
    simp
  exact { hfine with
    running := iff_of_false (by simp) hsome
    told := by simp
    early := by simp }

theorem Inv.next_waitNone (hnone : ¬ s.HasZombie) : (s.next .waitNone).Inv := by
  constructor
  · intro j c hc
    have hstatus : ∀ b, c.status ≠ .zombie b :=
      fun b hb => hnone ⟨c, List.mem_of_getElem? hc, b, hb⟩
    exact { h.child j c hc with
      told := fun hb => absurd hb (hstatus true)
      early := fun hb => absurd hb (hstatus false) }
  · exact h.waiting
  · exact h.forking
  · exact h.forked
  · exact h.uninstalled
  · exact h.notified

theorem Inv.next_sigreturn (hhandler : s.handler = true) (hwaited : s.waited = true) :
    (s.next .sigreturn).Inv := by
  have hinst := h.notified (.inr hhandler)
  -- the phase is the same, unless `accept` has failed
  have hphase : ∀ p, p ≠ .exited → (s.next .sigreturn).phase = p → s.phase = p := by
    intro p hp heq
    simp only [Server.next] at heq
    split_ifs at heq with hblocked
    · exact absurd heq.symm hp
    · exact heq
  constructor
  · apply h.child_of_heeds
    rintro (hpending | ⟨-, hwaiting⟩ | hexited)
    · exact .inl hpending
    · simp [hwaited] at hwaiting
    · exact .inr (.inr (by simp [Server.next, hexited]))
  · intro hwaiting
    exact h.waiting (hwaiting.imp (hphase _ (by simp)) (hphase _ (by simp)))
  · intro hforking
    exact h.forking (hphase _ (by simp) hforking)
  · intro hforked
    exact h.forked (hforked.imp (hphase _ (by simp)) (hphase _ (by simp)))
  · intro huninst
    rw [show (s.next .sigreturn).installed = s.installed from rfl, hinst] at huninst
    cases huninst
  · intro _
    exact hinst

end

theorem Inv.next {s : Server} (h : s.Inv) {i : Input} (hi : s.Enabled i) : (s.next i).Inv := by
  cases i with
  | accept ready =>
    cases ready with
    | true => exact h.accepted (.inl hi.2)
    | false => exact h.next_block hi.2
  | connect => exact h.accepted (.inr hi.2)
  | acceptError => exact h.exit
  | fork ret =>
    cases ret with
    | true => exact h.next_fork hi.2
    | false => exact h.exit
  | sigaction ret =>
    cases ret with
    | true => exact h.next_sigaction hi.2
    | false => exact h.exit
  | close => exact h.next_close hi.2
  | deliver => exact h.next_deliver hi.2.2.1
  | waitpid i =>
    obtain ⟨-, c, hc, b, hzombie⟩ := hi
    exact h.next_waitpid hc hzombie
  | waitNone => exact h.next_waitNone hi.2
  | sigreturn => exact h.next_sigreturn hi.1 hi.2
  | arrive i bytes =>
    obtain ⟨c, hc, hrunning, -⟩ := hi
    exact h.onConn hc hrunning (f := fun c => c.arrive bytes) rfl rfl rfl
  | fin i =>
    obtain ⟨c, hc, hrunning, -⟩ := hi
    exact h.onConn hc hrunning (f := Conn.fin) rfl rfl rfl
  | reset i =>
    obtain ⟨c, hc, hrunning, -⟩ := hi
    exact h.onConn hc hrunning (f := Conn.rst) rfl rfl rfl
  | read i n =>
    obtain ⟨c, hc, hrunning, hbuf, -⟩ := hi
    refine h.serve hc hrunning rfl fun hanswered => ?_
    rw [hbuf] at hanswered
    exact hanswered.read n
  | readError i => exact h
  | write i m =>
    obtain ⟨c, hc, hrunning, -⟩ := hi
    exact h.serve hc hrunning rfl fun hanswered => hanswered.write m
  | exit i =>
    obtain ⟨c, hc, -, hend⟩ := hi
    exact h.ended hc fun _ => hend
  | kill i =>
    obtain ⟨c, hc, -⟩ := hi
    exact h.ended hc (by simp)

theorem Reachable.inv {s : Server} (h : s.Reachable) : s.Inv :=
  Interleaving.Reachable.invariant h Inv inv_init fun _ _ hinv hi => hinv.next hi

/-- When no signal is pending and the handler is not running, all children that have ended
have been waited for, but for the first one if it ended before the handler was installed. -/
theorem zombies_reaped {s : Server} (h : s.Reachable) (halive : s.phase ≠ .exited)
    (hpending : s.pending = false) (hhandler : s.handler = false) :
    ∀ (i : ℕ) (c : Child) b, s.child[i]? = some c → c.status = .zombie b → i = 0 ∧ b = false := by
  intro i c b hc hzombie
  have hfine := h.inv.child i c hc
  cases b with
  | false => exact ⟨hfine.early hzombie, rfl⟩
  | true =>
    rcases hfine.told hzombie with hpending' | ⟨hhandler', -⟩ | hexited
    · simp [hpending] at hpending'
    · simp [hhandler] at hhandler'
    · exact absurd hexited halive

theorem zombies_reaped_first : ∃ s : Server, s.Reachable ∧ s.installed = true ∧
    ∃ c : Child, s.child[0]? = some c ∧ ∃ b, c.status = .zombie b ∧ b = false := by
  have hreach : Reachable ([.accept true, .fork true, .kill 0, .sigaction true].foldl next {}) := by
    apply Interleaving.Reachable.foldl .init
    exact ⟨⟨rfl, rfl⟩, ⟨rfl, rfl⟩, ⟨_, rfl, rfl, trivial⟩, ⟨rfl, rfl⟩, trivial⟩
  refine ⟨_, hreach, rfl, _, rfl, _, rfl, ?_⟩
  exact (zombies_reaped hreach (by decide) rfl rfl 0 _ _ rfl rfl).2

/-! ## A signal while the parent waits -/

def unreaped (s : Server) : ℕ := s.child.countP fun c => c.status ≠ .reaped

/-- What the parent has left to do in the handler. -/
def left (s : Server) : ℕ :=
  if s.phase = .exited then 0
  else s.unreaped + if s.handler then if s.waited then 1 else 2 else 3

end Server

def Input.Parent : Input → Prop
  | .arrive _ _ => False
  | .fin _ => False
  | .reset _ => False
  | .read _ _ => False
  | .readError _ => False
  | .write _ _ => False
  | .exit _ => False
  | .kill _ => False
  | _ => True

namespace Server

/-- The parent waits in `accept`, and a signal is pending or being handled; or it has ended. -/
def Doomed (s : Server) : Prop :=
  s.phase = .exited ∨ s.phase = .blocked ∧ (s.pending = true ∨ s.handler = true)

theorem ended_phase (s : Server) (i : ℕ) (exitStatus : ExitStatus) :
    (s.ended i exitStatus).phase = s.phase := by
  unfold ended
  split_ifs <;> rfl

theorem ended_handler (s : Server) (i : ℕ) (exitStatus : ExitStatus) :
    (s.ended i exitStatus).handler = s.handler ∧ (s.ended i exitStatus).waited = s.waited := by
  unfold ended
  split_ifs <;> exact ⟨rfl, rfl⟩

theorem Doomed.ended {s : Server} (h : s.Doomed) (i : ℕ) (exitStatus : ExitStatus) :
    (s.ended i exitStatus).Doomed := by
  rcases h with hexited | ⟨hblocked, hsignal⟩
  · exact .inl ((s.ended_phase i exitStatus).trans hexited)
  · refine .inr ⟨(s.ended_phase i exitStatus).trans hblocked, ?_⟩
    have hne : s.phase ≠ .exited := by simp [hblocked]
    rw [Server.ended, if_neg hne]
    rcases hsignal with hpending | hhandler
    · exact .inl (by simp [hpending])
    · exact .inr hhandler

theorem Doomed.next {s : Server} (h : s.Doomed) {i : Input} (hi : s.Enabled i)
    (hconnect : i ≠ .connect) : (s.next i).Doomed := by
  have hphase : s.phase = .exited ∨ s.phase = .blocked := h.imp id And.left
  cases i with
  | accept ready => simp [hi.2] at hphase
  | connect => exact absurd rfl hconnect
  | acceptError => exact .inl rfl
  | fork ret => simp [hi.2] at hphase
  | sigaction ret => simp [hi.2] at hphase
  | close => simp [hi.2] at hphase
  | deliver =>
    rcases hphase with hexited | hblocked
    · exact absurd hexited hi.2.1
    · exact .inr ⟨hblocked, .inr rfl⟩
  | waitpid i => exact h
  | waitNone => exact h
  | sigreturn =>
    rcases hphase with hexited | hblocked
    · exact .inl (by simp [Server.next, hexited])
    · exact .inl (by simp [Server.next, hblocked])
  | arrive i bytes => exact h
  | fin i => exact h
  | reset i => exact h
  | read i n => exact h
  | readError i => exact h
  | write i m => exact h
  | exit i => exact h.ended i .exited
  | kill i => exact h.ended i .signaled

theorem unreaped_modify (s : Server) (i : ℕ) {f : Child → Child}
    (hf : ∀ c, (f c).status = c.status) : (s.modify i f).unreaped ≤ s.unreaped := by
  apply Census.countP_modify_le
  intro c _ hc
  rw [hf] at hc
  exact hc

theorem unreaped_ended {s : Server} {i : ℕ} {c : Child} (hc : s.child[i]? = some c)
    (hrunning : c.status = .running) (halive : s.phase ≠ .exited) (exitStatus : ExitStatus) :
    (s.ended i exitStatus).unreaped ≤ s.unreaped := by
  rw [ended, if_neg halive]
  apply Census.countP_modify_le
  intro c' hc' _
  cases hc.symm.trans hc'
  simp [hrunning]

theorem left_next {s : Server} (h : s.phase = .blocked) {i : Input} (hi : s.Enabled i)
    (hconnect : i ≠ .connect) :
    (s.next i).left ≤ s.left ∧ (i.Parent → (s.next i).left < s.left) := by
  have hleft : s.left =
      s.unreaped + if s.handler then if s.waited then 1 else 2 else 3 := by simp [left, h]
  -- a step of a child or a client
  have hother : ∀ t : Server, t.phase = s.phase → t.handler = s.handler ∧ t.waited = s.waited →
      t.unreaped ≤ s.unreaped → t.left ≤ s.left := by
    rintro t hphase ⟨hhandler, hwaited⟩ hle
    simp only [left, hphase, hhandler, hwaited, h]
    simpa using hle
  have hclient : ∀ i (f : Child → Child), (∀ c, (f c).status = c.status) →
      (s.modify i f).left ≤ s.left :=
    fun i f hf => hother _ rfl ⟨rfl, rfl⟩ (s.unreaped_modify i hf)
  cases i with
  | accept ready => simp [hi.2] at h
  | connect => exact absurd rfl hconnect
  | acceptError =>
    have hzero : (s.next .acceptError).left = 0 := by simp [Server.next, left]
    rw [hzero, hleft]
    split_ifs <;> simp
  | fork ret => simp [hi.2] at h
  | sigaction ret => simp [hi.2] at h
  | close => simp [hi.2] at h
  | deliver =>
    have htwo : (s.next .deliver).left = s.unreaped + 2 := by
      simp [Server.next, left, h, unreaped]
    rw [htwo, hleft, hi.1]
    simp
  | waitpid i =>
    obtain ⟨-, c, hc, b, hzombie⟩ := hi
    have hlt : (s.next (.waitpid i)).unreaped < s.unreaped := by
      apply Census.countP_modify_lt hc
      · simp [hzombie]
      · simp
    have hwait : (s.next (.waitpid i)).left = (s.next (.waitpid i)).unreaped +
        if s.handler then if s.waited then 1 else 2 else 3 := by
      simp [left, Server.next, Server.modify, h]
    rw [hwait, hleft]
    exact ⟨by omega, fun _ => by omega⟩
  | waitNone =>
    obtain ⟨⟨hhandler, hwaited⟩, -⟩ := hi
    have hone : (s.next .waitNone).left = s.unreaped + 1 := by
      simp [Server.next, left, h, hhandler, unreaped]
    rw [hone, hleft, hhandler, hwaited]
    simp
  | sigreturn =>
    have hzero : (s.next .sigreturn).left = 0 := by simp [Server.next, left, h]
    rw [hzero, hleft]
    split_ifs <;> simp
  | arrive i bytes => exact ⟨hclient i _ fun _ => rfl, fun hp => hp.elim⟩
  | fin i => exact ⟨hclient i _ fun _ => rfl, fun hp => hp.elim⟩
  | reset i => exact ⟨hclient i _ fun _ => rfl, fun hp => hp.elim⟩
  | read i n => exact ⟨hclient i _ fun _ => rfl, fun hp => hp.elim⟩
  | readError i => exact ⟨le_rfl, fun hp => hp.elim⟩
  | write i m => exact ⟨hclient i _ fun _ => rfl, fun hp => hp.elim⟩
  | exit i =>
    obtain ⟨c, hc, hrunning, -⟩ := hi
    have hle := unreaped_ended hc hrunning (by simp [h]) .exited
    exact ⟨hother _ (s.ended_phase i _) (s.ended_handler i _) hle, fun hp => hp.elim⟩
  | kill i =>
    obtain ⟨c, hc, hrunning, -⟩ := hi
    have hle := unreaped_ended hc hrunning (by simp [h]) .signaled
    exact ⟨hother _ (s.ended_phase i _) (s.ended_handler i _) hle, fun hp => hp.elim⟩

theorem Inv.enabled {s : Server} (h : s.Inv) (hphase : s.phase = .blocked)
    (hsignal : s.pending = true ∨ s.handler = true) : ∃ i : Input, i.Parent ∧ s.Enabled i := by
  cases hhandler : s.handler with
  | true =>
    cases hwaited : s.waited with
    | true => exact ⟨.sigreturn, trivial, hhandler, hwaited⟩
    | false =>
      by_cases hzombie : s.HasZombie
      · obtain ⟨c, hc, b, hb⟩ := hzombie
        obtain ⟨i, hi⟩ := List.mem_iff_getElem?.mp hc
        exact ⟨.waitpid i, trivial, ⟨hhandler, hwaited⟩, c, hi, b, hb⟩
      · exact ⟨.waitNone, trivial, ⟨hhandler, hwaited⟩, hzombie⟩
  | false =>
    have hpending : s.pending = true := by simpa [hhandler] using hsignal
    exact ⟨.deliver, trivial, hhandler, by simp [hphase], h.notified hsignal, hpending⟩

/-- A child that ends while the parent waits for a client brings the server down, unless a
client comes before the signal is handled. Whatever the other children and the clients do, the
parent does nothing but wait for its children, and each of its steps brings it nearer to its
end, which is that `accept` has failed. -/
theorem idle_server_ends {s t : Server} (h : s.Reachable) (hphase : s.phase = .blocked)
    (hsignal : s.pending = true ∨ s.handler = true)
    (ht : Interleaving.Reachable next (fun s i => s.Enabled i ∧ i ≠ .connect) s t) :
    t.phase = .exited ∨ t.phase = .blocked ∧ (∃ i : Input, i.Parent ∧ t.Enabled i) ∧
      ∀ i, t.Enabled i → i ≠ .connect →
        (t.next i).left ≤ t.left ∧ (i.Parent → (t.next i).left < t.left) := by
  have hdoomed : t.Inv ∧ t.Doomed := by
    apply ht.invariant (fun t => t.Inv ∧ t.Doomed)
    · exact ⟨h.inv, .inr ⟨hphase, hsignal⟩⟩
    · rintro t i ⟨hinv, hdoomed⟩ ⟨hi, hconnect⟩
      exact ⟨hinv.next hi, hdoomed.next hi hconnect⟩
  rcases hdoomed.2 with hexited | ⟨hblocked, hsignal'⟩
  · exact .inl hexited
  · refine .inr ⟨hblocked, hdoomed.1.enabled hblocked hsignal', ?_⟩
    intro i hi hconnect
    exact left_next hblocked hi hconnect

theorem idle_server_ends_killed : ∃ s : Server, s.Reachable ∧ s.phase = .blocked ∧
    s.pending = true ∧ ∃ i : Input, i.Parent ∧ s.Enabled i := by
  have hreach : Reachable ([.accept true, .fork true, .sigaction true, .close, .accept false,
      .kill 0].foldl next {}) := by
    apply Interleaving.Reachable.foldl .init
    exact ⟨⟨rfl, rfl⟩, ⟨rfl, rfl⟩, ⟨rfl, rfl⟩, ⟨rfl, rfl⟩, ⟨rfl, rfl⟩, ⟨_, rfl, rfl, trivial⟩,
      trivial⟩
  refine ⟨_, hreach, rfl, rfl, ?_⟩
  rcases idle_server_ends hreach rfl (.inl rfl) .init with hexited | ⟨-, henabled, -⟩
  · cases hexited
  · exact henabled

end Server

end NetworkPrograms.Sockets.Fork
