import NetworkPrograms.Foundations.Words
import NetworkPrograms.Foundations.RingBuffer

/-!
# The echo server with signal-driven I/O

`dg_echo` and `sig_io` of `sigio/dgecho01.c`. The signal handler reads all datagrams of
the socket into a ring of `QSIZE` buffers, the main loop echoes them from there. Both use
the indices and the count of the ring without a lock: the main loop blocks `SIGIO` around
its test and its decrement of `nqueue`, and nowhere else.

The handler may start between any two steps of the main loop in which the signal is not
blocked, and datagrams arrive at any time. The process is supposed to start with `SIGIO`
unblocked, so that `oldmask` is empty.
-/
namespace NetworkPrograms.Sigio

open Function RingBuffer

def QSIZE : ℕ := 8

def MAXDG : ℕ := 4096

/-- A datagram with the address of its sender, which has room in a buffer of `clilen`
bytes. -/
structure Datagram (clilen : ℕ) where
  data : Bytes
  sa : Bytes
  fits : sa.length ≤ clilen

/-- The buffers of one entry of the ring, and the lengths in use. -/
structure DG where
  dg_data : Bytes
  dg_len : ℕ
  dg_sa : Bytes
  dg_salen : ℕ

def store (bytes buf : Bytes) : Bytes := bytes ++ buf.drop bytes.length

/-- What `recvfrom` and the assignment of the length leave in an entry. -/
def DG.receive {clilen : ℕ} (ptr : DG) (d : Datagram clilen) : DG where
  dg_data := store (d.data.take MAXDG) ptr.dg_data
  dg_len := (d.data.take MAXDG).length
  dg_sa := store d.sa ptr.dg_sa
  dg_salen := d.sa.length

/-- Where the main loop is: before the test of `nqueue`, in `sigsuspend`, before the signal
is unblocked, before the arguments of `Sendto` are read, before the call, before `++iget`,
before the signal is blocked, before `nqueue--`. -/
inductive Main where
  | check
  | suspended
  | unblock
  | load
  | send (len salen : ℕ)
  | advance
  | block
  | decrement
  deriving DecidableEq

def Main.blocks : Main → Bool
  | .check | .unblock | .decrement => true
  | _ => false

/-- `sigsuspend` returns when the handler has. -/
def Main.resume : Main → Main
  | .suspended => .check
  | m => m

/-- How the process ends: `err_quit("receive overflow")` or `err_sys`. -/
inductive Exit where
  | overflow
  | sys
  deriving DecidableEq

/-- The static variables, where the main loop and the handler are (the handler with its
count `nread`), the signal and the datagrams that wait in the kernel, and what was echoed
and what has arrived since the beginning. -/
structure State (clilen : ℕ) where
  dg : ℕ → DG
  cntread : ℕ → ℕ := fun _ => 0
  iget : ℕ := 0
  iput : ℕ := 0
  nqueue : ℕ := 0
  main : Main := .check
  handler : Option ℕ := none
  pending : Bool := false
  socket : List (Datagram clilen)
  sent : List (Bytes × Bytes) := []
  arrived : List (Datagram clilen)
  exited : Option Exit := none

variable {clilen : ℕ}

/-- The buffers as `Malloc` returns them, and the datagrams that came before the socket was
told to send signals. -/
def start (dg : ℕ → DG) (early : List (Datagram clilen)) : State clilen :=
  { dg := dg, socket := early, arrived := early }

namespace State

variable (s : State clilen)

/-- One pass of the loop of `sig_io`. With no datagram in the socket `recvfrom` answers
`EWOULDBLOCK`, and the handler returns. -/
def sigIo (nread : ℕ) : State clilen :=
  if s.nqueue ≥ QSIZE then { s with exited := some .overflow }
  else
    let ptr := { s.dg s.iput with dg_salen := clilen }
    match s.socket with
    | [] => { s with
        dg := update s.dg s.iput ptr
        cntread := update s.cntread nread (s.cntread nread + 1)
        handler := none
        main := s.main.resume }
    | d :: rest => { s with
        dg := update s.dg s.iput (ptr.receive d)
        socket := rest
        nqueue := s.nqueue + 1
        iput := next QSIZE s.iput
        handler := some (nread + 1) }

def dgEcho : State clilen :=
  match s.main with
  | .check => { s with main := if s.nqueue = 0 then .suspended else .unblock }
  | .suspended => s
  | .unblock => { s with main := .load }
  | .load => { s with main := .send (s.dg s.iget).dg_len (s.dg s.iget).dg_salen }
  | .send len salen => { s with
      sent := s.sent ++ [((s.dg s.iget).dg_data.take len, (s.dg s.iget).dg_sa.take salen)]
      main := .advance }
  | .advance => { s with iget := next QSIZE s.iget, main := .block }
  | .block => { s with main := .decrement }
  | .decrement => { s with nqueue := s.nqueue - 1, main := .check }

end State

/-- A datagram arrives, a pending signal is delivered, the handler or the main loop makes a
step, or the call one of them is about to make fails. -/
inductive Input (clilen : ℕ) where
  | arrive (d : Datagram clilen)
  | deliver
  | handler
  | recvfromFails
  | main
  | sendtoFails

/-- The handler interrupts the main loop, which goes on when it has returned. -/
def State.step (s : State clilen) : Input clilen → State clilen
  | .arrive d =>
    { s with socket := s.socket ++ [d], arrived := s.arrived ++ [d], pending := true }
  | .deliver =>
    if s.exited = none ∧ s.handler = none ∧ s.pending ∧ ¬ s.main.blocks then
      { s with pending := false, handler := some 0 }
    else s
  | .handler => match s.exited, s.handler with
    | none, some nread => s.sigIo nread
    | _, _ => s
  | .recvfromFails =>
    if s.exited = none ∧ s.handler.isSome ∧ s.nqueue < QSIZE then { s with exited := some .sys }
    else s
  | .main => if s.exited = none ∧ s.handler = none then s.dgEcho else s
  | .sendtoFails => match s.exited, s.handler, s.main with
    | none, none, .send _ _ => { s with exited := some .sys }
    | _, _, _ => s

def run (dg : ℕ → DG) (early : List (Datagram clilen)) (inputs : List (Input clilen)) :
    State clilen :=
  inputs.foldl State.step (start dg early)

/-! ## What is in the ring -/

/-- The datagram as it is sent back. -/
def Datagram.echo (d : Datagram clilen) : Bytes × Bytes := (d.data.take MAXDG, d.sa)

/-- The datagram that an entry stands for. -/
def DG.view (x : DG) : Bytes × Bytes := (x.dg_data.take x.dg_len, x.dg_sa.take x.dg_salen)

/-- The entry that was sent and is still counted in `nqueue`. -/
def Main.owed : Main → ℕ
  | .block | .decrement => 1
  | _ => 0

/-- The entries of the ring that were not sent yet. -/
def Main.unsent (m : Main) (queue : List DG) : List DG :=
  match m with
  | .advance => queue.tail
  | _ => queue

def State.queued (s : State clilen) : List (Bytes × Bytes) :=
  (s.main.unsent (contents QSIZE s.dg s.iget (s.nqueue - s.main.owed))).map DG.view

theorem DG.view_receive (ptr : DG) (d : Datagram clilen) : (ptr.receive d).view = d.echo := by
  simp [DG.view, DG.receive, Datagram.echo, store]

/-- What the place of the main loop says about the entries of the ring. -/
def Main.Fits (queue : List DG) : Main → Prop
  | .unblock | .load | .advance => queue ≠ []
  | .send len salen => ∃ x rest, queue = x :: rest ∧ len = x.dg_len ∧ salen = x.dg_salen
  | _ => True

theorem Main.Fits.append {m : Main} {queue : List DG} (h : m.Fits queue) (x : DG) :
    m.Fits (queue ++ [x]) := by
  cases m with
  | send len salen =>
    obtain ⟨y, rest, rfl, hlen, hsalen⟩ := h
    exact ⟨y, rest ++ [x], rfl, hlen, hsalen⟩
  | unblock | load | advance => exact List.append_ne_nil_of_left_ne_nil h [x]
  | check | suspended | block | decrement => trivial

theorem Main.Fits.unsent_append {m : Main} {queue : List DG} (h : m.Fits queue) (x : DG) :
    m.unsent (queue ++ [x]) = m.unsent queue ++ [x] := by
  cases m with
  | advance => exact List.tail_append_of_ne_nil h
  | _ => rfl

@[simp] theorem Main.resume_owed (m : Main) : m.resume.owed = m.owed := by
  cases m <;> rfl

@[simp] theorem Main.resume_unsent (m : Main) : m.resume.unsent = m.unsent := by
  cases m <;> rfl

theorem Main.resume_ne (m : Main) : m.resume ≠ .suspended := by
  cases m <;> simp [Main.resume]

theorem Main.Fits.resume {m : Main} {queue : List DG} (h : m.Fits queue) :
    m.resume.Fits queue := by
  cases m <;> exact h

/-- `queue` are the entries of the ring. -/
structure Inv (early : List (Datagram clilen)) (queue : List DG) (s : State clilen) : Prop where
  ring : Holds QSIZE s.dg s.iget s.iput queue
  count : s.nqueue = queue.length + s.main.owed
  small : s.nqueue ≤ QSIZE
  fits : s.main.Fits queue
  order : s.sent ++ (s.main.unsent queue).map DG.view ++ s.socket.map Datagram.echo =
    s.arrived.map Datagram.echo
  reads : ∀ nread, s.handler = some nread → nread ≤ s.nqueue
  idle : s.main = .suspended → s.handler = none → s.nqueue = 0
  wake : s.exited = none → s.handler = none → s.pending = false →
    s.socket = [] ∨ s.arrived = early
  full : s.exited = some .overflow → s.nqueue = QSIZE

namespace Inv

variable {early : List (Datagram clilen)} {queue : List DG} {s : State clilen}

theorem init (dg : ℕ → DG) (early : List (Datagram clilen)) : Inv early [] (start dg early) where
  ring := .empty (show 0 < QSIZE by decide) dg
  count := rfl
  small := Nat.zero_le _
  fits := trivial
  order := by simp [start, Main.unsent]
  reads := by simp [start]
  idle := by simp [start]
  wake := fun _ _ _ => .inr rfl
  full := by simp [start]

theorem arrive (h : Inv early queue s) (d : Datagram clilen) :
    Inv early queue (s.step (.arrive d)) where
  ring := h.ring
  count := h.count
  small := h.small
  fits := h.fits
  order := by
    have horder := h.order
    simp only [State.step, List.map_append, ← List.append_assoc] at horder ⊢
    rw [horder]
  reads := h.reads
  idle := h.idle
  wake := by simp [State.step]
  full := h.full

theorem deliver (h : Inv early queue s) : Inv early queue (s.step .deliver) := by
  rw [State.step]
  split_ifs with hcan
  · exact ⟨h.ring, h.count, h.small, h.fits, h.order, by simp, by simp, by simp, h.full⟩
  · exact h

theorem exit (h : Inv early queue s) : Inv early queue { s with exited := some .sys } :=
  ⟨h.ring, h.count, h.small, h.fits, h.order, h.reads, h.idle, by simp, by simp⟩

/-- An entry in which the main loop has no interest is written by the handler: the ring has
room for it, since `nqueue` counts all others. -/
theorem room (h : Inv early queue s) (hlt : s.nqueue < QSIZE) : queue.length < QSIZE := by
  have hcount := h.count
  omega

theorem sigIo (h : Inv early queue s) (hexit : s.exited = none) {nread : ℕ}
    (hread : s.handler = some nread) : ∃ queue', Inv early queue' (s.sigIo nread) := by
  unfold State.sigIo
  split_ifs with hfull
  · refine ⟨queue, h.ring, h.count, h.small, h.fits, h.order, h.reads, h.idle, by simp, ?_⟩
    intro _
    exact le_antisymm h.small hfull
  · have hroom := h.room (not_le.mp hfull)
    have horder := h.order
    cases hsock : s.socket with
    | nil =>
      rw [hsock] at horder
      dsimp only
      refine ⟨queue, h.ring.scratch hroom _, ?_, h.small, h.fits.resume, ?_, by simp, ?_, ?_, ?_⟩
      · simpa using h.count
      · simpa using horder
      · intro hmain
        exact absurd hmain s.main.resume_ne
      · intro _ _ _
        exact .inl rfl
      · simp [hexit]
    | cons d rest =>
      rw [hsock] at horder
      refine ⟨queue ++ [_], h.ring.put hroom _, ?_, not_le.mp hfull, h.fits.append _, ?_, ?_,
        by simp, by simp, by simp [hexit]⟩
      · simp only [List.length_append, List.length_singleton, h.count]
        omega
      · rw [h.fits.unsent_append, ← horder]
        simp [DG.view_receive]
      · intro n hn
        cases hn
        exact Nat.succ_le_succ (h.reads nread hread)

theorem dgEcho (h : Inv early queue s) (hhandler : s.handler = none)
    (hexit : s.exited = none) : ∃ queue', Inv early queue' s.dgEcho := by
  obtain ⟨hring, hcount, hsmall, hfits, horder, hreads, hidle, hwake, hfull⟩ := h
  unfold State.dgEcho
  cases hmain : s.main with
  | check =>
    rw [hmain] at hcount horder
    by_cases hzero : s.nqueue = 0
    · simp only [if_pos hzero]
      exact ⟨queue, hring, hcount, hsmall, trivial, horder, hreads, fun _ _ => hzero, hwake, hfull⟩
    · simp only [if_neg hzero]
      refine ⟨queue, hring, hcount, hsmall, ?_, horder, hreads, by simp, hwake, hfull⟩
      intro hnil
      rw [hnil] at hcount
      exact hzero hcount
  | suspended => exact ⟨queue, hring, hcount, hsmall, hfits, horder, hreads, hidle, hwake, hfull⟩
  | unblock =>
    rw [hmain] at hcount horder hfits
    exact ⟨queue, hring, hcount, hsmall, hfits, horder, hreads, by simp, hwake, hfull⟩
  | load =>
    rw [hmain] at hcount horder hfits
    obtain ⟨x, rest, rfl⟩ := List.exists_cons_of_ne_nil hfits
    refine ⟨x :: rest, hring, hcount, hsmall, ?_, horder, hreads, by simp, hwake, hfull⟩
    exact ⟨x, rest, rfl, by rw [hring.head], by rw [hring.head]⟩
  | send len salen =>
    rw [hmain] at hcount horder hfits
    obtain ⟨x, rest, rfl, rfl, rfl⟩ := hfits
    refine ⟨x :: rest, hring, hcount, hsmall, List.cons_ne_nil x rest, ?_, hreads, by simp, hwake,
      hfull⟩
    rw [← horder, hring.head]
    simp [Main.unsent, DG.view]
  | advance =>
    rw [hmain] at hcount horder hfits
    obtain ⟨x, rest, rfl⟩ := List.exists_cons_of_ne_nil hfits
    refine ⟨rest, hring.get, ?_, hsmall, trivial, horder, hreads, by simp, hwake, hfull⟩
    simpa [Main.owed] using hcount
  | block =>
    rw [hmain] at hcount horder
    exact ⟨queue, hring, hcount, hsmall, trivial, horder, hreads, by simp, hwake, hfull⟩
  | decrement =>
    rw [hmain] at hcount horder
    refine ⟨queue, hring, ?_, ?_, trivial, horder, by simp [hhandler], by simp, hwake,
      by simp [hexit]⟩
    · simp only [Main.owed] at hcount ⊢
      omega
    · exact (Nat.sub_le _ _).trans hsmall

theorem step (h : Inv early queue s) (i : Input clilen) :
    ∃ queue', Inv early queue' (s.step i) := by
  cases i with
  | arrive d => exact ⟨queue, h.arrive d⟩
  | deliver => exact ⟨queue, h.deliver⟩
  | handler =>
    rw [State.step]
    split
    · next nread hexit hread => exact h.sigIo hexit hread
    · exact ⟨queue, h⟩
  | recvfromFails =>
    rw [State.step]
    split_ifs
    · exact ⟨queue, h.exit⟩
    · exact ⟨queue, h⟩
  | main =>
    rw [State.step]
    split_ifs with hcan
    · exact h.dgEcho hcan.2 hcan.1
    · exact ⟨queue, h⟩
  | sendtoFails =>
    rw [State.step]
    split
    · exact ⟨queue, h.exit⟩
    · exact ⟨queue, h⟩

end Inv

theorem run_inv (dg : ℕ → DG) (early : List (Datagram clilen)) (inputs : List (Input clilen)) :
    ∃ queue, Inv early queue (run dg early inputs) := by
  apply List.foldlRecOn inputs State.step (motive := fun s => ∃ queue, Inv early queue s)
  · exact ⟨[], .init dg early⟩
  · rintro s ⟨queue, h⟩ i -
    exact h.step i

end NetworkPrograms.Sigio
