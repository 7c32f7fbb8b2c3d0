import NetworkPrograms.Foundations.Memory
import NetworkPrograms.Foundations.Runs
import NetworkPrograms.Foundations.Slots

/-!
# The epoll reactor

`test.c` and `epoll反应堆.c` run one slot machine: a table of slots, each with a
descriptor, a callback and a buffer, whose addresses are the user data of the
epoll registrations. A callback takes its slot off the interest list, changes
callback and mask, and puts it back.

The state holds the table together with the kernel's side of it: the interest
list, the open descriptors and a log of the calls made. The two programs differ
in two places, which are the fields of `Program`. Time stamps and output are
left out.
-/
namespace NetworkPrograms.Reactor

open Function

def MAX_EVENTS : ℕ := 1024

def BUFLEN : ℕ := 4096

def EPOLLIN : ℕ := 1

def EPOLLOUT : ℕ := 4

def EPOLLERR : ℕ := 8

def EPOLLHUP : ℕ := 16

def EPOLL_CTL_ADD : ℕ := 1

def EPOLL_CTL_DEL : ℕ := 2

def EPOLL_CTL_MOD : ℕ := 3

inductive CallBack where
  | acceptconn
  | recvdata
  | senddata
  deriving DecidableEq, Repr

/-- `struct myevent_s`. A pointer to a slot is its index in `g_events`. -/
structure MyEvent where
  fd : ℕ := 0
  events : ℕ := 0
  arg : Option ℕ := none
  call_back : Option CallBack := none
  status : ℕ := 0
  buf : ℕ → UInt8 := fun _ => 0
  len : ℕ := 0

/-- The first bytes of the buffer, as `send` is given them. -/
def MyEvent.contents (e : MyEvent) : Bytes := (List.range e.len).map e.buf

/-- A call the program has made, with what it got or passed. -/
inductive SysCall where
  | accept (cfd : ℕ)
  | recv (fd : ℕ) (bytes : Option Bytes)
  | send (fd : ℕ) (data : Bytes) (ret : ℤ)
  | close (fd : ℕ)
  | epoll_ctl (op fd : ℕ) (epv : Option (ℕ × ℕ))
  deriving DecidableEq, Repr

/-- The slot table, the interest list with the slot and the mask registered for
each descriptor, the open descriptors, and the calls made, latest first. -/
structure State where
  g_events : ℕ → MyEvent := fun _ => {}
  interest : ℕ → Option (ℕ × ℕ) := fun _ => none
  opened : ℕ → Bool
  log : List SysCall := []

/-- Where the two programs differ: the value of `op` in `eventadd` when the slot
is already registered, and the argument `acceptconn` gives to a new slot. -/
structure Program where
  op : ℕ
  arg : ℕ → ℕ

/-- `test.c`: the argument of a slot is the slot. -/
def test : Program := ⟨0, fun i => i⟩

/-- `epoll反应堆.c`: `op` is not initialised, and the argument is `&g_events`,
the address of slot 0. -/
def epollReactor (op : ℕ) : Program := ⟨op, fun _ => 0⟩

namespace State

variable (s : State)

/-- `epoll_ctl`. A descriptor can be added when it is open and not registered;
the return value only goes to the output. -/
def epoll_ctl (op fd : ℕ) (epv : Option (ℕ × ℕ)) : State :=
  let s := { s with log := .epoll_ctl op fd epv :: s.log }
  if op = EPOLL_CTL_ADD ∧ s.opened fd = true ∧ s.interest fd = none ∨
      op = EPOLL_CTL_MOD ∧ (s.interest fd).isSome then
    { s with interest := update s.interest fd epv }
  else if op = EPOLL_CTL_DEL then { s with interest := update s.interest fd none }
  else s

/-- `close`, which also ends the registration of the descriptor. -/
def close (fd : ℕ) : State :=
  { s with
    opened := update s.opened fd false
    interest := update s.interest fd none
    log := .close fd :: s.log }

def eventset (ev fd : ℕ) (call_back : CallBack) (arg : ℕ) : State :=
  let e := s.g_events ev
  let e := { e with
    fd := fd, call_back := some call_back, events := 0, arg := some arg, status := 0 }
  let e := if e.len ≤ 0 then { e with buf := fun _ => 0, len := 0 } else e
  { s with g_events := update s.g_events ev e }

def eventadd (P : Program) (events ev : ℕ) : State :=
  let e := { s.g_events ev with events := events }
  let (op, e) := if e.status = 0 then (EPOLL_CTL_ADD, { e with status := 1 }) else (P.op, e)
  { s with g_events := update s.g_events ev e }.epoll_ctl op e.fd (some (ev, events))

def eventdel (ev : ℕ) : State :=
  let e := s.g_events ev
  if e.status ≠ 1 then s
  else { s with g_events := update s.g_events ev { e with status := 0 } }.epoll_ctl
    EPOLL_CTL_DEL e.fd none

end State

/-- The `for` loop of `acceptconn`: the first free slot, or `MAX_EVENTS`. -/
def freeSlot (g_events : ℕ → MyEvent) : ℕ :=
  Slots.search (fun i => (g_events i).status = 0) MAX_EVENTS 0

/-- What the kernel answers during one callback: a descriptor or -1, the result
of `fcntl`, the bytes received or -1, and a count or -1. -/
structure Answers where
  accept : Option ℕ := none
  fcntl : ℤ := 0
  recv : Option Bytes := none
  send : Option ℕ := none

/-- What `recv` hands over when asked for `BUFLEN` bytes. -/
def Answers.received (a : Answers) : Option Bytes := a.recv.map (·.take BUFLEN)

/-- What `send` returns when asked to send `count` bytes. -/
def Answers.sent (a : Answers) (count : ℕ) : ℤ :=
  match a.send with
  | none => -1
  | some n => (min n count : ℕ)

/-- `buf[len] = '\0'`. The byte behind the buffer is the low byte of `len`. -/
def MyEvent.storeNul (e : MyEvent) (len : ℕ) : MyEvent :=
  if len < BUFLEN then { e with buf := update e.buf len 0 }
  else { e with len := e.len - e.len % 256 }

namespace State

variable (s : State)

/-- A connection for which there is no slot, or whose `fcntl` fails, stays open. -/
def acceptconn (P : Program) (a : Answers) : State :=
  match a.accept with
  | none => s
  | some cfd =>
    let s := { s with opened := update s.opened cfd true, log := .accept cfd :: s.log }
    let i := freeSlot s.g_events
    if i = MAX_EVENTS then s
    else if a.fcntl < 0 then s
    else (s.eventset i cfd .recvdata (P.arg i)).eventadd P EPOLLIN i

def recvdata (P : Program) (fd ev : ℕ) (a : Answers) : State :=
  let bytes := a.received
  let len := (bytes.getD []).length
  let e := s.g_events ev
  let e := { e with buf := fun i => ((bytes.getD [])[i]?).getD (e.buf i) }
  let s := { s with g_events := update s.g_events ev e, log := .recv fd bytes :: s.log }
  let s := s.eventdel ev
  if 0 < len then
    let e := { s.g_events ev with len := len }
    let s := { s with g_events := update s.g_events ev (e.storeNul len) }
    (s.eventset ev fd .senddata ev).eventadd P EPOLLOUT ev
  else s.close (s.g_events ev).fd

def senddata (P : Program) (fd ev : ℕ) (a : Answers) : State :=
  let e := s.g_events ev
  let len := a.sent e.len
  let s := { s with log := .send fd e.contents len :: s.log }
  let s := s.eventdel ev
  if len > 0 then (s.eventset ev fd .recvdata ev).eventadd P EPOLLIN ev
  else s.close (s.g_events ev).fd

def call (P : Program) (ev : ℕ) (a : Answers) : Except Fault State :=
  let e := s.g_events ev
  match e.call_back, e.arg with
  | none, _ => .error .nullDeref
  | some .acceptconn, _ => .ok (s.acceptconn P a)
  | some .recvdata, some arg => .ok (s.recvdata P e.fd arg a)
  | some .senddata, some arg => .ok (s.senddata P e.fd arg a)
  | some _, none => .error .nullDeref

/-- Call back when an event is both reported and in the slot's mask. -/
def trigger (P : Program) (ev events mask : ℕ) (a : Answers) : Except Fault State :=
  if events &&& mask ≠ 0 ∧ (s.g_events ev).events &&& mask ≠ 0 then s.call P ev a else .ok s

/-- The body of the loop over a batch. The second test reads the slot anew. -/
def dispatch (P : Program) (ev events : ℕ) (a b : Answers) : Except Fault State := do
  let s ← s.trigger P ev events EPOLLIN a
  s.trigger P ev events EPOLLOUT b

end State

/-- The listening slot is registered and nothing else is. -/
def initlistensocket (P : Program) (lfd : ℕ) : State :=
  let s : State := { opened := fun fd => fd = lfd }
  (s.eventset MAX_EVENTS lfd .acceptconn MAX_EVENTS).eventadd P EPOLLIN MAX_EVENTS

/-- The program between two callbacks: its state and the rest of the batch, with
the slot that `epoll_wait` has handed over for each event. -/
structure Config where
  state : State
  pending : List (ℕ × ℕ) := []

/-- What the kernel does next: it reports descriptors with their events, or it
answers the calls made for the next event of the batch. -/
inductive Input where
  | wait (ready : List (ℕ × ℕ))
  | dispatch (a b : Answers)

/-- `epoll_wait` is called when the batch is used up. -/
def Config.step (P : Program) (c : Config) : Input → Except Fault Config
  | .wait ready => match c.pending with
    | [] => .ok { c with pending := ready.filterMap fun r =>
        (c.state.interest r.1).map fun e => (e.1, r.2) }
    | _ => .ok c
  | .dispatch a b => match c.pending with
    | [] => .ok c
    | (ev, events) :: rest => do
      let s ← c.state.dispatch P ev events a b
      .ok ⟨s, rest⟩

def Config.run (P : Program) (lfd : ℕ) (inputs : List Input) : Except Fault Config :=
  Runs.run (Config.step P) ⟨initlistensocket P lfd, []⟩ inputs

end NetworkPrograms.Reactor
