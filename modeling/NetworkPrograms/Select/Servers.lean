import NetworkPrograms.Foundations.Keyed
import NetworkPrograms.Foundations.Runs
import NetworkPrograms.Foundations.Slots
import NetworkPrograms.Kernel.Calls

/-!
# Two servers around `select`

The servers of `select.c` and `select优化.c` send back in capitals what their
clients write. The first looks at every descriptor above the listening one. The
second keeps its clients in an array, goes through the used part of it and stops
when all descriptors that `select` counted have been served.

A round of either server is one pass of `while (1)`. The kernel decides which of
the watched descriptors are ready, which descriptor `accept` returns, and what
the n-th `read` of each descriptor gives.
-/
namespace NetworkPrograms.Select

open Function Words
open Kernel (toupper)

def FD_SETSIZE : ℕ := 1024

/-- What `read` gives: nothing for an error, no bytes at the end of the stream. -/
abbrev ReadResult := Option Bytes

/-- What a server does with a descriptor of a client. -/
inductive Operation where
  | read (result : ReadResult)
  | write (bytes : Bytes)
  | close
  deriving DecidableEq

/-- A descriptor: whether it is open, its bit in `allset`, the number of calls of
`read` on it so far, and all that was done with it. -/
structure Descriptor where
  opened : Bool := false
  allset : Bool := false
  reads : ℕ := 0
  operations : List Operation := []
  deriving DecidableEq

/-- `exit`, or a call whose effect is undefined. -/
inductive Stop where
  | selectFailed
  | acceptFailed
  | badDescriptor
  | tooManyClients
  deriving DecidableEq

/-- What the kernel answers in a round: the descriptors that have become ready,
unless `select` fails, and the result of `accept`, if it is called. -/
structure Round where
  select : Option (ℕ → Bool)
  accept : Option ℕ

structure Server where
  listenfd : ℕ
  maxfd : ℕ
  descriptor : ℕ → Descriptor

/-- The standard descriptors and the listening one are open, which is the only one
watched. -/
def Server.init (listenfd : ℕ) : Server where
  listenfd := listenfd
  maxfd := listenfd
  descriptor := fun fd => { opened := fd ≤ 2 || fd = listenfd, allset := fd = listenfd }

section
variable (reads : ℕ → ℕ → ReadResult)

/-- The client at the descriptor has closed the connection. -/
def closes (fd : ℕ) (d : Descriptor) : Bool := reads fd d.reads = some []

/-- A ready client: `read`, and then `close` and `FD_CLR`, or the answer. -/
def serve (fd : ℕ) (d : Descriptor) : Descriptor :=
  let result := reads fd d.reads
  let d := { d with reads := d.reads + 1, operations := d.operations ++ [.read result] }
  match result with
  | none => d
  | some [] =>
    { d with opened := false, allset := false, operations := d.operations ++ [.close] }
  | some buf => { d with operations := d.operations ++ [.write (buf.map toupper)] }

namespace Server

variable (s : Server)

def rset (ready : ℕ → Bool) (fd : ℕ) : Bool :=
  fd ≤ s.maxfd && (s.descriptor fd).allset && ready fd

def nready (ready : ℕ → Bool) : ℤ :=
  ((List.range (s.maxfd + 1)).filter (s.rset ready)).length

/-- `FD_SET(connfd, &allset)` on a new descriptor, and the update of `maxfd`. -/
def watch (connfd : ℕ) : Except Stop Server :=
  if connfd < FD_SETSIZE then
    .ok { s with
      maxfd := if s.maxfd < connfd then connfd else s.maxfd
      descriptor := update s.descriptor connfd
        { s.descriptor connfd with opened := true, allset := true } }
  else .error .badDescriptor

def serveAll (rset : ℕ → Bool) : Server :=
  { s with
    descriptor := (List.range' (s.listenfd + 1) (s.maxfd - s.listenfd)).foldl
      (fun t i => if rset i then update t i (serve reads i (t i)) else t) s.descriptor }

def step (r : Round) : Except Stop Server :=
  match r.select with
  | none => .error .selectFailed
  | some ready =>
    if s.rset ready s.listenfd then
      match r.accept with
      | none => .error .badDescriptor
      | some connfd =>
        match s.watch connfd with
        | .error e => .error e
        | .ok t =>
          let nready := s.nready ready - 1
          if nready = 0 then .ok t else .ok (t.serveAll reads (s.rset ready))
    else .ok (s.serveAll reads (s.rset ready))

/-- `select` succeeds; `accept`, when called, returns a descriptor that is not
open, above the listening one and below `FD_SETSIZE`. -/
def legal (r : Round) : Prop :=
  match r.select, r.accept with
  | none, _ => False
  | some ready, none => s.rset ready s.listenfd = false
  | some ready, some connfd => s.rset ready s.listenfd = true →
    (s.descriptor connfd).opened = false ∧ s.listenfd < connfd ∧ connfd < FD_SETSIZE

instance (r : Round) : Decidable (s.legal r) :=
  match r with
  | ⟨none, _⟩ => isFalse id
  | ⟨some ready, none⟩ => inferInstanceAs (Decidable (s.rset ready s.listenfd = false))
  | ⟨some ready, some connfd⟩ => inferInstanceAs (Decidable (s.rset ready s.listenfd = true →
    (s.descriptor connfd).opened = false ∧ s.listenfd < connfd ∧ connfd < FD_SETSIZE))

end Server

/-- The second server: an array of slots, free ones being `-1` in the source, the
last slot ever used, and what was written to the standard output. -/
structure Optimised extends Server where
  client : List (Option ℕ)
  maxi : ℤ
  stdout : Bytes

def Optimised.init (listenfd : ℕ) : Optimised :=
  { Server.init listenfd with
    client := List.replicate FD_SETSIZE none
    maxi := -1
    stdout := [] }

/-- A ready client of the second server: the slot afterwards, and what goes to the
standard output. -/
def slotAfter (fd : ℕ) (d : Descriptor) : Option ℕ := if closes reads fd d then none else some fd

def shown (fd : ℕ) (d : Descriptor) : Bytes := ((reads fd d.reads).getD []).map toupper

/-- `for (i = 0; i <= maxi; i++)`, from some slot on. The scan returns the slots
and the descriptors as it leaves them, and its output. -/
def serveSlots (rset : ℕ → Bool) : List (Option ℕ) → ℤ → (ℕ → Descriptor) →
    List (Option ℕ) × (ℕ → Descriptor) × Bytes
  | [], _, t => ([], t, [])
  | none :: slots, nready, t =>
    let (slots, t, out) := serveSlots rset slots nready t
    (none :: slots, t, out)
  | some fd :: slots, nready, t =>
    if rset fd then
      let slot := slotAfter reads fd (t fd)
      let text := shown reads fd (t fd)
      let t := update t fd (serve reads fd (t fd))
      let nready := nready - 1
      if nready = 0 then (slot :: slots, t, text)
      else
        let (slots, t, out) := serveSlots rset slots nready t
        (slot :: slots, t, text ++ out)
    else
      let (slots, t, out) := serveSlots rset slots nready t
      (some fd :: slots, t, out)

namespace Optimised

variable (s : Optimised)

def place (connfd : ℕ) : Except Stop Optimised :=
  match s.watch connfd with
  | .error e => .error e
  | .ok t =>
    let i := Slots.firstFree s.client
    if i = FD_SETSIZE then .error .tooManyClients
    else .ok { s with
      toServer := t
      client := s.client.set i (some connfd)
      maxi := if s.maxi < i then i else s.maxi }

def serveAll (rset : ℕ → Bool) (nready : ℤ) : Optimised :=
  let n := (s.maxi + 1).toNat
  let (slots, t, out) := serveSlots reads rset (s.client.take n) nready s.descriptor
  { s with descriptor := t, client := slots ++ s.client.drop n, stdout := s.stdout ++ out }

def step (r : Round) : Except Stop Optimised :=
  match r.select with
  | none => .error .selectFailed
  | some ready =>
    if s.rset ready s.listenfd then
      match r.accept with
      | none => .error .acceptFailed
      | some connfd =>
        match s.place connfd with
        | .error e => .error e
        | .ok t =>
          let nready := s.nready ready - 1
          if nready = 0 then .ok t else .ok (t.serveAll reads (s.rset ready) nready)
    else .ok (s.serveAll reads (s.rset ready) (s.nready ready))

end Optimised
end

end NetworkPrograms.Select
