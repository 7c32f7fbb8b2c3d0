import NetworkPrograms.Foundations.Memory
import NetworkPrograms.Foundations.Runs

/-!
# The judge of the lab task

`NetworkTestServer` of `test_server.cpp`. Expected answers arrive by RPC,
received messages by `commit`, and `ResultQuery` compares the two streams by
position. Each operation holds `mtx`, so a run is a sequence of whole calls.

The map `info` holds pointers: a key may be absent, present with the null
pointer that `operator[]` inserts, or present with an object of the heap.
Counters are `uint32_t`, incremented modulo `2 ^ 32`.
-/
namespace NetworkPrograms.Judge

/-- The enumerators of `TestStatus` that the two programs name. -/
inductive TestStatus where
  | Success
  | Wait
  | WaitRPC
  | Diff
  | Unknow
  | ErrorLevel
  | TestError
  deriving DecidableEq, Repr

structure MessageInfo where
  answer : Bytes := []
  msg : Bytes := []
  deriving DecidableEq, Repr

/-- The state guarded by `mtx`, together with the heap its pointers lead into. -/
structure NetworkTestServer where
  status : TestStatus := .Success
  info : ℕ → Option (Option ℕ) := fun _ => none
  heap : Heap MessageInfo := Heap.empty
  recv_seq : ℕ := 0
  seq : ℕ := 0
  cmp : ℕ := 0

/-- The fields a reply carries; an identifier that is not set is 0. -/
structure Result where
  id : ℕ := 0
  reason : TestStatus
  deriving DecidableEq, Repr

def incr (n : ℕ) : ℕ := (n + 1) % 2 ^ 32

/-- `info[k]`: the pointer under a key, and the map with the key present. -/
def lookup (info : ℕ → Option (Option ℕ)) (k : ℕ) : Option ℕ × (ℕ → Option (Option ℕ)) :=
  let p := (info k).getD none
  (p, Function.update info k (some p))

namespace NetworkTestServer

variable (s : NetworkTestServer)

def AnswerRegister (content : Bytes) : Except Fault (NetworkTestServer × Result) :=
  if s.status ≠ .Success then .ok (s, { reason := s.status })
  else
    let (t, heap) := s.heap.alloc { answer := content }
    let seq := incr s.seq
    .ok ({ s with heap := heap, seq := seq, info := Function.update s.info seq (some (some t)) },
      { id := s.cmp, reason := .Success })

/-- The `while` loop of `Update`. Each round advances `cmp` by one, so that
`avaliableMaxResult - cmp` rounds are enough for the guard to fail. -/
def updateLoop (avaliableMaxResult : ℕ) :
    ℕ → NetworkTestServer → Except Fault NetworkTestServer
  | 0, s => .ok s
  | rounds + 1, s =>
    if s.cmp < avaliableMaxResult then do
      let cmp := incr s.cmp
      let (t, info) := lookup s.info cmp
      let m ← s.heap.load t
      if m.answer = m.msg then do
        let heap ← s.heap.delete t
        .ok { s with cmp := cmp, info := info, status := .Diff, heap := heap }
      else do
        let heap ← s.heap.delete t
        updateLoop avaliableMaxResult rounds
          { s with cmp := cmp, info := Function.update info cmp none, heap := heap }
    else .ok s

def Update : Except Fault NetworkTestServer :=
  if s.status ≠ .Success then .ok s
  else
    let avaliableMaxResult := min s.recv_seq s.seq
    if s.cmp > avaliableMaxResult then .ok { s with status := .TestError }
    else updateLoop avaliableMaxResult (avaliableMaxResult - s.cmp) s

def ResultQuery (queryIdx : ℕ) : Except Fault (NetworkTestServer × Result) :=
  if s.status ≠ .Success then .ok (s, { reason := s.status, id := s.cmp })
  else if queryIdx ≤ s.cmp then .ok (s, { reason := .Success, id := s.cmp })
  else do
    let s ← s.Update
    if s.cmp ≥ queryIdx then .ok (s, { reason := .Success, id := s.cmp })
    else if s.status ≠ .Success then .ok (s, { reason := s.status, id := s.cmp })
    else if s.cmp = s.recv_seq then .ok (s, { reason := .Wait, id := s.cmp })
    else if s.cmp = s.seq then .ok (s, { reason := .WaitRPC, id := s.cmp })
    else .ok ({ s with status := .TestError }, { reason := .TestError, id := s.cmp })

def commit (msg : Bytes) : Except Fault NetworkTestServer :=
  if s.status ≠ .Success then .ok s
  else do
    let recv_seq := incr s.recv_seq
    let (p, info) := lookup s.info recv_seq
    let (info, heap) := match p with
      | none =>
        let (t, heap) := s.heap.alloc {}
        (Function.update info recv_seq (some (some t)), heap)
      | some _ => (info, s.heap)
    let (t, info) := lookup info recv_seq
    let m ← heap.load t
    let heap ← heap.store t { m with msg := msg }
    .ok { s with recv_seq := recv_seq, info := info, heap := heap }

/-- The object under a key, if the key leads to a live one. -/
def entry (k : ℕ) : Option MessageInfo :=
  match s.info k with
  | some (some a) => s.heap.cells a
  | _ => none

end NetworkTestServer

inductive Call where
  | answerRegister (content : Bytes)
  | commit (msg : Bytes)
  | resultQuery (id : ℕ)
  deriving DecidableEq, Repr

/-- A judge together with the two histories it is meant to compare: the answers
registered and the messages committed while the status was `Success`. -/
structure Session where
  server : NetworkTestServer := {}
  answers : List Bytes := []
  msgs : List Bytes := []

def Session.step (x : Session) : Call → Except Fault Session
  | .answerRegister content => do
    let r ← x.server.AnswerRegister content
    .ok { x with
      server := r.1
      answers := if x.server.status = .Success then x.answers ++ [content] else x.answers }
  | .commit msg => do
    let s ← x.server.commit msg
    .ok { x with
      server := s
      msgs := if x.server.status = .Success then x.msgs ++ [msg] else x.msgs }
  | .resultQuery id => do
    let r ← x.server.ResultQuery id
    .ok { x with server := r.1 }

def Session.run (calls : List Call) : Except Fault Session := Runs.run Session.step {} calls

end NetworkPrograms.Judge
