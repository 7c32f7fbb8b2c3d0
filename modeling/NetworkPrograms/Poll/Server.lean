import NetworkPrograms.Foundations.Slots
import NetworkPrograms.Kernel.Calls

/-!
# A server around `poll`

The server of `poll.c`. Its array of `pollfd` lies on the stack, and only the descriptor
of an entry is set before the entry is used: `events` and `revents` hold what was there
before. `poll` writes `revents` in the entries up to `maxfd`. A connection that is
accepted takes the first free entry, and the scan that follows in the same round goes as
far as the new `maxfd`.

A round is one pass of `while (1)`. The kernel decides what `poll` reports, which
descriptor `accept` returns, and what `read` gives for an entry.
-/
namespace NetworkPrograms.Poll

open Function
open Kernel (ReadResult toupper)

def OPEN_MAX : ℕ := 1024

def POLLIN : ℕ := 1

/-- `struct pollfd`. A negative descriptor is `none`. -/
structure PollFd where
  fd : Option ℕ
  events : ℕ
  revents : ℕ

inductive Operation where
  | accept (cfd : ℕ)
  | read (fd : ℕ) (result : ReadResult)
  | write (fd : ℕ) (bytes : Bytes)
  | close (fd : ℕ)
  deriving DecidableEq

structure Server where
  fds : ℕ → PollFd
  maxfd : ℕ

/-- What the kernel answers in a round. `poll` and `read` are answered by entry. -/
structure Round where
  revents : ℕ → ℕ
  accept : Option ℕ
  read : ℕ → ReadResult

/-- The operations of a round, and the server after it unless it has called `exit`. -/
structure Outcome where
  operations : List Operation
  next : Option Server

/-- The entries before the first call of `poll`, with what the stack held in the other
two fields. -/
def init (lfd : ℕ) (events revents : ℕ → ℕ) : Server where
  fds := fun i => if i = 0 then ⟨some lfd, POLLIN, revents 0⟩ else ⟨none, events i, revents i⟩
  maxfd := 0

/-- The operations of a piece of the scan, and the entries after it unless it has called
`exit`. -/
abbrev Scan := List Operation × Option (ℕ → PollFd)

/-- One piece of the scan and then another one. -/
def Scan.andThen (first : Scan) (second : (ℕ → PollFd) → Scan) : Scan :=
  match first with
  | (ops, none) => (ops, none)
  | (ops, some fds) => (ops ++ (second fds).1, (second fds).2)

def visit (read : ℕ → ReadResult) (fds : ℕ → PollFd) (i : ℕ) : Scan :=
  match (fds i).fd with
  | none => ([], some fds)
  | some ccfd =>
    if (fds i).revents &&& POLLIN ≠ 0 then
      let result := read i
      match result with
      | .error => ([.read ccfd result], none)
      | .reset | .got [] =>
        ([.read ccfd result, .close ccfd], some (update fds i { fds i with fd := none }))
      | .got buf =>
        ([.read ccfd result, .write 1 buf, .write ccfd (buf.map toupper)], some fds)
    else ([], some fds)

/-- `for (i = 1; i <= maxfd; i++)`, over the entries still to come. -/
def scan (read : ℕ → ReadResult) : List ℕ → (ℕ → PollFd) → Scan
  | [], fds => ([], some fds)
  | i :: is, fds => (visit read fds i).andThen (scan read is)

def freeEntry (fds : ℕ → PollFd) : ℕ :=
  Slots.search (fun i => (fds i).fd.isNone) (OPEN_MAX - 1) 1

namespace Server

variable (s : Server)

def poll (revents : ℕ → ℕ) : Server :=
  { s with fds := fun i =>
      if i ≤ s.maxfd then
        { s.fds i with revents := if (s.fds i).fd = none then 0 else revents i }
      else s.fds i }

def nready : ℤ := ((List.range (s.maxfd + 1)).filter fun i => (s.fds i).revents ≠ 0).length

def serveAll (read : ℕ → ReadResult) : Outcome :=
  let (ops, left) := scan read (List.range' 1 s.maxfd) s.fds
  ⟨ops, left.map fun fds => { s with fds := fds }⟩

def place (cfd i : ℕ) : Server where
  fds := update s.fds i { s.fds i with fd := some cfd, events := POLLIN }
  maxfd := if s.maxfd < i then i else s.maxfd

def round (r : Round) : Outcome :=
  let s := s.poll r.revents
  if (s.fds 0).revents &&& POLLIN ≠ 0 then
    match r.accept with
    | none => ⟨[], none⟩
    | some cfd =>
      let i := freeEntry s.fds
      if i = OPEN_MAX then ⟨[.accept cfd], none⟩
      else
        let t := s.place cfd i
        if s.nready - 1 ≤ 0 then ⟨[.accept cfd], some t⟩
        else
          let out := t.serveAll r.read
          { out with operations := .accept cfd :: out.operations }
  else s.serveAll r.read

def step (r : Round) : Except Unit Server :=
  match (s.round r).next with
  | some t => .ok t
  | none => .error ()

/-- `accept` returns a descriptor that is not open. -/
def Legal (r : Round) : Prop := ∀ cfd ∈ r.accept, ∀ i, i < OPEN_MAX → (s.fds i).fd ≠ some cfd

instance (r : Round) : Decidable (s.Legal r) :=
  inferInstanceAs (Decidable (∀ cfd ∈ r.accept, ∀ i, i < OPEN_MAX → _))

end Server

def ready (fds : ℕ → PollFd) (i : ℕ) : Option ℕ :=
  if (fds i).revents &&& POLLIN ≠ 0 then (fds i).fd else none

/-- The clients that are reported with `POLLIN`. -/
def Server.reported (s : Server) : List ℕ := (List.range' 1 s.maxfd).filterMap (ready s.fds)

def readsOf (ops : List Operation) : List ℕ :=
  ops.filterMap fun
    | .read fd _ => some fd
    | _ => none

/-- The reads of a round are reads of reported clients, and every reported client is read
once if the round comes to its end. -/
def Server.ReadsReported (s : Server) (r : Round) : Prop :=
  let reads := readsOf (s.round r).operations
  let reported := (s.poll r.revents).reported
  reads <+: reported ∧ ((s.round r).next.isSome → reads = reported) ∧ reported.Nodup

/-- A connection is accepted together with an event of another entry, it is put into an
entry that `poll` has not been given, and that entry holds `POLLIN` from before; and no
`read` of a reported client ends the server first. -/
def Server.Stale (s : Server) (r : Round) : Prop :=
  let p := s.poll r.revents
  (p.fds 0).revents &&& POLLIN ≠ 0 ∧ r.accept ≠ none ∧ 1 < p.nready ∧
    s.maxfd < freeEntry p.fds ∧ freeEntry p.fds < OPEN_MAX ∧
    (s.fds (freeEntry p.fds)).revents &&& POLLIN ≠ 0 ∧
    ∀ i ∈ List.range' 1 s.maxfd, (ready p.fds i).isSome → r.read i ≠ .error

instance (s : Server) (r : Round) : Decidable (s.ReadsReported r) :=
  inferInstanceAs (Decidable (_ ∧ _ ∧ _))

instance (s : Server) (r : Round) : Decidable (s.Stale r) :=
  inferInstanceAs (Decidable (_ ∧ _ ∧ _ ∧ _ ∧ _ ∧ _ ∧ ∀ i ∈ _, _))

/-! ## The scan -/

@[simp] theorem readsOf_cons_read (fd : ℕ) (result : ReadResult) (ops : List Operation) :
    readsOf (.read fd result :: ops) = fd :: readsOf ops := rfl

@[simp] theorem readsOf_cons_accept (cfd : ℕ) (ops : List Operation) :
    readsOf (.accept cfd :: ops) = readsOf ops := rfl

theorem readsOf_append (ops ops' : List Operation) :
    readsOf (ops ++ ops') = readsOf ops ++ readsOf ops' := List.filterMap_append

@[simp] theorem Scan.andThen_none (ops : List Operation) (second : (ℕ → PollFd) → Scan) :
    Scan.andThen (ops, none) second = (ops, none) := rfl

@[simp] theorem Scan.andThen_some (ops : List Operation) (fds : ℕ → PollFd)
    (second : (ℕ → PollFd) → Scan) :
    Scan.andThen (ops, some fds) second = (ops ++ (second fds).1, (second fds).2) := rfl

theorem Scan.andThen_assoc (first : Scan) (second third : (ℕ → PollFd) → Scan) :
    (first.andThen second).andThen third =
      first.andThen fun fds => (second fds).andThen third := by
  obtain ⟨ops, left⟩ := first
  cases left with
  | none => rfl
  | some fds =>
    rcases h : second fds with ⟨ops', left'⟩
    cases left' <;> simp [h]

theorem scan_append (read : ℕ → ReadResult) (is js : List ℕ) (fds : ℕ → PollFd) :
    scan read (is ++ js) fds = (scan read is fds).andThen (scan read js) := by
  induction is generalizing fds with
  | nil => rfl
  | cons i is ih =>
    rw [List.cons_append, scan, scan, Scan.andThen_assoc]
    exact congrArg _ (funext ih)

theorem scan_singleton (read : ℕ → ReadResult) (i : ℕ) (fds : ℕ → PollFd) :
    scan read [i] fds = visit read fds i := by
  rw [scan]
  rcases visit read fds i with ⟨ops, left⟩
  cases left <;> simp [scan]

/-- What a scan over some entries has done: it has read ready clients in their order, all
of them if it was not ended by an error, and it has freed some entries. -/
structure Scanned (read : ℕ → ReadResult) (is : List ℕ) (fds : ℕ → PollFd) (result : Scan) :
    Prop where
  reads : readsOf result.1 <+: is.filterMap (ready fds)
  complete : result.2.isSome → readsOf result.1 = is.filterMap (ready fds)
  returns : result.2.isSome ↔ ∀ i ∈ is, (ready fds i).isSome → read i ≠ .error
  freed : ∀ left ∈ result.2, ∀ i, left i = fds i ∨ i ∈ is ∧ (left i).fd = none

/-- All that the body of the loop can do. -/
theorem visit_cases (read : ℕ → ReadResult) (fds : ℕ → PollFd) (i : ℕ) :
    (ready fds i = none ∧ visit read fds i = ([], some fds)) ∨
    ∃ ccfd ops, ready fds i = some ccfd ∧ readsOf ops = [] ∧
      (read i = .error ∧ visit read fds i = (.read ccfd (read i) :: ops, none) ∨
        read i ≠ .error ∧ ∃ left, visit read fds i = (.read ccfd (read i) :: ops, some left) ∧
          (left = fds ∨ left = update fds i { fds i with fd := none })) := by
  cases hfd : (fds i).fd with
  | none => exact .inl ⟨by simp [ready, hfd], by simp [visit, hfd]⟩
  | some ccfd =>
    by_cases hrev : (fds i).revents &&& POLLIN = 0
    · exact .inl ⟨by simp [ready, hrev], by simp [visit, hfd, hrev]⟩
    · have hready : ready fds i = some ccfd := by simp [ready, hfd, hrev]
      have hclose : read i = .reset ∨ read i = .got [] → visit read fds i =
          ([.read ccfd (read i), .close ccfd], some (update fds i { fds i with fd := none })) := by
        rintro (hread | hread) <;> simp [visit, hfd, hrev, hread]
      right
      cases hread : read i with
      | error =>
        exact ⟨ccfd, [], hready, rfl, .inl ⟨rfl, by simp [visit, hfd, hrev, hread]⟩⟩
      | reset =>
        rw [hread] at hclose
        exact ⟨ccfd, [.close ccfd], hready, rfl, .inr ⟨by simp, _, hclose (.inl rfl), .inr rfl⟩⟩
      | got buf =>
        cases buf with
        | nil =>
          rw [hread] at hclose
          exact ⟨ccfd, [.close ccfd], hready, rfl, .inr ⟨by simp, _, hclose (.inr rfl), .inr rfl⟩⟩
        | cons b buf =>
          exact ⟨ccfd, [.write 1 (b :: buf), .write ccfd ((b :: buf).map toupper)], hready,
            rfl, .inr ⟨by simp, fds, by simp [visit, hfd, hrev, hread], .inl rfl⟩⟩

theorem visit_reads (read : ℕ → ReadResult) (fds : ℕ → PollFd) (i : ℕ) :
    readsOf (visit read fds i).1 = [i].filterMap (ready fds) := by
  rcases visit_cases read fds i with
    ⟨hready, heq⟩ | ⟨ccfd, ops, hready, hops, ⟨-, heq⟩ | ⟨-, left, heq, -⟩⟩
  · simp [heq, hready, readsOf]
  · simp [heq, hready, hops]
  · simp [heq, hready, hops]

theorem visit_spec (read : ℕ → ReadResult) (fds : ℕ → PollFd) (i : ℕ) :
    Scanned read [i] fds (visit read fds i) := by
  have hreads := visit_reads read fds i
  refine ⟨hreads ▸ List.prefix_rfl, fun _ => hreads, ?_, ?_⟩
  · rcases visit_cases read fds i with
      ⟨hready, heq⟩ | ⟨ccfd, ops, hready, -, ⟨herror, heq⟩ | ⟨herror, left, heq, -⟩⟩
    · simp [heq, hready]
    · simp [heq, hready, herror]
    · simp [heq, herror]
  · intro left hleft j
    rcases visit_cases read fds i with
      ⟨-, heq⟩ | ⟨ccfd, ops, -, -, ⟨-, heq⟩ | ⟨-, left', heq, hchange⟩⟩ <;>
      rw [heq] at hleft <;> cases hleft
    · exact .inl rfl
    · rcases hchange with rfl | rfl
      · exact .inl rfl
      · rcases eq_or_ne j i with rfl | hne
        · exact .inr ⟨by simp, by simp⟩
        · exact .inl (update_of_ne hne _ _)

theorem filterMap_ready_congr {fds fds' : ℕ → PollFd} {is : List ℕ}
    (h : ∀ i ∈ is, fds' i = fds i) : is.filterMap (ready fds') = is.filterMap (ready fds) := by
  apply List.filterMap_congr
  intro i hi
  rw [ready, ready, h i hi]

theorem Scanned.andThen {read : ℕ → ReadResult} {is js : List ℕ} {fds : ℕ → PollFd} {first : Scan}
    {second : (ℕ → PollFd) → Scan} (h : Scanned read is fds first)
    (h' : ∀ left, Scanned read js left (second left)) (hdisj : is.Disjoint js) :
    Scanned read (is ++ js) fds (first.andThen second) := by
  obtain ⟨ops, rest⟩ := first
  cases rest with
  | none =>
    rw [Scan.andThen_none]
    refine ⟨?_, by simp, ?_, by simp⟩
    · rw [List.filterMap_append]
      exact h.reads.trans (List.prefix_append _ _)
    · refine iff_of_false (by simp) fun hall => ?_
      have hsome := h.returns.mpr fun i hi => hall i (List.mem_append_left js hi)
      cases hsome
  | some left =>
    rw [Scan.andThen_some]
    have hsame : ∀ j ∈ js, left j = fds j := by
      intro j hj
      rcases h.freed left rfl j with heq | ⟨hi, -⟩
      · exact heq
      · exact absurd hj (hdisj hi)
    obtain ⟨hreads, hcomplete, hreturns, hfreed⟩ := h' left
    have hfirst : readsOf ops = is.filterMap (ready fds) := h.complete rfl
    rw [filterMap_ready_congr hsame] at hreads hcomplete
    refine ⟨?_, ?_, ?_, ?_⟩
    · rw [readsOf_append, hfirst, List.filterMap_append, List.prefix_append_right_inj]
      exact hreads
    · intro hsome
      rw [readsOf_append, hfirst, List.filterMap_append, hcomplete hsome]
    · have hbefore := h.returns.mp rfl
      rw [hreturns, List.forall_mem_append]
      constructor
      · intro hall
        refine ⟨hbefore, fun j hj hready => hall j hj ?_⟩
        rwa [ready, hsame j hj]
      · rintro ⟨-, hall⟩ j hj hready
        rw [ready, hsame j hj] at hready
        exact hall j hj hready
    · intro last hlast j
      rcases hfreed last hlast j with heq | ⟨hj, hnone⟩
      · rcases h.freed left rfl j with heq' | ⟨hi, hnone⟩
        · exact .inl (heq.trans heq')
        · exact .inr ⟨List.mem_append_left js hi, by rw [heq, hnone]⟩
      · exact .inr ⟨List.mem_append_right is hj, hnone⟩

theorem scan_spec (read : ℕ → ReadResult) {is : List ℕ} (hnodup : is.Nodup) (fds : ℕ → PollFd) :
    Scanned read is fds (scan read is fds) := by
  induction is generalizing fds with
  | nil => exact ⟨List.prefix_rfl, fun _ => rfl, by simp [scan], by simp [scan]⟩
  | cons i is ih =>
    obtain ⟨hnot, hrest⟩ := List.nodup_cons.mp hnodup
    exact (visit_spec read fds i).andThen (ih hrest) (List.disjoint_singleton.mpr hnot).symm

theorem scan_concat (read : ℕ → ReadResult) {is : List ℕ} {j : ℕ} (hnodup : (is ++ [j]).Nodup)
    {fds : ℕ → PollFd} {cfd : ℕ} (hready : ready fds j = some cfd) :
    ((scan read is fds).2.isSome ∧
      readsOf (scan read (is ++ [j]) fds).1 = is.filterMap (ready fds) ++ [cfd]) ∨
    ((scan read is fds).2 = none ∧ scan read (is ++ [j]) fds = scan read is fds) := by
  have hscan := scan_spec read (List.nodup_append.mp hnodup).1 fds
  have hnot : j ∉ is := by
    intro hj
    exact (List.nodup_append.mp hnodup).2.2 j hj j (by simp) rfl
  rw [scan_append]
  rcases heq : scan read is fds with ⟨ops, left⟩
  rw [heq] at hscan
  cases left with
  | none => exact .inr ⟨rfl, rfl⟩
  | some left =>
    have hsame : left j = fds j := (hscan.freed left rfl j).resolve_right fun h => hnot h.1
    have hlast : readsOf (scan read [j] left).1 = [cfd] := by
      rw [scan_singleton, visit_reads, List.filterMap_cons_some (b := cfd), List.filterMap_nil]
      rw [← hready, ready, ready, hsame]
    left
    refine ⟨rfl, ?_⟩
    rw [Scan.andThen_some, readsOf_append, hlast, hscan.complete rfl]

end NetworkPrograms.Poll
