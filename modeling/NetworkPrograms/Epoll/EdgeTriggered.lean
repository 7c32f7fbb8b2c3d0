import NetworkPrograms.Foundations.Words

/-!
# The edge-triggered server

The server of `ET非阻塞模式.c` registers its only connection with
`EPOLLIN | EPOLLET`, makes it non-blocking, and then reads five bytes at a time
until nothing is left, every time `epoll_wait` returns. The peer writes and
closes while the server is at any point of this, so a run is a list of their
steps in any order.

The kernel keeps one bit for the connection: an edge is pending when data or the
end of the stream has arrived since the last return of `epoll_wait`, or was
there when the connection was registered.
-/
namespace NetworkPrograms.Epoll

def MAXLEN : ℕ := 10

/-- What the server does next: `epoll_ctl`, `fcntl`, `epoll_wait`, `read`, or the
`write` of what was read. -/
inductive Phase where
  | accepted
  | registered
  | waiting
  | reading
  | writing (buf : Bytes)
  deriving DecidableEq

/-- The server, the edge, the socket buffer and whether the end of the stream has
arrived; all bytes that have arrived so far, and the standard output. -/
structure State where
  phase : Phase := .accepted
  edge : Bool := false
  socket : Bytes := []
  eof : Bool := false
  received : Bytes := []
  stdout : Bytes := []
  deriving DecidableEq

inductive Step where
  | peerWrites (bytes : Bytes)
  | peerCloses
  | server (count : ℕ)

namespace State

variable (s : State)

/-- The server sleeps in `epoll_wait`. -/
def Blocked : Prop := s.phase = .waiting ∧ s.edge = false

instance : Decidable s.Blocked := inferInstanceAs (Decidable (_ ∧ _))

/-- Something arrives: an edge, if the connection is registered. -/
def arrive (bytes : Bytes) (eof : Bool) : State :=
  { s with
    socket := s.socket ++ bytes
    received := s.received ++ bytes
    eof := eof
    edge := s.edge || s.phase ≠ .accepted }

/-- The next call of the server; `count` is how much a `read` may return. -/
def serve (count : ℕ) : State :=
  match s.phase with
  | .accepted => { s with phase := .registered, edge := s.socket ≠ [] || s.eof }
  | .registered => { s with phase := .waiting }
  | .waiting => if s.edge then { s with phase := .reading, edge := false } else s
  | .reading =>
    -- with nothing to read the result is 0 or -1, and the inner loop ends
    if s.socket = [] then { s with phase := .waiting }
    else
      let len := min (max 1 count) (min (MAXLEN / 2) s.socket.length)
      { s with phase := .writing (s.socket.take len), socket := s.socket.drop len }
  | .writing buf => { s with phase := .reading, stdout := s.stdout ++ buf }

/-- The peer writes nothing after closing, and an empty write sends nothing. -/
def step : Step → State
  | .peerWrites bytes => if s.eof || bytes = [] then s else s.arrive bytes false
  | .peerCloses => if s.eof then s else s.arrive [] true
  | .server count => s.serve count

def run (steps : List Step) : State := steps.foldl step {}

/-! ## No wake-up is lost -/

/-- The bytes that have been read and not yet written. -/
def inHand : Bytes :=
  match s.phase with
  | .writing buf => buf
  | _ => []

/-- No byte is lost or reordered, and while the server is on its way to
`epoll_wait`, or in it, a byte in the socket buffer means a pending edge. -/
structure Inv (s : State) : Prop where
  bytes : s.stdout ++ s.inHand ++ s.socket = s.received
  pending : s.phase = .registered ∨ s.phase = .waiting → s.edge = false → s.socket = []

variable {s}

theorem inv_init : Inv {} := ⟨rfl, fun _ _ => rfl⟩

theorem Inv.arrive (h : s.Inv) (bytes : Bytes) (eof : Bool) : (s.arrive bytes eof).Inv where
  bytes := by
    have hb := h.bytes
    change s.stdout ++ s.inHand ++ (s.socket ++ bytes) = s.received ++ bytes
    rw [← List.append_assoc, hb]
  pending := by
    intro hphase hedge
    -- the connection is registered, so there is an edge
    have hreg : s.phase ≠ .accepted := by
      rcases hphase with hp | hp
      · exact fun ha => by cases ha.symm.trans hp
      · exact fun ha => by cases ha.symm.trans hp
    simp [State.arrive, hreg] at hedge

/-- All that a call of the server can do. -/
inductive Served (s : State) : State → Prop where
  | registers (h : s.phase = .accepted) :
      Served s { s with phase := .registered, edge := s.socket ≠ [] || s.eof }
  | unblocks (h : s.phase = .registered) : Served s { s with phase := .waiting }
  | wakes (h : s.phase = .waiting) (edge : s.edge = true) :
      Served s { s with phase := .reading, edge := false }
  | sleeps (h : s.Blocked) : Served s s
  | reads (h : s.phase = .reading) (len : ℕ) (pos : 0 < len) (le : len ≤ s.socket.length) :
      Served s { s with phase := .writing (s.socket.take len), socket := s.socket.drop len }
  | finishes (h : s.phase = .reading) (empty : s.socket = []) :
      Served s { s with phase := .waiting }
  | writes (buf : Bytes) (h : s.phase = .writing buf) :
      Served s { s with phase := .reading, stdout := s.stdout ++ buf }

theorem served (s : State) (count : ℕ) : Served s (s.serve count) := by
  cases hphase : s.phase with
  | accepted =>
    rw [State.serve, hphase]
    exact .registers hphase
  | registered =>
    rw [State.serve, hphase]
    exact .unblocks hphase
  | waiting =>
    rw [State.serve, hphase]
    cases hedge : s.edge with
    | true => exact .wakes hphase hedge
    | false => exact .sleeps ⟨hphase, hedge⟩
  | reading =>
    rw [State.serve, hphase]
    by_cases hempty : s.socket = []
    · simp only [hempty, if_true]
      exact hempty ▸ .finishes hphase hempty
    · have hpos := List.length_pos_iff.mpr hempty
      simp only [hempty, if_false]
      exact .reads hphase _ (by unfold MAXLEN; omega) (by omega)
  | writing buf =>
    rw [State.serve, hphase]
    exact .writes buf hphase

theorem Inv.served (h : s.Inv) {t : State} (ht : Served s t) : t.Inv := by
  have hbytes := h.bytes
  cases ht with
  | registers hphase =>
    refine ⟨by simpa [inHand, hphase] using hbytes, fun _ hedge => ?_⟩
    simp only [Bool.or_eq_false_iff, decide_eq_false_iff_not, not_not] at hedge
    exact hedge.1
  | unblocks hphase =>
    exact ⟨by simpa [inHand, hphase] using hbytes, fun _ hedge => h.pending (.inl hphase) hedge⟩
  | wakes hphase hedge =>
    exact ⟨by simpa [inHand, hphase] using hbytes, fun hp => by simp at hp⟩
  | sleeps hblocked => exact h
  | reads hphase len _ _ =>
    exact ⟨by simpa [inHand, hphase] using hbytes, fun hp => by simp at hp⟩
  | finishes hphase hempty =>
    exact ⟨by simpa [inHand, hphase] using hbytes, fun _ _ => hempty⟩
  | writes buf hphase =>
    exact ⟨by simpa [inHand, hphase] using hbytes, fun hp => by simp at hp⟩

theorem Inv.step (h : s.Inv) (i : Step) : (s.step i).Inv := by
  cases i with
  | peerWrites bytes =>
    rw [State.step]
    split_ifs
    · exact h
    · exact h.arrive bytes false
  | peerCloses =>
    rw [State.step]
    split_ifs
    · exact h
    · exact h.arrive [] true
  | server count => exact h.served (s.served count)

theorem run_inv (steps : List Step) : (run steps).Inv :=
  List.foldlRecOn steps State.step inv_init fun _ h i _ => h.step i

theorem Inv.stdout_eq (h : s.Inv) (hblocked : s.Blocked) : s.stdout = s.received := by
  have hhand : s.inHand = [] := by simp [inHand, hblocked.1]
  have hb := h.bytes
  rw [hhand, h.pending (.inr hblocked.1) hblocked.2] at hb
  simpa using hb

/-- In every state of every interleaving, a server that sleeps without a pending
edge has written all that has arrived, in order and once. -/
theorem blocked_stdout_eq (steps : List Step) (h : (run steps).Blocked) :
    (run steps).stdout = (run steps).received :=
  (run_inv steps).stdout_eq h

/-- Two bytes arrive before the registration and one between two reads; the server
reads what there is, is woken once more and sleeps. -/
theorem blocked_stdout_eq_three :
    ∃ steps, steps = [.peerWrites [1, 2], .server 0, .server 0, .server 0, .server 1,
      .peerWrites [3]] ++ List.replicate 6 (.server 5) ∧
      (run steps).Blocked ∧ (run steps).stdout = [1, 2, 3] := by
  refine ⟨_, rfl, by decide +kernel, ?_⟩
  rw [blocked_stdout_eq _ (by decide +kernel)]
  decide +kernel

/-! ## The server gets there -/

/-- A bound on the calls that the server makes before it sleeps, when nothing more
arrives. -/
def work (s : State) : ℕ :=
  2 * s.socket.length + (if s.edge then 2 else 0) +
    match s.phase with
    | .accepted => 6
    | .registered => 3
    | .waiting => 0
    | .reading => 1
    | .writing _ => 2

theorem Served.work_lt {t : State} (ht : Served s t) (hs : ¬ s.Blocked) : t.work < s.work := by
  cases ht with
  | registers hphase =>
    simp only [work, hphase]
    split_ifs <;> omega
  | unblocks hphase =>
    simp only [work, hphase]
    omega
  | wakes hphase hedge =>
    simp [work, hphase, hedge]
  | sleeps hblocked => exact absurd hblocked hs
  | reads hphase len hpos hle =>
    simp only [work, hphase, List.length_drop]
    omega
  | finishes hphase hempty => simp [work, hphase]
  | writes buf hphase => simp [work, hphase]

theorem Served.eq_of_blocked {t : State} (ht : Served s t) (hs : s.Blocked) : t = s := by
  have hphase := hs.1
  cases ht with
  | sleeps _ => rfl
  | wakes _ hedge =>
    rw [hs.2] at hedge
    cases hedge
  | registers h | unblocks h | reads h | finishes h | writes _ h =>
    rw [h] at hphase
    cases hphase

theorem Served.received_eq {t : State} (ht : Served s t) : t.received = s.received := by
  cases ht <;> rfl

theorem foldl_server_of_blocked (hs : s.Blocked) (counts : List ℕ) :
    (counts.map .server).foldl step s = s := by
  induction counts with
  | nil => rfl
  | cons count counts ih =>
    have hsame : s.step (.server count) = s := (s.served count).eq_of_blocked hs
    rw [List.map_cons, List.foldl_cons, hsame, ih]

theorem foldl_server_blocked (s : State) (counts : List ℕ) (h : s.work ≤ counts.length) :
    ((counts.map .server).foldl step s).Blocked ∧
      ((counts.map .server).foldl step s).received = s.received := by
  induction counts generalizing s with
  | nil =>
    by_contra hs
    have hblocked : ¬ s.Blocked := fun hb => hs ⟨hb, rfl⟩
    have := (s.served 0).work_lt hblocked
    rw [List.length_nil] at h
    omega
  | cons count counts ih =>
    by_cases hs : s.Blocked
    · rw [foldl_server_of_blocked hs]
      exact ⟨hs, rfl⟩
    · have ht := s.served count
      have hlt := ht.work_lt hs
      rw [List.length_cons] at h
      obtain ⟨hblocked, hreceived⟩ := ih (s.serve count) (by omega)
      exact ⟨hblocked, hreceived.trans ht.received_eq⟩

/-- Whatever has happened, all that has arrived is written after enough calls of the
server, with any results of `read`. -/
theorem run_drained (steps : List Step) (counts : List ℕ)
    (h : (run steps).work ≤ counts.length) :
    (run (steps ++ counts.map .server)).stdout = (run steps).received := by
  have hinv := run_inv (steps ++ counts.map .server)
  rw [run, List.foldl_append] at hinv ⊢
  obtain ⟨hblocked, hreceived⟩ := foldl_server_blocked (run steps) counts h
  exact (hinv.stdout_eq hblocked).trans hreceived

end State
end NetworkPrograms.Epoll
