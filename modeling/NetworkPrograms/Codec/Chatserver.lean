import NetworkPrograms.Codec.Arrival
import NetworkPrograms.Foundations.Keyed

/-!
# The chat server

`Chatserver` keeps the set of its connections. Every message that its codec
delivers, from whichever connection, is sent to all of them. The broadcast runs
inside the loop of `onMessage`, which need not return, so the steps of a run are
the callbacks of the library and the passes of that loop.
-/
namespace NetworkPrograms.Codec

open Function Words Frames

/-- A connection of the server: its input buffer, whether `shutdown` has been
called on it, and the bytes sent to it. -/
structure Peer where
  buf : Bytes := []
  shutdown : Bool := false
  out : Bytes := []
  deriving DecidableEq

/-- What the library has done with the server: a connection came up or went down, bytes have
arrived, or the codec has delivered a message from a connection. -/
inductive Event where
  | up (conn : ℕ)
  | down (conn : ℕ)
  | arrive (conn : ℕ) (bytes : Bytes)
  | message (conn : ℕ) (m : Bytes)
  deriving DecidableEq

/-- The connections by address, the set `connections_` in its order, the
connection whose arrival is being handled, and what happened so far, latest
first. The callbacks do not look at the history or write to it. -/
structure Chatserver where
  peer : ℕ → Peer := fun _ => {}
  connections_ : List ℕ := []
  running : Option ℕ := none
  history : List Event := []

namespace Chatserver

variable (s : Chatserver)

/-- The callback of the codec. -/
def onMessage (message : Bytes) : Chatserver :=
  { s with
    peer := Keyed.touchAll (fun _ p => { p with out := send p.out message }) s.connections_ s.peer }

def insert (conn : ℕ) (set : List ℕ) : List ℕ :=
  if conn ∈ set then set else set.orderedInsert (· ≤ ·) conn

def onConnection (conn : ℕ) (connected : Bool) : Chatserver :=
  if connected then { s with connections_ := insert conn s.connections_ }
  else { s with connections_ := s.connections_.erase conn }

def record (e : Event) : Chatserver := { s with history := e :: s.history }

/-- What a pass of the codec leaves in the connection it works on. -/
def keep (conn : ℕ) (c : Connection) : Chatserver :=
  { s with peer := update s.peer conn { s.peer conn with buf := c.buf, shutdown := c.shutdown } }

def deliver (conn : ℕ) (message : Bytes) : Chatserver :=
  (s.record (.message conn message)).onMessage message

/-- One pass of `LengthHeaderCodec::onMessage` with the server's callback. -/
def codecPass (conn : ℕ) : Loop.Pass Chatserver Chatserver :=
  match onMessagePass ⟨(s.peer conn).buf, [], (s.peer conn).shutdown⟩ with
  | .again c => .again (c.delivered.foldl (fun t => t.deliver conn) (s.keep conn c))
  | .leave c => .leave (s.keep conn c)

end Chatserver

/-- A callback, or a pass of the loop that an arrival has started. -/
inductive Input where
  | up (conn : ℕ)
  | down (conn : ℕ)
  | arrive (conn : ℕ) (bytes : Bytes)
  | pass

/-- Callbacks run one at a time: none starts before the one before has returned. -/
def Chatserver.step (s : Chatserver) : Input → Chatserver
  | .up conn => if s.running.isSome then s else (s.record (.up conn)).onConnection conn true
  | .down conn => if s.running.isSome then s else (s.record (.down conn)).onConnection conn false
  | .arrive conn bytes =>
    if s.running.isSome then s
    else { s.record (.arrive conn bytes) with
      running := some conn
      peer := update s.peer conn { s.peer conn with buf := (s.peer conn).buf ++ bytes } }
  | .pass => match s.running with
    | none => s
    | some conn => match s.codecPass conn with
      | .again t => t
      | .leave t => { t with running := none }

def Chatserver.run (inputs : List Input) : Chatserver := inputs.foldl Chatserver.step {}

/-! ## What a connection should hear -/

/-- Whether a connection is up after a history. -/
def isUp (conn : ℕ) : List Event → Bool
  | [] => false
  | .up c :: h => c = conn || isUp conn h
  | .down c :: h => c ≠ conn && isUp conn h
  | .arrive _ _ :: h => isUp conn h
  | .message _ _ :: h => isUp conn h

/-- The messages delivered while a connection was up, in the order of delivery. -/
def heard (conn : ℕ) : List Event → List Bytes
  | [] => []
  | .message _ m :: h => heard conn h ++ if isUp conn h then [m] else []
  | .up _ :: h => heard conn h
  | .down _ :: h => heard conn h
  | .arrive _ _ :: h => heard conn h

/-- The messages delivered from all connections, with the connection each came from. -/
def deliveries : List Event → List (ℕ × Bytes)
  | [] => []
  | .message c m :: h => deliveries h ++ [(c, m)]
  | .up _ :: h => deliveries h
  | .down _ :: h => deliveries h
  | .arrive _ _ :: h => deliveries h

/-- The bytes that have arrived on a connection. -/
def arrived (conn : ℕ) : List Event → Bytes
  | [] => []
  | .arrive c bytes :: h => arrived conn h ++ if c = conn then bytes else []
  | .up _ :: h => arrived conn h
  | .down _ :: h => arrived conn h
  | .message _ _ :: h => arrived conn h

/-- What a connection has said, according to a list of messages with their senders. -/
def said (conn : ℕ) (log : List (ℕ × Bytes)) : List Bytes :=
  (log.filter fun e => e.1 = conn).map Prod.snd

theorem said_concat (conn : ℕ) (log : List (ℕ × Bytes)) (e : ℕ × Bytes) :
    said conn (log ++ [e]) = said conn log ++ if e.1 = conn then [e.2] else [] := by
  by_cases he : e.1 = conn
  · simp [said, he]
  · simp [said, he]

theorem heard_sublist (conn : ℕ) (h : List Event) :
    (heard conn h).Sublist ((deliveries h).map Prod.snd) := by
  induction h with
  | nil => exact List.Sublist.refl []
  | cons e h ih =>
    cases e with
    | up c => exact ih
    | down c => exact ih
    | arrive c bytes => exact ih
    | message c m =>
      rw [heard, deliveries, List.map_append]
      apply ih.append
      split_ifs
      · exact List.Sublist.refl [m]
      · exact List.nil_sublist [m]

/-! ## The invariant -/

/-- What was sent follows from the history, and the history of deliveries from what has
arrived: a connection's buffer holds the bytes behind the frames of what it has said, and no
further frame once its callback has returned. -/
structure Chatserver.Inv (s : Chatserver) : Prop where
  nodup : s.connections_.Nodup
  members : ∀ conn, conn ∈ s.connections_ ↔ isUp conn s.history = true
  out : ∀ conn, (s.peer conn).out = stream (heard conn s.history)
  fits : ∀ m ∈ (deliveries s.history).map Prod.snd, Fits m
  split : ∀ conn, stream (said conn (deliveries s.history)) ++ (s.peer conn).buf =
    arrived conn s.history
  rest : ∀ conn, s.running ≠ some conn → Boundary (s.peer conn).buf

namespace Chatserver

theorem inv_init : Inv {} where
  nodup := List.nodup_nil
  members := by simp [isUp]
  out := by simp [heard]
  fits := by simp [deliveries]
  split := by simp [said, deliveries, arrived]
  rest := fun _ _ => boundary_nil

theorem mem_insert (conn c : ℕ) (set : List ℕ) : c ∈ insert conn set ↔ c = conn ∨ c ∈ set := by
  unfold insert
  split_ifs with h
  · constructor
    · exact .inr
    · rintro (rfl | hc)
      · exact h
      · exact hc
  · exact List.mem_orderedInsert _

theorem nodup_insert {set : List ℕ} (h : set.Nodup) (conn : ℕ) : (insert conn set).Nodup := by
  unfold insert
  split_ifs with hmem
  · exact h
  · exact (List.perm_orderedInsert _ conn set).nodup_iff.mpr (List.nodup_cons.mpr ⟨hmem, h⟩)

theorem Inv.up {s : Chatserver} (hs : s.Inv) (conn : ℕ) :
    ((s.record (.up conn)).onConnection conn true).Inv := by
  refine { hs with nodup := nodup_insert hs.nodup conn, members := ?_ }
  intro c
  change c ∈ insert conn s.connections_ ↔ (decide (conn = c) || isUp c s.history) = true
  rw [mem_insert, hs.members, Bool.or_eq_true, decide_eq_true_eq, @eq_comm _ c conn]

theorem Inv.down {s : Chatserver} (hs : s.Inv) (conn : ℕ) :
    ((s.record (.down conn)).onConnection conn false).Inv := by
  refine { hs with nodup := hs.nodup.erase conn, members := ?_ }
  intro c
  change c ∈ s.connections_.erase conn ↔ (decide (conn ≠ c) && isUp c s.history) = true
  rw [hs.nodup.mem_erase_iff, hs.members, Bool.and_eq_true, decide_eq_true_eq, ne_comm]

theorem Inv.arrive {s : Chatserver} (hs : s.Inv) (hrun : s.running = none) (conn : ℕ)
    (bytes : Bytes) :
    { s.record (.arrive conn bytes) with
      running := some conn
      peer := update s.peer conn
        { s.peer conn with buf := (s.peer conn).buf ++ bytes } : Chatserver }.Inv where
  nodup := hs.nodup
  members := hs.members
  out := by
    intro c
    by_cases hc : c = conn
    · subst hc
      simpa [record, heard] using hs.out c
    · simpa [record, heard, hc] using hs.out c
  fits := hs.fits
  split := by
    intro c
    by_cases hc : c = conn
    · subst hc
      simp only [record, update_self, deliveries, arrived, if_true, ← hs.split c,
        List.append_assoc]
    · simpa [record, hc, deliveries, arrived, Ne.symm hc] using hs.split c
  rest := by
    intro c hc
    have hne : c ≠ conn := fun heq => hc (heq ▸ rfl)
    simpa [hne] using hs.rest c (by simp [hrun])

/-- The broadcast adds a frame to what is sent on every connection in the set, and changes no
buffer. -/
theorem onMessage_peer {s : Chatserver} (h : s.connections_.Nodup) (m : Bytes) (conn : ℕ) :
    ((s.onMessage m).peer conn).buf = (s.peer conn).buf ∧
      ((s.onMessage m).peer conn).out =
        (s.peer conn).out ++ if conn ∈ s.connections_ then frame m else [] := by
  simp only [Chatserver.onMessage]
  rw [Keyed.touchAll_apply _ h]
  split_ifs
  · rw [send_eq]
    exact ⟨rfl, rfl⟩
  · simp

/-- What a pass of the loop does: it leaves without a change that the clients can see, it
stays where it is, or it takes a frame out of the buffer and delivers its message. -/
theorem codecPass_cases (s : Chatserver) (conn : ℕ) :
    (∃ b, s.codecPass conn = .leave (s.keep conn ⟨(s.peer conn).buf, [], b⟩) ∧
      Boundary (s.peer conn).buf) ∨
    s.codecPass conn = .again (s.keep conn ⟨(s.peer conn).buf, [], (s.peer conn).shutdown⟩) ∨
    ∃ p rest, Fits p ∧ (s.peer conn).buf = frame p ++ rest ∧
      s.codecPass conn =
        .again ((s.keep conn ⟨rest, [p], (s.peer conn).shutdown⟩).deliver conn p) := by
  rcases onMessagePass_cases ⟨(s.peer conn).buf, [], (s.peer conn).shutdown⟩ with
    ⟨hshort, he⟩ | ⟨-, hbad, he⟩ | ⟨p, rest, hp, hbuf, he⟩ | ⟨-, -, -, he⟩
  · exact .inl ⟨_, by rw [codecPass, he], .inl hshort⟩
  · exact .inl ⟨_, by rw [codecPass, he], .inr hbad⟩
  · refine .inr (.inr ⟨p, rest, hp, hbuf, ?_⟩)
    rw [codecPass, he]
    rfl
  · right
    left
    rw [codecPass, he]
    rfl

theorem keep_peer (s : Chatserver) (conn : ℕ) (c : Connection) (d : ℕ) :
    ((s.keep conn c).peer d).out = (s.peer d).out ∧
      ((s.keep conn c).peer d).buf = if d = conn then c.buf else (s.peer d).buf := by
  by_cases hd : d = conn
  · subst hd
    simp [keep]
  · simp [keep, hd]

theorem keep_same (s : Chatserver) (conn : ℕ) (b : Bool) (d : ℕ) :
    ((s.keep conn ⟨(s.peer conn).buf, [], b⟩).peer d).buf = (s.peer d).buf ∧
      ((s.keep conn ⟨(s.peer conn).buf, [], b⟩).peer d).out = (s.peer d).out := by
  refine ⟨?_, (keep_peer s conn _ d).1⟩
  rw [(keep_peer s conn _ d).2]
  split_ifs with hd
  · rw [hd]
  · rfl

theorem deliver_peer {s : Chatserver} (h : s.connections_.Nodup) (conn : ℕ) (p rest : Bytes)
    (b : Bool) (d : ℕ) :
    (((s.keep conn ⟨rest, [p], b⟩).deliver conn p).peer d).buf =
        (if d = conn then rest else (s.peer d).buf) ∧
      (((s.keep conn ⟨rest, [p], b⟩).deliver conn p).peer d).out =
        (s.peer d).out ++ if d ∈ s.connections_ then frame p else [] := by
  have hbroad := onMessage_peer
    (s := (s.keep conn ⟨rest, [p], b⟩).record (.message conn p)) h p d
  exact ⟨hbroad.1.trans (keep_peer s conn _ d).2,
    hbroad.2.trans (congrArg (· ++ _) (keep_peer s conn _ d).1)⟩

theorem Inv.keep {s : Chatserver} (hs : s.Inv) (conn : ℕ) (b : Bool) :
    (s.keep conn ⟨(s.peer conn).buf, [], b⟩).Inv := by
  refine { hs with out := ?_, split := ?_, rest := ?_ }
  · intro d
    rw [(keep_same s conn b d).2]
    exact hs.out d
  · intro d
    rw [(keep_same s conn b d).1]
    exact hs.split d
  · intro d hd
    rw [(keep_same s conn b d).1]
    exact hs.rest d hd

theorem Inv.deliver {s : Chatserver} (hs : s.Inv) {conn : ℕ} (hrun : s.running = some conn)
    {p rest : Bytes} (hp : Fits p) (hbuf : (s.peer conn).buf = frame p ++ rest) (b : Bool) :
    ((s.keep conn ⟨rest, [p], b⟩).deliver conn p).Inv := by
  have hpeer := deliver_peer hs.nodup conn p rest b
  constructor
  · exact hs.nodup
  · exact hs.members
  · intro d
    rw [(hpeer d).2, hs.out d]
    change _ = stream (heard d s.history ++ if isUp d s.history = true then [p] else [])
    rw [stream_append]
    by_cases hd : d ∈ s.connections_
    · rw [if_pos hd, if_pos ((hs.members d).mp hd)]
      simp
    · rw [if_neg hd, if_neg fun hup => hd ((hs.members d).mpr hup)]
      simp
  · intro m hm
    change m ∈ (deliveries s.history ++ [(conn, p)]).map Prod.snd at hm
    rw [List.map_append, List.mem_append] at hm
    rcases hm with hm | hm
    · exact hs.fits m hm
    · rw [List.mem_singleton.mp hm]
      exact hp
  · intro d
    change stream (said d (deliveries s.history ++ [(conn, p)])) ++ _ = arrived d s.history
    rw [(hpeer d).1, said_concat, stream_append, ← hs.split d]
    by_cases hd : d = conn
    · subst hd
      simp [hbuf]
    · simp [hd, Ne.symm hd]
  · intro d hd
    have hne : d ≠ conn := by
      rintro rfl
      exact hd hrun
    rw [(hpeer d).1, if_neg hne]
    apply hs.rest
    rw [hrun]
    exact fun heq => hne (Option.some.inj heq).symm

theorem Inv.pass {s : Chatserver} (hs : s.Inv) {conn : ℕ} (hrun : s.running = some conn) :
    (s.step .pass).Inv := by
  simp only [Chatserver.step, hrun]
  rcases s.codecPass_cases conn with ⟨b, he, hbound⟩ | he | ⟨p, rest, hp, hbuf, he⟩
  · rw [he]
    refine { hs.keep conn b with rest := ?_ }
    intro d _
    change Boundary ((s.keep conn ⟨(s.peer conn).buf, [], b⟩).peer d).buf
    rw [(keep_peer s conn _ d).2]
    split_ifs with hd
    · exact hbound
    · apply hs.rest
      rw [hrun]
      exact fun heq => hd (Option.some.inj heq).symm
  · rw [he]
    exact hs.keep conn _
  · rw [he]
    exact hs.deliver hrun hp hbuf _

theorem Inv.step {s : Chatserver} (hs : s.Inv) (i : Input) : (s.step i).Inv := by
  cases i with
  | up conn =>
    rw [Chatserver.step]
    split_ifs
    · exact hs
    · exact hs.up conn
  | down conn =>
    rw [Chatserver.step]
    split_ifs
    · exact hs
    · exact hs.down conn
  | arrive conn bytes =>
    rw [Chatserver.step]
    split_ifs with hrun
    · exact hs
    · exact hs.arrive (by simpa using hrun) conn bytes
  | pass =>
    cases hrun : s.running with
    | none =>
      simp only [Chatserver.step, hrun]
      exact hs
    | some conn => exact hs.pass hrun

theorem run_inv (inputs : List Input) : (Chatserver.run inputs).Inv :=
  List.foldlRecOn inputs Chatserver.step inv_init fun _ hs i _ => hs.step i

end Chatserver

/-- The broadcast, in every state of every run and for every connection. The
bytes sent to it are the frames of the messages delivered while it was up, each
once and in order, every one of a length that a receiving codec accepts, and
such a codec gets exactly these messages out of them. The messages delivered from
it are the frames at the start of what has arrived on it: what is left in its
buffer follows them, and holds no further frame once the callback has returned. -/
theorem broadcast_exact (inputs : List Input) (conn : ℕ) :
    ((Chatserver.run inputs).peer conn).out =
        stream (heard conn (Chatserver.run inputs).history) ∧
      (∀ m ∈ heard conn (Chatserver.run inputs).history, m.length ≤ 65536) ∧
      (∃ fuel, onMessage fuel ⟨((Chatserver.run inputs).peer conn).out, [], false⟩ =
        some ⟨[], heard conn (Chatserver.run inputs).history, false⟩) ∧
      stream (said conn (deliveries (Chatserver.run inputs).history)) ++
        ((Chatserver.run inputs).peer conn).buf = arrived conn (Chatserver.run inputs).history ∧
      ((Chatserver.run inputs).running ≠ some conn →
        Boundary ((Chatserver.run inputs).peer conn).buf) := by
  have hinv := Chatserver.run_inv inputs
  have hfits : ∀ m ∈ heard conn (Chatserver.run inputs).history, Fits m := by
    intro m hm
    exact hinv.fits m ((heard_sublist conn _).subset hm)
  refine ⟨hinv.out conn, ?_, ?_, hinv.split conn, hinv.rest conn⟩
  · intro m hm
    have hm' := hfits m hm
    unfold Fits maxLen at hm'
    omega
  · obtain ⟨fuel, hf⟩ := onMessage_returns_of_frames _ hfits boundary_nil [] false
    refine ⟨fuel, ?_⟩
    rw [hinv.out conn]
    simpa [onMessage] using hf

/-- Connection 0 sends a message in two arrivals; connection 1, which was up, gets it, and
connection 2, which came up later, does not. -/
theorem broadcast_exact_three :
    ∃ s, Chatserver.run [.up 0, .up 1, .arrive 0 [0, 0, 0], .pass, .arrive 0 [1, 104], .pass,
        .pass, .up 2] = s ∧ arrived 0 s.history = [0, 0, 0, 1, 104] ∧
      (s.peer 1).out = stream [[104]] ∧ (s.peer 2).out = [] ∧
      ∃ fuel, onMessage fuel ⟨(s.peer 1).out, [], false⟩ = some ⟨[], [[104]], false⟩ := by
  have hone := broadcast_exact [.up 0, .up 1, .arrive 0 [0, 0, 0], .pass, .arrive 0 [1, 104],
    .pass, .pass, .up 2] 1
  have htwo := broadcast_exact [.up 0, .up 1, .arrive 0 [0, 0, 0], .pass, .arrive 0 [1, 104],
    .pass, .pass, .up 2] 2
  exact ⟨_, rfl, by decide, hone.1, htwo.1, hone.2.2.1⟩

end NetworkPrograms.Codec
