import NetworkPrograms.Codec.Chatserver
import NetworkPrograms.Foundations.Interleaving
import NetworkPrograms.Foundations.Memory

/-!
# The chat: clients, server and the connections between them

Any number of `chatClient`s write lines to one `Chatserver`, which sends every message to all
of them. A connection is two byte streams, of which any part may be on the way at any time.
The clients, the server and the arrivals are interleaved in every way; as before, the callbacks
of one program run one at a time, and the passes of `onMessage` are single steps. The server's
further threads, which share `connections_` without a lock, are left out, and so is a client
that connects again.
-/
namespace NetworkPrograms.Codec

open Function Words Frames

/-- A client: whether `connection_` is set, the codec with what it gave to
`onStringMessage`, and whether its loop is running. -/
structure ChatClient where
  connection_ : Bool := false
  conn : Connection := ⟨[], [], false⟩
  running : Bool := false

/-- What `onStringMessage` prints. -/
def printLine (message : Bytes) : Bytes := [60, 60, 60, 60, 32] ++ cstring message ++ [10]

def ChatClient.printed (c : ChatClient) : List Bytes := c.conn.delivered.map printLine

/-- The programs; for each connection what the client has on the way to the server, and how
many of the bytes that the server has sent have arrived; and the lines that were sent. -/
structure Chat where
  server : Chatserver := {}
  client : ℕ → ChatClient := fun _ => {}
  upstream : ℕ → Bytes := fun _ => []
  arrived : ℕ → ℕ := fun _ => 0
  written : ℕ → List Bytes := fun _ => []

namespace Chat

inductive Step where
  | onConnection (k : ℕ) (connected : Bool)
  | write (k : ℕ) (line : Bytes)
  | up (k : ℕ)
  | down (k : ℕ)
  | toServer (k n : ℕ)
  | serverPass
  | toClient (k n : ℕ)
  | clientPass (k : ℕ)

/-- `chatClient::write`, under the lock. -/
def write (s : Chat) (k : ℕ) (line : Bytes) : Chat :=
  if (s.client k).connection_ then
    { s with
      upstream := update s.upstream k (send (s.upstream k) line)
      written := update s.written k (s.written k ++ [line]) }
  else s

def setClient (s : Chat) (k : ℕ) (c : ChatClient) : Chat :=
  { s with client := update s.client k c }

def next (s : Chat) : Step → Chat
  | .onConnection k connected => s.setClient k { s.client k with connection_ := connected }
  | .write k line => s.write k line
  | .up k => { s with server := s.server.step (.up k) }
  | .down k => { s with server := s.server.step (.down k) }
  | .toServer k n =>
    { s with
      server := s.server.step (.arrive k ((s.upstream k).take n))
      upstream := update s.upstream k ((s.upstream k).drop n) }
  | .serverPass => { s with server := s.server.step .pass }
  | .toClient k n =>
    let c := s.client k
    let bytes := ((s.server.peer k).out.drop (s.arrived k)).take n
    let conn := { c.conn with buf := c.conn.buf ++ bytes }
    { s.setClient k { c with conn := conn, running := true } with
      arrived := update s.arrived k (s.arrived k + n) }
  | .clientPass k =>
    match onMessagePass (s.client k).conn with
    | .again conn => s.setClient k { s.client k with conn := conn }
    | .leave conn => s.setClient k { s.client k with conn := conn, running := false }

/-- A connection comes up once. The library calls one callback of a program at a time, and
for connections that are up. -/
def Enabled (s : Chat) : Step → Prop
  | .onConnection _ _ => True
  | .write _ _ => True
  | .up k => s.server.running = none ∧ Event.up k ∉ s.server.history
  | .down k => s.server.running = none ∧ k ∈ s.server.connections_
  | .toServer k n =>
    s.server.running = none ∧ k ∈ s.server.connections_ ∧ 0 < n ∧ n ≤ (s.upstream k).length
  | .serverPass => s.server.running.isSome
  | .toClient k n => (s.client k).running = false ∧ (s.client k).connection_ = true ∧ 0 < n ∧
      s.arrived k + n ≤ (s.server.peer k).out.length
  | .clientPass k => (s.client k).running = true

def Reachable (s : Chat) : Prop := Interleaving.Reachable next Enabled {} s

end Chat

/-! ## The server -/

/-- What a pass of the server's loop does. It delivers a frame from the buffer of its
connection, or changes nothing that the clients can see. -/
theorem Chatserver.pass_cases {s : Chatserver} (hs : s.Inv) {conn : ℕ}
    (hrun : s.running = some conn) :
    ((s.step .pass).history = s.history ∧
      ∀ k, ((s.step .pass).peer k).buf = (s.peer k).buf ∧
        ((s.step .pass).peer k).out = (s.peer k).out) ∨
    ∃ p rest, (s.peer conn).buf = frame p ++ rest ∧
      (s.step .pass).history = .message conn p :: s.history ∧
      (∀ k, ((s.step .pass).peer k).buf = if k = conn then rest else (s.peer k).buf) ∧
      ∀ k, (s.peer k).out <+: ((s.step .pass).peer k).out := by
  simp only [Chatserver.step, hrun]
  rcases s.codecPass_cases conn with ⟨b, he, -⟩ | he | ⟨p, rest, -, hbuf, he⟩
  · rw [he]
    exact .inl ⟨rfl, keep_same s conn b⟩
  · rw [he]
    exact .inl ⟨rfl, keep_same s conn _⟩
  · rw [he]
    have hpeer := deliver_peer hs.nodup conn p rest (s.peer conn).shutdown
    refine .inr ⟨p, rest, hbuf, rfl, fun k => (hpeer k).1, ?_⟩
    intro k
    exact ⟨_, (hpeer k).2.symm⟩

namespace Chat

/-- The bytes of every connection are accounted for. What a client has written is what it has
said, what the server has not decoded yet and what is on the way; what has arrived at a client
is what it was given and its buffer. -/
structure Inv (s : Chat) : Prop where
  server : s.server.Inv
  source : ∀ k, stream (said k (deliveries s.server.history)) ++ (s.server.peer k).buf ++
    s.upstream k = stream (s.written k)
  sink : ∀ k, stream (s.client k).conn.delivered ++ (s.client k).conn.buf =
    (s.server.peer k).out.take (s.arrived k)
  reach : ∀ k, s.arrived k ≤ (s.server.peer k).out.length
  fits : ∀ k, ∀ m ∈ (s.client k).conn.delivered, Fits m

theorem inv_init : Inv {} := by
  constructor
  · exact Chatserver.inv_init
  · simp [said, deliveries]
  · simp
  · simp
  · simp

theorem Inv.of_server {s : Chat} (h : Inv s) {server : Chatserver} (hserver : server.Inv)
    (hsaid : deliveries server.history = deliveries s.server.history)
    (hpeer : ∀ k, (server.peer k).buf = (s.server.peer k).buf ∧
      (server.peer k).out = (s.server.peer k).out) : Inv { s with server := server } := by
  constructor
  · exact hserver
  · intro k
    rw [hsaid, (hpeer k).1]
    exact h.source k
  · intro k
    rw [(hpeer k).2]
    exact h.sink k
  · intro k
    rw [(hpeer k).2]
    exact h.reach k
  · exact h.fits

theorem Inv.write {s : Chat} (h : Inv s) (k : ℕ) (line : Bytes) :
    Inv (s.write k line) := by
  unfold Chat.write
  split_ifs
  · refine { h with source := ?_ }
    intro j
    by_cases hj : j = k
    · subst hj
      simp only [update_self, send_eq, stream_append]
      rw [← List.append_assoc, h.source j]
      simp
    · simp only [update_of_ne hj]
      exact h.source j
  · exact h

theorem Inv.toServer {s : Chat} (h : Inv s) {k n : ℕ}
    (hrun : s.server.running = none) : Inv (s.next (.toServer k n)) := by
  have hstep : s.server.step (.arrive k ((s.upstream k).take n)) =
      { s.server.record (.arrive k ((s.upstream k).take n)) with
        running := some k
        peer := update s.server.peer k { s.server.peer k with
          buf := (s.server.peer k).buf ++ (s.upstream k).take n } } := by
    simp [Chatserver.step, hrun]
  have hout : ∀ j, ((s.server.step (.arrive k ((s.upstream k).take n))).peer j).out =
      (s.server.peer j).out := by
    intro j
    rw [hstep]
    by_cases hj : j = k
    · subst hj
      simp
    · simp [hj]
  constructor
  · exact h.server.step (.arrive k ((s.upstream k).take n))
  · intro j
    simp only [Chat.next, hstep, Chatserver.record, deliveries]
    by_cases hj : j = k
    · subst hj
      simp only [update_self]
      rw [← List.append_assoc, List.append_assoc _ (List.take _ _), List.take_append_drop]
      exact h.source j
    · simp only [update_of_ne hj]
      exact h.source j
  · intro j
    simp only [Chat.next, hout]
    exact h.sink j
  · intro j
    simp only [Chat.next, hout]
    exact h.reach j
  · exact h.fits

theorem Inv.serverPass {s : Chat} (h : Inv s)
    (hrun : s.server.running.isSome) : Inv (s.next .serverPass) := by
  obtain ⟨conn, hconn⟩ := Option.isSome_iff_exists.mp hrun
  rcases Chatserver.pass_cases h.server hconn with ⟨hhistory, hpeer⟩ | ⟨p, rest, hbuf, hhistory,
    hbufs, houts⟩
  · exact h.of_server (h.server.step .pass) (by rw [hhistory]) hpeer
  · refine ⟨h.server.step .pass, ?_, ?_, ?_, h.fits⟩
    · intro k
      simp only [Chat.next, hhistory, hbufs, deliveries, said_concat]
      by_cases hk : k = conn
      · subst hk
        have hsource := h.source k
        rw [hbuf] at hsource
        simp only [if_true, stream_append, stream_cons, stream_nil, List.append_nil]
        rw [← hsource]
        simp
      · simp only [if_neg hk, if_neg (Ne.symm hk), List.append_nil]
        exact h.source k
    · intro k
      obtain ⟨more, hmore⟩ := houts k
      simp only [Chat.next, ← hmore]
      rw [List.take_append_of_le_length (h.reach k)]
      exact h.sink k
    · intro k
      exact (h.reach k).trans (houts k).length_le

theorem Inv.setClient {s : Chat} (h : Inv s) {k : ℕ} {c : ChatClient}
    (hsink : stream c.conn.delivered ++ c.conn.buf =
      stream (s.client k).conn.delivered ++ (s.client k).conn.buf)
    (hfits : ∀ m ∈ c.conn.delivered, Fits m) : Inv (s.setClient k c) := by
  refine { h with sink := ?_, fits := ?_ }
  · intro j
    by_cases hj : j = k
    · subst hj
      simp only [Chat.setClient, update_self]
      exact hsink.trans (h.sink j)
    · simp only [Chat.setClient, update_of_ne hj]
      exact h.sink j
  · intro j
    by_cases hj : j = k
    · subst hj
      simp only [Chat.setClient, update_self]
      exact hfits
    · simp only [Chat.setClient, update_of_ne hj]
      exact h.fits j

theorem Inv.toClient {s : Chat} (h : Inv s) {k n : ℕ}
    (hn : s.arrived k + n ≤ (s.server.peer k).out.length) : Inv (s.next (.toClient k n)) := by
  refine { h with sink := ?_, reach := ?_, fits := ?_ }
  · intro j
    by_cases hj : j = k
    · subst hj
      simp only [Chat.next, Chat.setClient, update_self]
      rw [← List.append_assoc, h.sink j, List.take_add]
    · simp only [Chat.next, Chat.setClient, update_of_ne hj]
      exact h.sink j
  · intro j
    by_cases hj : j = k
    · subst hj
      simp only [Chat.next, update_self]
      exact hn
    · simp only [Chat.next, update_of_ne hj]
      exact h.reach j
  · intro j
    by_cases hj : j = k
    · subst hj
      simp only [Chat.next, Chat.setClient, update_self]
      exact h.fits j
    · simp only [Chat.next, Chat.setClient, update_of_ne hj]
      exact h.fits j

theorem Inv.clientPass {s : Chat} (h : Inv s) (k : ℕ) :
    Inv (s.next (.clientPass k)) := by
  simp only [Chat.next]
  rcases onMessagePass_cases (s.client k).conn with
    ⟨-, he⟩ | ⟨-, -, he⟩ | ⟨p, rest, hp, hbuf, he⟩ | ⟨-, -, -, he⟩
  · rw [he]
    exact h.setClient rfl (h.fits k)
  · rw [he]
    exact h.setClient rfl (h.fits k)
  · rw [he]
    apply h.setClient
    · simp [hbuf, stream_append]
    · intro m hm
      rcases List.mem_append.mp hm with hm | hm
      · exact h.fits k m hm
      · rw [List.mem_singleton.mp hm]
        exact hp
  · rw [he]
    exact h.setClient rfl (h.fits k)

theorem Inv.next {s : Chat} (h : Inv s) {i : Step} (hi : s.Enabled i) : Inv (s.next i) := by
  cases i with
  | onConnection k connected => exact h.setClient rfl (h.fits k)
  | write k line => exact h.write k line
  | up k =>
    apply h.of_server (h.server.step _)
    · simp [Chatserver.step, hi.1, Chatserver.onConnection, Chatserver.record, deliveries]
    · simp [Chatserver.step, hi.1, Chatserver.onConnection, Chatserver.record]
  | down k =>
    apply h.of_server (h.server.step _)
    · simp [Chatserver.step, hi.1, Chatserver.onConnection, Chatserver.record, deliveries]
    · simp [Chatserver.step, hi.1, Chatserver.onConnection, Chatserver.record]
  | toServer k n => exact h.toServer hi.1
  | serverPass => exact h.serverPass hi
  | toClient k n => exact h.toClient hi.2.2.2
  | clientPass k => exact h.clientPass k

theorem Reachable.inv {s : Chat} (h : s.Reachable) : Inv s :=
  Interleaving.Reachable.invariant h Inv inv_init fun _ _ hinv hi => hinv.next hi

theorem prefix_of_stream {qs ps : List Bytes} {tail : Bytes} (hqs : ∀ q ∈ qs, q.length < 2 ^ 31)
    (hps : ∀ p ∈ ps, p.length < 2 ^ 31) (h : stream qs ++ tail = stream ps) : qs <+: ps := by
  induction qs generalizing ps with
  | nil => exact List.nil_prefix
  | cons q qs ih =>
    cases ps with
    | nil =>
      have hlen := congrArg List.length h
      simp at hlen
    | cons p ps =>
      rw [stream_cons, stream_cons, List.append_assoc] at h
      obtain ⟨rfl, htail⟩ := frame_append_inj (hqs q (by simp)) (hps p (by simp)) h
      apply (List.prefix_cons_inj q).mpr
      exact ih (fun q' hq' => hqs q' (by simp [hq'])) (fun p' hp' => hps p' (by simp [hp'])) htail

/-- The chat in every interleaving. There is one list of messages with their senders, in which
the lines of each client stand in the order in which it wrote them, each once. What a client
has printed is the beginning of what was sent round while its connection was up, and that is a
part of the list in its order. -/
theorem chat_agreement {s : Chat} (h : s.Reachable)
    (hlines : ∀ k, ∀ line ∈ s.written k, line.length < 2 ^ 31) :
    ∃ log : List (ℕ × Bytes), (∀ k, said k log <+: s.written k) ∧
      (∀ k, (s.client k).printed <+: (heard k s.server.history).map printLine) ∧
      ∀ k, (heard k s.server.history).Sublist (log.map Prod.snd) := by
  have hinv := h.inv
  have hfits : ∀ m ∈ (deliveries s.server.history).map Prod.snd, m.length < 2 ^ 31 :=
    fun m hm => (hinv.server.fits m hm).length_lt
  refine ⟨deliveries s.server.history, ?_, ?_, fun k => heard_sublist k _⟩
  · intro k
    have hsource := hinv.source k
    rw [List.append_assoc] at hsource
    apply prefix_of_stream _ (hlines k) hsource
    intro q hq
    obtain ⟨e, he, rfl⟩ := List.mem_map.mp hq
    exact hfits _ (List.mem_map_of_mem (List.mem_of_mem_filter he))
  · intro k
    apply List.IsPrefix.map
    have hsink := congrArg (· ++ (s.server.peer k).out.drop (s.arrived k)) (hinv.sink k)
    simp only [List.append_assoc, List.take_append_drop, hinv.server.out k] at hsink
    apply prefix_of_stream _ _ hsink
    · intro q hq
      exact (hinv.fits k q hq).length_lt
    · intro p hp
      exact hfits p ((heard_sublist k _).subset hp)

/-- A line that has come to another client. -/
theorem chat_agreement_two : ∃ s : Chat, s.Reachable ∧ s.written 0 = [[104]] ∧
    (s.client 1).printed = [printLine [104]] ∧ ∃ log : List (ℕ × Bytes),
      (∀ k, said k log <+: s.written k) ∧
      ∀ k, (heard k s.server.history).Sublist (log.map Prod.snd) := by
  have hreach : Reachable ([.onConnection 0 true, .onConnection 1 true, .up 0, .up 1,
      .write 0 [104], .toServer 0 5, .serverPass, .serverPass, .toClient 1 5,
      .clientPass 1].foldl next {}) := by
    apply Interleaving.Reachable.foldl .init
    refine ⟨trivial, trivial, ⟨rfl, by decide⟩, ⟨rfl, by decide⟩, trivial,
      ⟨rfl, by decide, by decide, by decide⟩, rfl, rfl, ⟨rfl, rfl, by decide, by decide⟩, rfl,
      trivial⟩
  have hlines : ∀ k, ∀ line ∈ (update (fun _ => []) 0 [[104]] : ℕ → List Bytes) k,
      line.length < 2 ^ 31 := by
    intro k line hline
    by_cases hk : k = 0
    · subst hk
      rw [update_self, List.mem_singleton] at hline
      simp [hline]
    · rw [update_of_ne hk] at hline
      cases hline
  obtain ⟨log, hsaid, -, hheard⟩ := chat_agreement hreach hlines
  exact ⟨_, hreach, rfl, by decide, log, hsaid, hheard⟩

end Chat

end NetworkPrograms.Codec
