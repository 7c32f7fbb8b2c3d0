import NetworkPrograms.Framing.Delivery

/-!
# The transfer of the lab task

Messages travel from the generators of `ClientTester` through the queue
`MsgBuf`, the client's main loop, one connection, and the server's main loop to
`commit`. The generating thread and the main loop of the client run side by
side, so a run of the client is a list of their turns in any order. The queue
itself is not part of the repository: it hands out the strings in the order in
which they were pushed, and an empty string when it has none.
-/
namespace NetworkPrograms.Judge

open Transport Words Frames Framing

/-- One turn of the client: a round of a generator with the values it draws, or
a round of the main loop. The types are the ranges of the three distributions. -/
inductive Turn where
  | genAsciiMsg (len : Fin 4097) (ch : {c : UInt8 // 32 ≤ c ∧ c ≤ 126})
  | genBinMsg (len : Fin 4097) (chars : ℕ → UInt8)
  | pop

/-- The string a generator registers and then pushes. -/
def Turn.generated : Turn → List Bytes
  | .genAsciiMsg len ch => [List.replicate len ch]
  | .genBinMsg len chars => [(List.range len).map chars]
  | .pop => []

/-- The client: the answers registered, the queue, and the connection. -/
structure Client where
  registered : List Bytes := []
  queue : List Bytes := []
  out : Outgoing := {}

/-- The main loop skips a string of size 0; the return value of `sendMsg` is not
looked at. -/
def Client.turn (σ : Schedule) (fuel : ℕ) (cfd : ℤ) (c : Client) : Turn → Option Client
  | .pop => match c.queue with
    | [] => some c
    | str :: queue =>
      if str.length = 0 then some { c with queue := queue }
      else do
        let r ← sendMsg σ fuel c.out cfd (some str) str.length
        some { c with queue := queue, out := r.2 }
  | t => some { c with
      registered := c.registered ++ t.generated, queue := c.queue ++ t.generated }

def clientMain (σ : Schedule) (fuel : ℕ) (cfd : ℤ) (turns : List Turn) : Option Client :=
  turns.foldlM (Client.turn σ fuel cfd) {}

/-- The server: whether a connection is still to be accepted, whether it is in
the interest list, the connection, and the strings passed to `commit`. -/
structure Server where
  waiting : Bool := true
  registered : Bool := false
  inc : Incoming
  committed : List Bytes := []

/-- The server's main loop, one reported event a round, until `epoll_wait` has
nothing more to report. A negative length ends the program: the constructor of
`std::string` throws. -/
def serverMain (env : Env) (fuel : ℕ) : ℕ → Server → Option (List Bytes)
  | 0, _ => none
  | rounds + 1, s =>
    if s.waiting then serverMain env fuel rounds { s with waiting := false, registered := true }
    else if s.registered = true ∧ (s.inc.pending ≠ [] ∨ s.inc.eof = true) then
      match recvMsg env fuel s.inc with
      | none => none
      | some (r, inc) =>
        if r.ret = 0 then serverMain env fuel rounds { s with inc := inc, registered := false }
        else if r.ret < 0 then none
        else serverMain env fuel rounds
          { s with inc := inc, committed := s.committed ++ [r.data.read 0 r.ret.toNat] }
    else some s.committed

/-! ## The client -/

theorem Turn.length_generated (t : Turn) : ∀ m ∈ t.generated, m.length ≤ 4096 := by
  cases t with
  | genAsciiMsg len ch => simp [Turn.generated, Nat.le_of_lt_succ len.isLt]
  | genBinMsg len chars => simp [Turn.generated, Nat.le_of_lt_succ len.isLt]
  | pop => simp [Turn.generated]

/-- The strings of a list that the main loop sends. -/
def nonempty (msgs : List Bytes) : List Bytes := msgs.filter (· ≠ [])

/-- What a stretch of the client's run from `c` to `c'` has done: the generated
strings are registered and queued, and those popped are on the connection, the
empty ones left out. -/
structure Client.Moved (c : Client) (generated : List Bytes) (c' : Client) : Prop where
  registered : c'.registered = c.registered ++ generated
  popped : ∃ popped, c.queue ++ generated = popped ++ c'.queue ∧
    c'.out.wire = c.out.wire ++ stream (nonempty popped)

theorem Client.Moved.refl (c : Client) : c.Moved [] c where
  registered := by simp
  popped := ⟨[], by simp, by simp [nonempty]⟩

theorem Client.Moved.trans {a b c : Client} {g h : List Bytes} (hab : a.Moved g b)
    (hbc : b.Moved h c) : a.Moved (g ++ h) c := by
  obtain ⟨p, hp, hpw⟩ := hab.popped
  obtain ⟨q, hq, hqw⟩ := hbc.popped
  refine ⟨by rw [hbc.registered, hab.registered, List.append_assoc], p ++ q, ?_, ?_⟩
  · rw [← List.append_assoc, hp, List.append_assoc, hq, List.append_assoc]
  · rw [hqw, hpw, List.append_assoc, ← stream_append, nonempty, nonempty, nonempty,
      List.filter_append]

theorem Client.Moved.short {c c' : Client} {g : List Bytes} (h : c.Moved g c')
    (hc : ∀ m ∈ c.queue, m.length ≤ 4096) (hg : ∀ m ∈ g, m.length ≤ 4096) :
    ∀ m ∈ c'.queue, m.length ≤ 4096 := by
  obtain ⟨p, hp, -⟩ := h.popped
  intro m hm
  have hmem : m ∈ c.queue ++ g := hp ▸ List.mem_append_right p hm
  rcases List.mem_append.mp hmem with h | h
  · exact hc m h
  · exact hg m h

section Sending

variable {σ : Schedule} (hσ : σ.NeverFails) (hz : σ.FinitelyManyZeros) {cfd : ℤ} (hfd : 0 ≤ cfd)

include hσ hz hfd

theorem Client.turn_spec {c : Client} (hc : ∀ m ∈ c.queue, m.length ≤ 4096) (t : Turn) :
    ∃ N c', (∀ fuel, N ≤ fuel → c.turn σ fuel cfd t = some c') ∧ c.Moved t.generated c' := by
  cases t with
  | genAsciiMsg len ch => exact ⟨0, _, fun _ _ => rfl, rfl, [], rfl, by simp [nonempty]⟩
  | genBinMsg len chars => exact ⟨0, _, fun _ _ => rfl, rfl, [], rfl, by simp [nonempty]⟩
  | pop =>
    cases hq : c.queue with
    | nil => exact ⟨0, c, fun _ _ => by simp [Client.turn, hq], .refl c⟩
    | cons str queue =>
      have hlen := hc str (by simp [hq])
      by_cases h0 : str.length = 0
      · refine ⟨0, { c with queue := queue }, fun _ _ => by simp [Client.turn, hq, h0], by
          simp [Turn.generated], [str], by simp [hq, Turn.generated], ?_⟩
        simp [nonempty, List.length_eq_zero_iff.mp h0]
      · obtain ⟨N, out', hrun, hwire⟩ := sendMsg_spec hσ hz c.out hfd (m := str) (by omega)
          (by unfold INT_MAX; omega)
        refine ⟨N, { c with queue := queue, out := out' }, fun fuel hfuel => ?_, by
          simp [Turn.generated], [str], by simp [hq, Turn.generated], ?_⟩
        · simp [Client.turn, hq, h0, hrun fuel hfuel]
        · have hne : str ≠ [] := fun h => h0 (by simp [h])
          simp [nonempty, hne, hwire]

theorem Client.run_spec (turns : List Turn) {c : Client} (hc : ∀ m ∈ c.queue, m.length ≤ 4096) :
    ∃ N c', (∀ fuel, N ≤ fuel → turns.foldlM (Client.turn σ fuel cfd) c = some c') ∧
      c.Moved (turns.flatMap Turn.generated) c' := by
  induction turns generalizing c with
  | nil => exact ⟨0, c, fun _ _ => rfl, .refl c⟩
  | cons t ts ih =>
    obtain ⟨N₁, c₁, hrun₁, hmoved₁⟩ := Client.turn_spec hσ hz hfd hc t
    obtain ⟨N₂, c₂, hrun₂, hmoved₂⟩ := ih (hmoved₁.short hc t.length_generated)
    refine ⟨max N₁ N₂, c₂, fun fuel hfuel => ?_, hmoved₁.trans hmoved₂⟩
    simp [hrun₁ fuel (by omega), hrun₂ fuel (by omega)]

end Sending

/-! ## The server -/

theorem read_of_whole {r : Received} {m : Bytes} (h : Delivery.Matches r (.whole m)) :
    r.data.read 0 r.ret.toNat = m := by
  obtain ⟨hret, -, hread⟩ := h
  rw [hret, Int.toNat_natCast]
  have htake := congrArg (List.take m.length) hread
  rwa [Block.take_read _ _ (by omega), List.take_left] at htake

/-- From a registered connection that carries a framed stream the main loop
passes exactly the messages to `commit`. -/
theorem serverMain_spec {env : Env} (hσ : env.answers.NeverFails) (msgs : List Bytes)
    (hm : ∀ m ∈ msgs, Sendable m) {s : Server} (hwait : s.waiting = false)
    (hreg : s.registered = true) (heof : s.inc.eof = false) (hp : s.inc.pending = stream msgs)
    {fuel rounds : ℕ} (hfuel : 2 ^ 32 < fuel) (hrounds : msgs.length < rounds) :
    serverMain env fuel rounds s = some (s.committed ++ msgs) := by
  induction msgs generalizing s rounds with
  | nil =>
    obtain ⟨rounds, rfl⟩ : ∃ k, rounds = k + 1 := ⟨rounds - 1, by omega⟩
    simp [serverMain, hwait, heof, hp]
  | cons m ms ih =>
    obtain ⟨rounds, rfl⟩ : ∃ k, rounds = k + 1 := ⟨rounds - 1, by omega⟩
    obtain ⟨h1, h2⟩ := hm m (by simp)
    have hbound : 4 + m.length < fuel := (frame_length_lt h2).trans (by omega)
    obtain ⟨r, inc', hrun, hr, hpend, heof'⟩ :=
      recvMsg_whole hσ h2 (hp.trans (stream_cons m ms)) hbound
    have hready : s.inc.pending ≠ [] := by
      intro hnil
      have := congrArg List.length (hp.symm.trans hnil)
      simp at this
    have hret : r.ret = m.length := hr.1
    have hrest := ih (fun m' h => hm m' (by simp [h]))
      (s := { s with inc := inc', committed := s.committed ++ [m] }) hwait hreg
      (heof'.trans heof) hpend (show ms.length < rounds by simp at hrounds; omega)
    rw [serverMain, if_neg (by simp [hwait]), if_pos ⟨hreg, .inl hready⟩, hrun]
    simp only
    rw [if_neg (by omega), if_neg (by omega), read_of_whole hr, hrest]
    simp

theorem serverMain_stream {env : Env} (hσ : env.answers.NeverFails) {msgs : List Bytes}
    (hm : ∀ m ∈ msgs, Sendable m) {fuel rounds : ℕ} (hfuel : 2 ^ 32 < fuel)
    (hrounds : msgs.length + 1 < rounds) :
    serverMain env fuel rounds { inc := ⟨stream msgs, false, 0, 0, false⟩ } = some msgs := by
  obtain ⟨rounds, rfl⟩ : ∃ k, rounds = k + 1 := ⟨rounds - 1, by omega⟩
  rw [serverMain, if_pos rfl, serverMain_spec hσ msgs hm rfl rfl rfl rfl hfuel (by omega)]
  rfl

/-! ## End to end -/

theorem sendable_nonempty {msgs : List Bytes} (h : ∀ m ∈ msgs, m.length ≤ 4096) :
    ∀ m ∈ nonempty msgs, Sendable m := by
  intro m hm
  obtain ⟨hmem, hne⟩ := List.mem_filter.mp hm
  have hlen := h m hmem
  have hpos : 0 < m.length := List.length_pos_iff.mpr (by simpa using hne)
  refine ⟨hpos, ?_⟩
  unfold INT_MAX
  omega

theorem nonempty_eq_self_iff (msgs : List Bytes) : nonempty msgs = msgs ↔ [] ∉ msgs := by
  rw [nonempty, List.filter_eq_self]
  constructor
  · intro h hmem
    simpa using h [] hmem
  · intro h m hm
    have hne : m ≠ [] := fun he => h (he ▸ hm)
    simpa using hne

/-- The transfer end to end, for every order of the client's turns and every
chunking on both sides. Once the queue is drained, the strings passed to
`commit` are the registered answers exactly when no generator drew the length 0:
the client's main loop takes an empty message for an empty queue. -/
theorem transfer_exact_iff (σ : Schedule) (env : Env) (hσ : σ.NeverFails)
    (hz : σ.FinitelyManyZeros) (henv : env.answers.NeverFails) (cfd : ℤ) (hfd : 0 ≤ cfd)
    (turns : List Turn) :
    ∃ N c committed, ∀ fuel, N ≤ fuel →
      clientMain σ fuel cfd turns = some c ∧
      serverMain env fuel fuel { inc := ⟨c.out.wire, false, 0, 0, false⟩ } = some committed ∧
      (c.queue = [] → (committed = c.registered ↔ ∀ t ∈ turns, [] ∉ t.generated)) := by
  obtain ⟨N, c, hrun, hmoved⟩ :=
    Client.run_spec hσ hz hfd turns (c := {}) (by simp)
  obtain ⟨popped, hpopped, hwire⟩ := hmoved.popped
  have hreg := hmoved.registered
  simp only [List.nil_append] at hpopped hwire hreg
  have hshort : ∀ m ∈ popped, m.length ≤ 4096 := by
    intro m hm
    have hmem : m ∈ turns.flatMap Turn.generated := hpopped ▸ List.mem_append_left _ hm
    obtain ⟨t, -, ht⟩ := List.mem_flatMap.mp hmem
    exact t.length_generated m ht
  refine ⟨max N (max (2 ^ 32 + 1) ((nonempty popped).length + 2)), c, nonempty popped,
    fun fuel hfuel => ⟨hrun fuel (by omega), ?_, fun hdrained => ?_⟩⟩
  · rw [hwire]
    exact serverMain_stream henv (sendable_nonempty hshort) (by omega) (by omega)
  · rw [hdrained, List.append_nil] at hpopped
    rw [hreg, ← hpopped, nonempty_eq_self_iff]
    simp [List.mem_flatMap]

/-- Two messages are generated while the first is being sent byte by byte, and both arrive. -/
theorem transfer_exact_two :
    ∃ N c, c.queue = [] ∧ c.registered = [[65, 65], [0]] ∧ ∀ fuel, N ≤ fuel →
      clientMain (fun _ => .upTo 1) fuel 3
        [.pop, .genAsciiMsg 2 ⟨65, by decide⟩, .pop, .genBinMsg 1 (fun _ => 0), .pop] = some c ∧
      serverMain ⟨fun _ => .upTo 2, fun _ _ => 0⟩ fuel fuel
        { inc := ⟨c.out.wire, false, 0, 0, false⟩ } = some c.registered := by
  obtain ⟨N, c, committed, h⟩ := transfer_exact_iff (fun _ => .upTo 1)
    ⟨fun _ => .upTo 2, fun _ _ => 0⟩ (fun _ => ⟨1, rfl⟩) ⟨0, fun _ _ => by simp⟩
    (fun _ => ⟨2, rfl⟩) 3 (by decide)
    [.pop, .genAsciiMsg 2 ⟨65, by decide⟩, .pop, .genBinMsg 1 (fun _ => 0), .pop]
  have hrun : ∃ c', clientMain (fun _ => .upTo 1) (N + 20) 3
      [.pop, .genAsciiMsg 2 ⟨65, by decide⟩, .pop, .genBinMsg 1 (fun _ => 0), .pop] = some c' ∧
      c'.queue = [] ∧ c'.registered = [[65, 65], [0]] := ⟨_, rfl, rfl, rfl⟩
  obtain ⟨c', hc', hqueue, hregistered⟩ := hrun
  cases hc'.symm.trans (h (N + 20) (Nat.le_add_right N 20)).1
  refine ⟨N, _, hqueue, hregistered, fun fuel hfuel => ?_⟩
  obtain ⟨hclient, hserver, hiff⟩ := h fuel hfuel
  rw [(hiff hqueue).mpr (by decide)] at hserver
  exact ⟨hclient, hserver⟩

/-- The generator draws the length 0. The empty answer is registered and popped,
and nothing is committed. -/
theorem empty_message_not_transferred :
    ¬ ∀ (turns : List Turn) (fuel : ℕ) (c : Client) (committed : List Bytes),
      clientMain (fun _ => .upTo 1) fuel 3 turns = some c → c.queue = [] →
      serverMain ⟨fun _ => .upTo 1, fun _ _ => 0⟩ fuel fuel
        { inc := ⟨c.out.wire, false, 0, 0, false⟩ } = some committed →
      committed = c.registered := by
  intro h
  exact absurd (h [.genAsciiMsg 0 ⟨65, by decide⟩, .pop] 2 _ _ rfl rfl rfl) (by decide)

end NetworkPrograms.Judge
