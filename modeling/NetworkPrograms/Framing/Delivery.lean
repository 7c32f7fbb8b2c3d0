import NetworkPrograms.Framing.Socket

/-!
# What arrives of a framed stream

A sender passes a list of messages to `sendMsg`; the stream is cut after any
number of bytes, and the peer calls `recvMsg` until it reports a closed
connection. `outcome` says what the peer should see, in terms of the messages
and the cut alone. The main theorem says that it sees exactly this, whatever
the short counts on either side.
-/
namespace NetworkPrograms.Framing

open Transport Words Frames

/-- Successive `sendMsg` calls on one connection, as in the client's loop; the
return values are not looked at. -/
def sendAll (σ : Schedule) (fuel : ℕ) (fd : ℤ) : List Bytes → Outgoing → Option Outgoing
  | [], out => some out
  | m :: ms, out => do
    let r ← sendMsg σ fuel out fd (some m) m.length
    sendAll σ fuel fd ms r.2

/-- Successive `recvMsg` calls, up to and including the first that returns 0. -/
def recvAll (env : Env) (fuel : ℕ) : ℕ → Incoming → Option (List Received)
  | 0, _ => none
  | calls + 1, inc => do
    let (r, inc) ← recvMsg env fuel inc
    if r.ret = 0 then some [r]
    else do
      let rs ← recvAll env fuel calls inc
      some (r :: rs)

/-- What the peer of a cut stream is meant to see in one call. -/
inductive Delivery where
  | whole (m : Bytes)
  | part (bs : Bytes)
  | closed
  deriving DecidableEq, Repr

/-- A call that delivers a whole message returns its length and a block holding
its bytes and a final NUL; a truncated one returns the number of bytes that
came, at the start of the block. -/
def Delivery.Matches (r : Received) : Delivery → Prop
  | .whole m => r.ret = m.length ∧ r.data.size = m.length + 1 ∧
      r.data.read 0 (m.length + 1) = m ++ [0]
  | .part bs => r.ret = bs.length ∧ r.data.read 0 bs.length = bs
  | .closed => r.ret = 0

/-- The calls a peer makes when the stream ends after its first `k` bytes. -/
def outcome : List Bytes → ℕ → List Delivery
  | [], _ => [.closed]
  | m :: ms, k =>
    if 4 + m.length ≤ k then .whole m :: outcome ms (k - (4 + m.length))
    else if 4 < k then [.part (m.take (k - 4)), .closed]
    else [.closed]

/-- Messages `sendMsg` accepts and whose frame has an `int` length. -/
def Sendable (m : Bytes) : Prop := 1 ≤ m.length ∧ (m.length : ℤ) ≤ INT_MAX - 4

theorem frame_length_lt {m : Bytes} (h : (m.length : ℤ) ≤ INT_MAX - 4) :
    4 + m.length < 2 ^ 31 := by
  unfold INT_MAX at h
  omega

theorem sendAll_spec {σ : Schedule} (hσ : σ.NeverFails) (hz : σ.FinitelyManyZeros) {fd : ℤ}
    (hfd : 0 ≤ fd) (msgs : List Bytes) (hm : ∀ m ∈ msgs, Sendable m) (out : Outgoing) :
    ∃ N out', (∀ fuel, N ≤ fuel → sendAll σ fuel fd msgs out = some out') ∧
      out'.wire = out.wire ++ stream msgs := by
  induction msgs generalizing out with
  | nil => exact ⟨0, out, fun _ _ => rfl, by simp⟩
  | cons m ms ih =>
    obtain ⟨h1, h2⟩ := hm m (by simp)
    obtain ⟨N₁, out₁, hrun₁, hwire₁⟩ := sendMsg_spec hσ hz out hfd h1 h2
    obtain ⟨N₂, out₂, hrun₂, hwire₂⟩ := ih (fun m' h => hm m' (by simp [h])) out₁
    refine ⟨max N₁ N₂, out₂, fun fuel hfuel => ?_, ?_⟩
    · simp [sendAll, hrun₁ fuel (by omega), hrun₂ fuel (by omega)]
    · rw [hwire₂, hwire₁, stream_cons, List.append_assoc]

/-- A whole frame at the head of the stream is delivered by one call, which
leaves the stream at the next frame. -/
theorem recvMsg_whole {env : Env} (hσ : env.answers.NeverFails) {inc : Incoming} {m rest : Bytes}
    (hm : (m.length : ℤ) ≤ INT_MAX - 4) (hp : inc.pending = frame m ++ rest) {fuel : ℕ}
    (hfuel : 4 + m.length < fuel) :
    ∃ r inc', recvMsg env fuel inc = some (r, inc') ∧ Delivery.Matches r (.whole m) ∧
      inc'.pending = rest ∧ inc'.eof = inc.eof := by
  have hlt := (Nat.le_add_left m.length 4).trans_lt (frame_length_lt hm)
  have hlen : ((m.length : ℕ) : ℤ) = headerLength (headerObject inc.pending) := by
    rw [hp, frame, List.append_assoc, headerLength_headerObject hlt]
  have hready : Ready inc (4 + (m.length : ℤ).toNat) := .inr (by simp [hp])
  obtain ⟨inc', hrun, hpend, heof⟩ := recvMsg_spec hσ inc hlen hready (by simpa using hfuel)
  have hdrop : inc.pending.drop 4 = m ++ rest := by rw [hp, drop_frame]
  rw [hdrop, Int.toNat_natCast, List.take_left] at hrun
  rw [hdrop, Int.toNat_natCast, List.drop_left] at hpend
  refine ⟨_, inc', hrun, ⟨rfl, ?_, ?_⟩, hpend, heof⟩
  · simp only [Block.write_size, Block.alloc_size]
    omega
  · have hw := Block.write_append
      (Block.alloc (((m.length : ℤ) + 1) % 2 ^ 64) (env.junk inc.mallocs)) 0 m [0]
    rw [zero_add] at hw
    rw [hw, Block.read_write _ _ _ (by simp)]
    simp

/-- At end-of-file with no payload byte left a call returns 0, whatever part of
a header it has picked up. -/
theorem recvMsg_closed {env : Env} (hσ : env.answers.NeverFails) (inc : Incoming)
    (hp : inc.pending.length ≤ 4) (he : inc.eof = true) {fuel : ℕ} (hfuel : 2 ^ 32 < fuel) :
    ∃ r inc', recvMsg env fuel inc = some (r, inc') ∧ r.ret = 0 := by
  have hbound := headerLength_lt (headerObject inc.pending)
  obtain ⟨inc', hrun, -, -⟩ := recvMsg_spec hσ inc rfl (.inl he)
    (show 4 + (headerLength (headerObject inc.pending)).toNat < fuel by omega)
  refine ⟨_, inc', hrun, ?_⟩
  simp [List.drop_of_length_le hp]

/-- A frame cut inside its payload delivers the bytes that came, and nothing is
left behind them. -/
theorem recvMsg_part {env : Env} (hσ : env.answers.NeverFails) {inc : Incoming} {m : Bytes}
    (hm : (m.length : ℤ) ≤ INT_MAX - 4) {k : ℕ} (h4 : 4 < k)
    (hp : inc.pending = (frame m).take k) (he : inc.eof = true) {fuel : ℕ}
    (hfuel : 4 + m.length < fuel) :
    ∃ r inc', recvMsg env fuel inc = some (r, inc') ∧
      Delivery.Matches r (.part (m.take (k - 4))) ∧ r.data.size = m.length + 1 ∧
      r.data.read m.length 1 = [0] ∧ inc'.pending = [] ∧ inc'.eof = true := by
  have hlt := (Nat.le_add_left m.length 4).trans_lt (frame_length_lt hm)
  have hcut := hp.trans (take_frame_of_le m h4.le)
  have hlen : ((m.length : ℕ) : ℤ) = headerLength (headerObject inc.pending) := by
    rw [hcut, headerLength_headerObject hlt]
  obtain ⟨inc', hrun, hpend, heof⟩ := recvMsg_spec hσ inc hlen (.inl he) (by simpa using hfuel)
  have hdrop : inc.pending.drop 4 = m.take (k - 4) := by
    rw [hcut, drop_netBytes_append]
  have hshort : (m.take (k - 4)).length ≤ m.length := by simp
  rw [hdrop, Int.toNat_natCast, List.take_of_length_le hshort] at hrun
  rw [hdrop, Int.toNat_natCast, List.drop_of_length_le hshort] at hpend
  refine ⟨_, inc', hrun, ⟨rfl, ?_⟩, ?_, ?_, hpend, heof.trans he⟩
  · rw [Block.read_write_of_le _ _ _ _ (by simp), Block.read_write _ _ _ le_rfl, List.take_length]
  · simp only [Block.write_size, Block.alloc_size]
    omega
  · rw [Block.read_write _ _ _ (by simp)]
    rfl

/-- Every call that returns something other than 0 is followed by the calls on
the rest of the stream. -/
theorem recvAll_cons {env : Env} {fuel calls : ℕ} {inc inc' : Incoming} {r : Received}
    {rs : List Received} (h : recvMsg env fuel inc = some (r, inc')) (hr : r.ret ≠ 0)
    (hrs : recvAll env fuel calls inc' = some rs) :
    recvAll env fuel (calls + 1) inc = some (r :: rs) := by
  simp [recvAll, h, hr, hrs]

theorem recvAll_closed {env : Env} {fuel calls : ℕ} {inc inc' : Incoming} {r : Received}
    (h : recvMsg env fuel inc = some (r, inc')) (hr : r.ret = 0) :
    recvAll env fuel (calls + 1) inc = some [r] := by
  simp [recvAll, h, hr]

/-- The receiving loop on any prefix of a framed stream. -/
theorem recvAll_spec {env : Env} (hσ : env.answers.NeverFails) (msgs : List Bytes)
    (hm : ∀ m ∈ msgs, Sendable m) (k : ℕ) {inc : Incoming} (he : inc.eof = true)
    (hp : inc.pending = (stream msgs).take k) {fuel calls : ℕ} (hfuel : 2 ^ 32 < fuel)
    (hcalls : msgs.length + 1 < calls) :
    ∃ rs, recvAll env fuel calls inc = some rs ∧
      List.Forall₂ Delivery.Matches rs (outcome msgs k) := by
  induction msgs generalizing k inc calls with
  | nil =>
    obtain ⟨calls, rfl⟩ : ∃ c, calls = c + 1 := ⟨calls - 1, by omega⟩
    obtain ⟨r, inc', hrun, hr⟩ := recvMsg_closed hσ inc (by simp [hp]) he hfuel
    exact ⟨[r], recvAll_closed hrun hr, .cons hr .nil⟩
  | cons m ms ih =>
    obtain ⟨h1, h2⟩ := hm m (by simp)
    have hfuel' : 4 + m.length < fuel := (frame_length_lt h2).trans (by omega)
    obtain ⟨calls, rfl⟩ : ∃ c, calls = c + 1 := ⟨calls - 1, by omega⟩
    simp only [List.length_cons] at hcalls
    rw [outcome]
    split_ifs with hwhole hpart
    · -- the frame is complete: one call, then the rest of the stream
      have hsplit : inc.pending = frame m ++ (stream ms).take (k - (4 + m.length)) := by
        rw [hp, stream_cons, List.take_append, length_frame,
          List.take_of_length_le (by simpa using hwhole)]
      obtain ⟨r, inc', hrun, hr, hpend, heof⟩ := recvMsg_whole hσ h2 hsplit hfuel'
      obtain ⟨rs, hrs, hmatch⟩ := ih (fun m' h => hm m' (by simp [h])) (k - (4 + m.length))
        (heof.trans he) hpend (show ms.length + 1 < calls by omega)
      have hret : r.ret ≠ 0 := by rw [hr.1]; omega
      exact ⟨r :: rs, recvAll_cons hrun hret hrs, .cons hr hmatch⟩
    · -- the cut is inside the payload: one short result, then the closed one
      have hsplit : inc.pending = (frame m).take k := by
        rw [hp, stream_cons, List.take_append_of_le_length (by simp; omega)]
      obtain ⟨r, inc', hrun, hr, -, -, hpend, heof⟩ :=
        recvMsg_part hσ h2 hpart hsplit he hfuel'
      obtain ⟨r', inc'', hrun', hr'⟩ := recvMsg_closed hσ inc' (by simp [hpend]) heof hfuel
      have hret : r.ret ≠ 0 := by
        rw [hr.1, List.length_take]
        omega
      obtain ⟨calls, rfl⟩ : ∃ c, calls = c + 1 := ⟨calls - 1, by omega⟩
      exact ⟨[r, r'], recvAll_cons hrun hret (recvAll_closed hrun' hr'), .cons hr (.cons hr' .nil)⟩
    · -- no payload byte arrived
      have hshort : inc.pending.length ≤ 4 := by
        rw [hp, List.length_take]
        omega
      obtain ⟨r, inc', hrun, hr⟩ := recvMsg_closed hσ inc hshort he hfuel
      exact ⟨[r], recvAll_closed hrun hr, .cons hr .nil⟩

theorem outcome_uncut (msgs : List Bytes) {k : ℕ} (hk : (stream msgs).length ≤ k) :
    outcome msgs k = msgs.map .whole ++ [.closed] := by
  induction msgs generalizing k with
  | nil => rfl
  | cons m ms ih =>
    simp only [stream_cons, List.length_append, length_frame] at hk
    rw [outcome, if_pos (by omega), ih (by omega)]
    rfl

/-- Exact decoding of every prefix of a sent stream, for all short counts on
both sides: the messages go out whatever `send` accepts per call, and the peer
of the stream cut after `k` bytes sees exactly the intended outcome. -/
theorem prefix_decoded_exactly (msgs : List Bytes) (hm : ∀ m ∈ msgs, Sendable m) {fd : ℤ}
    (hfd : 0 ≤ fd) (σ : Schedule) (hσ : σ.NeverFails) (hz : σ.FinitelyManyZeros) (env : Env)
    (henv : env.answers.NeverFails) (k : ℕ) :
    ∃ out, (∃ N, ∀ fuel, N ≤ fuel → sendAll σ fuel fd msgs {} = some out) ∧
      (∃ N, ∀ fuel calls, N ≤ fuel → N ≤ calls → ∃ rs,
        recvAll env fuel calls { pending := out.wire.take k, eof := true } = some rs ∧
        List.Forall₂ Delivery.Matches rs (outcome msgs k)) ∧
      (out.wire.length ≤ k → outcome msgs k = msgs.map .whole ++ [.closed]) := by
  obtain ⟨N, out, hsend, hwire⟩ := sendAll_spec hσ hz hfd msgs hm {}
  have hwire' : out.wire = stream msgs := by simpa using hwire
  refine ⟨out, ⟨N, hsend⟩, ⟨2 ^ 32 + 1 + (msgs.length + 2), fun fuel calls hf hc => ?_⟩,
    fun hk => outcome_uncut msgs (hwire' ▸ hk)⟩
  exact recvAll_spec henv msgs hm k rfl (by rw [hwire']) (by omega) (by omega)

/-- One byte per call on both sides, two messages, and a cut inside the second. -/
theorem prefix_decoded_exactly_cut :
    ∃ out, (∃ N, ∀ fuel, N ≤ fuel →
        sendAll (fun _ => .upTo 1) fuel 3 [[104, 105], [33, 10]] {} = some out) ∧
      (∃ N, ∀ fuel calls, N ≤ fuel → N ≤ calls → ∃ rs,
        recvAll ⟨fun _ => .upTo 1, fun _ _ => 170⟩ fuel calls
          { pending := out.wire.take 11, eof := true } = some rs ∧
        List.Forall₂ Delivery.Matches rs [.whole [104, 105], .part [33], .closed]) := by
  obtain ⟨out, hsend, hrecv, -⟩ := prefix_decoded_exactly [[104, 105], [33, 10]]
    (by intro m hm; rcases List.mem_pair.mp hm with rfl | rfl <;> simp [Sendable, INT_MAX])
    (show (0 : ℤ) ≤ 3 by decide) (fun _ => .upTo 1) (fun _ => ⟨1, rfl⟩) ⟨0, fun _ _ => by simp⟩
    ⟨fun _ => .upTo 1, fun _ _ => 170⟩ (fun _ => ⟨1, rfl⟩) 11
  exact ⟨out, hsend, hrecv⟩

end NetworkPrograms.Framing
