import NetworkPrograms.Foundations.Frames
import NetworkPrograms.Foundations.Loop
import NetworkPrograms.Foundations.Memory
import NetworkPrograms.Foundations.Transport

/-!
# Length-prefixed messages over a stream socket

The four functions of `socket.c` that frame messages. `test_client.cpp` and
`test_server.cpp` carry the same `writen`, `sendMsg`, `readn` and `recvMsg`.
The loops are given by their bodies, the kernel's answers by a schedule. An
`int` is an exact integer; the pointer into a buffer is the rest of the buffer
on the sending side and an index into a block on the receiving side.

What the receiving functions call is a parameter, the platform: `recv` on a
connection, `malloc` and `close`. A platform that hands over a stream in order is
enough for the rules about `readn`. The platform of most programs is a stream of
bytes with a schedule of answers.
-/
namespace NetworkPrograms.Framing

open Transport Words Frames

def INT_MAX : ℤ := 2 ^ 31 - 1

def writenPass (σ : Schedule) (size : ℤ) (s : WritenState) :
    Loop.Pass WritenState (ℤ × Outgoing) :=
  if s.count > 0 then
    let r := send σ s.out s.buf s.count
    let len := r.1
    if len = -1 then .leave (-1, r.2)
    else if len = 0 then .again { s with out := r.2 }
    else .again ⟨s.buf.drop len.toNat, s.count - len, r.2⟩
  else .leave (size, s.out)

def writen (σ : Schedule) (fuel : ℕ) (out : Outgoing) (msg : Bytes) (size : ℤ) :
    Option (ℤ × Outgoing) :=
  Loop.run (writenPass σ size) fuel ⟨msg, size, out⟩

/-- The message pointer may be null. The frame is the length in network order
followed by the message; a failed write closes the descriptor. -/
def sendMsg (σ : Schedule) (fuel : ℕ) (out : Outgoing) (fd : ℤ) (msg : Option Bytes) (len : ℤ) :
    Option (ℤ × Outgoing) :=
  match msg with
  | none => some (-1, out)
  | some msg =>
    if fd < 0 ∨ len ≤ 0 then some (-1, out)
    else do
      let biglen := htonl (ofInt32 len)
      let data := hostBytes biglen ++ msg.take len.toNat
      let r ← writen σ fuel out data (len + 4)
      let ret := r.1
      pure (ret, if ret = -1 then { r.2 with closed := true } else r.2)

/-- What the receiving functions call on a connection: `recv`, `malloc`, of which the
contents of the new block are said, and `close`. A `recv` that blocks has no result. -/
structure Platform (C : Type) where
  recv : C → ℤ → Option ((ℤ × Bytes) × C)
  malloc : C → (ℤ → UInt8) × C
  close : C → C

/-- The locals of `readn`: the buffer, `pt` as an index into it, `count`, and
the connection. -/
structure ReadnState (C : Type) where
  buf : Block
  pt : ℤ
  count : ℤ
  inc : C

/-- The value `recvMsg` returns, the length it announced to `malloc`, and the
block behind `*msg`. -/
structure Received where
  ret : ℤ
  len : ℤ
  data : Block

namespace Platform

variable {C : Type} (p : Platform C)

/-- A `recv` that blocks leaves the state as it is, so the loop does not return. -/
def readnPass (size : ℤ) (s : ReadnState C) : Loop.Pass (ReadnState C) (ℤ × Block × C) :=
  if s.count > 0 then
    match p.recv s.inc s.count with
    | none => .again s
    | some ((len, bytes), inc) =>
      if len = -1 then .leave (-1, s.buf, inc)
      else if len = 0 then .leave (size - s.count, s.buf, inc)
      else .again ⟨s.buf.write s.pt bytes, s.pt + len, s.count - len, inc⟩
  else .leave (size - s.count, s.buf, s.inc)

def readn (fuel : ℕ) (inc : C) (buf : Block) (size : ℤ) : Option (ℤ × Block × C) :=
  Loop.run (p.readnPass size) fuel ⟨buf, 0, size, inc⟩

/-- The argument of `malloc` is the `int` value `len + 1` converted to `size_t`. -/
def recvMsg (fuel : ℕ) (inc : C) : Option (Received × C) := do
  let (_, lenObject, inc) ← p.readn fuel inc (Block.alloc 4 fun _ => 0) 4
  let len := headerLength (lenObject.read 0 4)
  let (junk, inc) := p.malloc inc
  let data := Block.alloc ((len + 1) % 2 ^ 64) junk
  let (Len, data, inc) ← p.readn fuel inc data len
  let inc := if Len = 0 then p.close inc else inc
  pure (⟨Len, len, data.write len [0]⟩, inc)

end Platform

/-- What the receiving program does not decide: the answers to `recv` and the
contents of the blocks `malloc` returns. -/
structure Env where
  answers : Schedule
  junk : ℕ → ℤ → UInt8

def Env.platform (env : Env) : Platform Incoming where
  recv := recv env.answers
  malloc inc := (env.junk inc.mallocs, { inc with mallocs := inc.mallocs + 1 })
  close inc := { inc with closed := true }

def recvMsg (env : Env) (fuel : ℕ) (inc : Incoming) : Option (Received × Incoming) :=
  env.platform.recvMsg fuel inc

/-! ## Sending -/

theorem writenPass_writes (σ : Schedule) (size : ℤ) (s : WritenState) :
    Writes σ (.upTo 0) size s (writenPass σ size s) := by
  by_cases hpos : 0 < s.count
  · cases hn : σ s.out.calls with
    | fail e =>
      have he : writenPass σ size s = .leave (-1, { s.out with calls := s.out.calls + 1 }) := by
        simp [writenPass, send, hpos, hn]
      rw [he]
      exact .failed hpos ⟨by simp [hn], by simp [hn]⟩
    | upTo n =>
      have hsend := send_upTo hn s.buf s.count
      by_cases h0 : n = 0
      · subst h0
        have he : writenPass σ size s =
            .again { s with out := { s.out with calls := s.out.calls + 1 } } := by
          simp [writenPass, hsend, hpos]
        rw [he]
        exact .retried hn
      · have hneg : ¬ ((min n s.count.toNat : ℕ) : ℤ) = -1 := by omega
        have hne : ¬ ((min n s.count.toNat : ℕ) : ℤ) = 0 := by omega
        simp only [writenPass, hsend]
        rw [if_pos hpos, if_neg hneg, if_neg hne, Int.toNat_natCast]
        exact .sent _ (by omega) (by omega)
  · have he : writenPass σ size s = .leave (size, s.out) := by simp [writenPass, hpos]
    rw [he]
    exact .finished (by omega)

/-- With no failing call and only finitely many empty ones, `writen` returns the
size and has put exactly its buffer on the connection. -/
theorem writen_spec {σ : Schedule} (hσ : σ.NeverFails) (hz : σ.FinitelyManyZeros)
    (out : Outgoing) (data : Bytes) :
    ∃ N out',
      (∀ fuel, N ≤ fuel → writen σ fuel out data data.length = some ((data.length : ℤ), out')) ∧
      out'.wire = out.wire ++ data := by
  obtain ⟨N, ⟨ret, out'⟩, hrun, hwritten, hneg⟩ :=
    exists_written (writenPass_writes σ data.length) hz.leaves out
  have hret : ret = data.length := by
    refine hwritten.ret.resolve_right fun hfail => ?_
    obtain ⟨i, hretry, htaken⟩ := hneg hfail
    obtain ⟨n, hn⟩ := hσ i
    rcases Nat.eq_zero_or_pos n with rfl | hpos
    · exact hretry hn
    · exact htaken n hpos hn
  subst hret
  exact ⟨N, out', hrun, hwritten.whole rfl⟩

theorem sendMsg_data {m : Bytes} (hm : (m.length : ℤ) ≤ INT_MAX) :
    hostBytes (htonl (ofInt32 m.length)) ++ m.take (m.length : ℤ).toNat = frame m := by
  have hlt : m.length < 2 ^ 31 := by unfold INT_MAX at hm; omega
  rw [hostBytes_htonl, ofInt32_natCast hlt, Int.toNat_natCast, List.take_length, frame]

/-- A message that is neither empty nor too long goes out as one frame. -/
theorem sendMsg_spec {σ : Schedule} (hσ : σ.NeverFails) (hz : σ.FinitelyManyZeros)
    (out : Outgoing) {fd : ℤ} (hfd : 0 ≤ fd) {m : Bytes} (h1 : 1 ≤ m.length)
    (h2 : (m.length : ℤ) ≤ INT_MAX - 4) :
    ∃ N out', (∀ fuel, N ≤ fuel →
        sendMsg σ fuel out fd (some m) m.length = some ((m.length : ℤ) + 4, out')) ∧
      out'.wire = out.wire ++ frame m := by
  obtain ⟨N, out', hrun, hwire⟩ := writen_spec hσ hz out (frame m)
  refine ⟨N, out', fun fuel hfuel => ?_, hwire⟩
  have hguard : ¬ (fd < 0 ∨ (m.length : ℤ) ≤ 0) := by omega
  have hsize : ((frame m).length : ℤ) = m.length + 4 := by simp [add_comm]
  have hr := hrun fuel hfuel
  rw [hsize] at hr
  have hne : ¬ ((m.length : ℤ) + 4 = -1) := by omega
  simp only [sendMsg]
  rw [if_neg hguard, sendMsg_data (show (m.length : ℤ) ≤ INT_MAX by omega), hr]
  simp [hne]

/-! ## Receiving -/

namespace Platform

variable {C : Type}

/-- The calls hand over a stream in order, as many bytes as they say, or none. -/
def Hands (p : Platform C) (pending : C → Bytes) : Prop :=
  ∀ c count, 0 < count → ∀ len bytes c', p.recv c count = some ((len, bytes), c') →
    len = -1 ∨ len = 0 ∨ ∃ k : ℕ, len = k ∧ 0 < k ∧ k ≤ count ∧ k ≤ (pending c).length ∧
      bytes = (pending c).take k ∧ pending c' = (pending c).drop k

/-- All that one pass of `readn` can do. -/
inductive ReadnStep (p : Platform C) (pending : C → Bytes) (size : ℤ) (s : ReadnState C) :
    Loop.Pass (ReadnState C) (ℤ × Block × C) → Prop
  | finished (count : s.count ≤ 0) :
      ReadnStep p pending size s (.leave (size - s.count, s.buf, s.inc))
  | blocked (pos : 0 < s.count) (call : p.recv s.inc s.count = none) :
      ReadnStep p pending size s (.again s)
  | failed {bytes : Bytes} {inc : C} (pos : 0 < s.count)
      (call : p.recv s.inc s.count = some ((-1, bytes), inc)) :
      ReadnStep p pending size s (.leave (-1, s.buf, inc))
  | ended {bytes : Bytes} {inc : C} (pos : 0 < s.count)
      (call : p.recv s.inc s.count = some ((0, bytes), inc)) :
      ReadnStep p pending size s (.leave (size - s.count, s.buf, inc))
  | handed {len : ℕ} {bytes : Bytes} {inc : C} (pos : 0 < len) (le : len ≤ s.count)
      (avail : len ≤ (pending s.inc).length)
      (call : p.recv s.inc s.count = some (((len : ℤ), bytes), inc))
      (taken : bytes = (pending s.inc).take len) (rest : pending inc = (pending s.inc).drop len) :
      ReadnStep p pending size s
        (.again ⟨s.buf.write s.pt bytes, s.pt + len, s.count - len, inc⟩)

variable {p : Platform C} {pending : C → Bytes} {inc : C} {buf : Block} {n fuel : ℕ}
variable {r : ℤ × Block × C} {s t : ReadnState C}

theorem readnPass_step (hp : p.Hands pending) (size : ℤ) (s : ReadnState C) :
    p.ReadnStep pending size s (p.readnPass size s) := by
  by_cases hpos : 0 < s.count
  · rw [readnPass, if_pos hpos]
    cases hcall : p.recv s.inc s.count with
    | none => exact .blocked hpos hcall
    | some r =>
      obtain ⟨⟨len, bytes⟩, inc⟩ := r
      simp only
      rcases hp s.inc s.count hpos len bytes inc hcall with rfl | rfl |
        ⟨k, rfl, h0, hle, havail, htaken, hrest⟩
      · exact .failed hpos hcall
      · exact .ended hpos hcall
      · rw [if_neg (by omega), if_neg (by omega)]
        exact .handed h0 hle havail hcall htaken hrest
  · rw [readnPass, if_neg hpos]
    exact .finished (by omega)

/-- What holds between two passes of `readn`: the bytes taken off the stream so
far are the bytes in the buffer, and `pt` and `count` are complementary. -/
structure ReadnInv (pending : C → Bytes) (inc : C) (buf : Block) (n : ℕ) (s : ReadnState C) :
    Prop where
  filling : Block.Filling (pending inc) buf n (pending s.inc) s.buf s.pt s.count
  count : 0 ≤ s.count

theorem ReadnInv.init (pending : C → Bytes) (inc : C) (buf : Block) (n : ℕ) :
    ReadnInv pending inc buf n ⟨buf, 0, n, inc⟩ :=
  ⟨⟨[], by simp⟩, by simp⟩

theorem ReadnInv.again (hs : ReadnInv pending inc buf n s)
    (h : p.ReadnStep pending n s (.again t)) : ReadnInv pending inc buf n t := by
  cases h with
  | blocked => exact hs
  | handed pos le avail call taken rest =>
    subst taken
    refine ⟨?_, ?_⟩
    · rw [rest]
      exact hs.filling.store avail
    · simp only
      omega

section

variable (hp : p.Hands pending) {P : ReadnState C → Prop}
  (hP : ∀ s t, ReadnInv pending inc buf n s → P s → p.ReadnStep pending n s (.again t) → P t)

include hp hP

theorem readn_last (hinit : P ⟨buf, 0, n, inc⟩) (h : p.readn fuel inc buf n = some r) :
    ∃ s, ReadnInv pending inc buf n s ∧ P s ∧ p.ReadnStep pending n s (.leave r) := by
  apply Loop.run_induction (fun s => ReadnInv pending inc buf n s ∧ P s)
    (fun r => ∃ s, ReadnInv pending inc buf n s ∧ P s ∧ p.ReadnStep pending n s (.leave r)) _ _ _ h
  · rintro s t ⟨hs, hPs⟩ hpass
    have hstep := readnPass_step hp n s
    rw [hpass] at hstep
    exact ⟨hs.again hstep, hP s t hs hPs hstep⟩
  · rintro s r ⟨hs, hPs⟩ hpass
    have hstep := readnPass_step hp n s
    rw [hpass] at hstep
    exact ⟨s, hs, hPs, hstep⟩
  · exact ⟨.init pending inc buf n, hinit⟩

theorem readn_returns (hinit : P ⟨buf, 0, n, inc⟩)
    (hcall : ∀ s, ReadnInv pending inc buf n s → P s → 0 < s.count → p.recv s.inc s.count ≠ none)
    (hfuel : n < fuel) : ∃ r, p.readn fuel inc buf n = some r := by
  have hagain : ∀ s t, ReadnInv pending inc buf n s ∧ P s → p.readnPass n s = .again t →
      (ReadnInv pending inc buf n t ∧ P t) ∧ t.count.toNat < s.count.toNat := by
    rintro s t ⟨hs, hPs⟩ hpass
    have hstep := readnPass_step hp n s
    rw [hpass] at hstep
    refine ⟨⟨hs.again hstep, hP s t hs hPs hstep⟩, ?_⟩
    cases hstep with
    | blocked pos call => exact absurd call (hcall s hs hPs pos)
    | handed pos le =>
      simp only
      omega
  obtain ⟨r, hr, -⟩ := Loop.run_of_variant (p.readnPass n)
    (fun s => ReadnInv pending inc buf n s ∧ P s) (fun _ => True) (fun s => s.count.toNat)
    hagain (fun _ _ _ _ => trivial) fuel ⟨buf, 0, n, inc⟩ ⟨.init pending inc buf n, hinit⟩
    (by simpa using hfuel)
  exact ⟨r, hr⟩

end

theorem readn_of_nonpos (p : Platform C) (inc : C) (buf : Block) {size : ℤ} (h : size ≤ 0)
    (hfuel : 0 < fuel) : p.readn fuel inc buf size = some (0, buf, inc) := by
  obtain ⟨fuel, rfl⟩ : ∃ f, fuel = f + 1 := ⟨fuel - 1, by omega⟩
  have : ¬ size > 0 := by omega
  simp [readn, Loop.run, readnPass, this]

theorem readn_toNat (p : Platform C) (fuel : ℕ) (inc : C) (buf : Block) (size : ℤ) :
    p.readn fuel inc buf size = p.readn fuel inc buf (size.toNat : ℕ) := by
  rcases le_or_gt 0 size with hpos | hneg
  · rw [Int.toNat_of_nonneg hpos]
  · cases fuel with
    | zero => rfl
    | succ fuel =>
      rw [readn_of_nonpos p inc buf hneg.le (Nat.succ_pos _),
        readn_of_nonpos p inc buf (by omega) (Nat.succ_pos _)]

theorem recvMsg_of_readn {mid fin : C} {r Len len : ℤ} {obj data : Block}
    (hhdr : p.readn fuel inc (Block.alloc 4 fun _ => 0) 4 = some (r, obj, mid))
    (hlen : headerLength (obj.read 0 4) = len)
    (hdata : p.readn fuel (p.malloc mid).2 (Block.alloc ((len + 1) % 2 ^ 64) (p.malloc mid).1) len =
      some (Len, data, fin)) :
    p.recvMsg fuel inc = some (⟨Len, len, data.write len [0]⟩,
      if Len = 0 then p.close fin else fin) := by
  subst hlen
  simp only [recvMsg, hhdr, hdata, Option.bind_eq_bind, Option.bind_some, Option.pure_def]

theorem recvMsg_eq_some {inc' : C} {r : Received} (h : p.recvMsg fuel inc = some (r, inc')) :
    ∃ hdr obj mid data fin,
      p.readn fuel inc (Block.alloc 4 fun _ => 0) 4 = some (hdr, obj, mid) ∧
      r.len = headerLength (obj.read 0 4) ∧
      p.readn fuel (p.malloc mid).2 (Block.alloc ((r.len + 1) % 2 ^ 64) (p.malloc mid).1) r.len =
        some (r.ret, data, fin) ∧
      r.data = data.write r.len [0] ∧ inc' = if r.ret = 0 then p.close fin else fin := by
  simp only [recvMsg, Option.bind_eq_bind, Option.bind_eq_some_iff, Option.pure_def,
    Option.some.injEq, Prod.mk.injEq] at h
  obtain ⟨⟨hdr, obj, mid⟩, hhdr, ⟨Len, data, fin⟩, hdata, rfl, rfl⟩ := h
  dsimp only at hdata ⊢
  exact ⟨hdr, obj, mid, data, fin, hhdr, rfl, hdata, rfl, rfl⟩

theorem recvMsg_mono {more : ℕ} {inc' : C} {r : Received}
    (h : p.recvMsg fuel inc = some (r, inc')) (hle : fuel ≤ more) :
    p.recvMsg more inc = some (r, inc') := by
  obtain ⟨hdr, obj, mid, data, fin, hhdr, hlen, hdata, hblock, rfl⟩ := recvMsg_eq_some h
  have hmore := recvMsg_of_readn (Loop.run_mono hhdr hle) hlen.symm (Loop.run_mono hdata hle)
  rw [hmore, ← hblock]

end Platform

/-! ## Receiving from a stream with a schedule -/

theorem Env.hands (env : Env) : env.platform.Hands Incoming.pending := by
  intro inc count hc len bytes inc' hcall
  change recv env.answers inc count = _ at hcall
  rcases recv_cases env.answers inc hc with ⟨-, he⟩ | ⟨-, -, -, he⟩ | ⟨-, -, -, he⟩ |
    ⟨-, k, h0, hle, havail, -, he⟩ <;> rw [he] at hcall <;> cases hcall
  · exact .inl rfl
  · exact .inr (.inl rfl)
  · exact .inr (.inr ⟨k, rfl, h0, hle, havail, rfl, rfl⟩)

/-- What `readn` keeps on such a stream: nothing but bytes and calls has changed, and the
calls that were answered have stored what they offered. -/
structure Reads (σ : Schedule) (inc : Incoming) (n : ℕ) (s : ReadnState Incoming) : Prop where
  eof : s.inc.eof = inc.eof
  mallocs : s.inc.mallocs = inc.mallocs
  closed : s.inc.closed = inc.closed
  calls : ∃ t, s.inc.calls = inc.calls + t ∧ σ.Answered inc.calls inc.pending.length t ∧
    s.pt = min (σ.offered inc.calls t) (min n inc.pending.length)

section

variable {env : Env} {inc : Incoming} {buf : Block} {n : ℕ} {s t : ReadnState Incoming}

theorem Reads.init (σ : Schedule) (inc : Incoming) (buf : Block) (n : ℕ) :
    Reads σ inc n ⟨buf, 0, n, inc⟩ :=
  ⟨rfl, rfl, rfl, 0, rfl, .zero σ _ _, by simp [Schedule.offered]⟩

theorem Platform.ReadnInv.lengths (hs : ReadnInv Incoming.pending inc buf n s) :
    s.pt + s.count = n ∧ s.pt + s.inc.pending.length = inc.pending.length := by
  obtain ⟨got, hgot, -, hpt, hcount⟩ := hs.filling
  rw [hgot, List.length_append]
  omega

theorem Reads.again (hinv : Platform.ReadnInv Incoming.pending inc buf n s)
    (hs : Reads env.answers inc n s)
    (h : env.platform.ReadnStep Incoming.pending n s (.again t)) : Reads env.answers inc n t := by
  cases h with
  | blocked => exact hs
  | handed pos le avail call taken rest =>
    obtain ⟨u, hcalls, hanswered, hpt⟩ := hs.calls
    obtain ⟨hcount, hlen⟩ := hinv.lengths
    obtain ⟨⟨m, hm⟩, -, -, hmin, -, rfl⟩ := recv_eq_pos (by omega) pos call
    -- what the calls before have stored is all that they offered
    rw [hcalls] at hm hmin
    refine ⟨hs.eof, hs.mallocs, hs.closed, u + 1, ?_, hanswered.succ hm (by omega), ?_⟩
    · simp only [hcalls, add_assoc]
    · simp only [Schedule.offered]
      omega

theorem Env.readn_last {fuel : ℕ} {r : ℤ × Block × Incoming}
    (h : env.platform.readn fuel inc buf n = some r) :
    ∃ s, Platform.ReadnInv Incoming.pending inc buf n s ∧ Reads env.answers inc n s ∧
      env.platform.ReadnStep Incoming.pending n s (.leave r) :=
  Platform.readn_last env.hands (fun _ _ hinv hs hstep => hs.again hinv hstep) (.init _ inc buf n) h

end

/-- The stream has ended, or it holds at least `n` bytes: a request for `n`
bytes is answered without blocking. -/
def Ready (inc : Incoming) (n : ℕ) : Prop := inc.eof = true ∨ n ≤ inc.pending.length

theorem Env.readn_returns (env : Env) {inc : Incoming} {n : ℕ} (hready : Ready inc n)
    (buf : Block) {fuel : ℕ} (hfuel : n < fuel) :
    ∃ r, env.platform.readn fuel inc buf n = some r := by
  apply Platform.readn_returns env.hands (fun _ _ hinv hs hstep => hs.again hinv hstep)
    (Reads.init env.answers inc buf n) _ hfuel
  intro s hinv hs hpos hblocked
  obtain ⟨hnil, heof⟩ := recv_eq_none hpos hblocked
  obtain ⟨hcount, hlen⟩ := hinv.lengths
  rw [hnil, List.length_nil] at hlen
  rcases hready with hr | hr
  · rw [hs.eof, hr] at heof
    cases heof
  · omega

theorem readn_eof {env : Env} {fuel n : ℕ} {inc : Incoming} {buf : Block}
    {r : ℤ × Block × Incoming} (h : env.platform.readn fuel inc buf n = some r) :
    r.2.2.eof = inc.eof := by
  obtain ⟨s, -, hs, hstep⟩ := Env.readn_last h
  cases hstep with
  | finished => exact hs.eof
  | failed pos call =>
    obtain ⟨-, rfl⟩ := recv_eq_neg_one pos call
    exact hs.eof
  | ended pos call =>
    obtain ⟨-, -, -, rfl⟩ := recv_eq_zero pos call
    exact hs.eof

/-- With no failing call `readn` stores the next bytes of the stream, as many as
asked for or as there are before end-of-file, and takes exactly these. -/
theorem readn_spec {env : Env} (hσ : env.answers.NeverFails) (inc : Incoming) (buf : Block) {n : ℕ}
    (hready : Ready inc n) {fuel : ℕ} (hfuel : n < fuel) :
    ∃ inc', env.platform.readn fuel inc buf n =
        some (((min n inc.pending.length : ℕ) : ℤ), buf.write 0 (inc.pending.take n), inc') ∧
      inc'.pending = inc.pending.drop n ∧ inc'.eof = inc.eof ∧ inc'.mallocs = inc.mallocs := by
  obtain ⟨⟨ret, buf', inc'⟩, hrun⟩ := env.readn_returns hready buf hfuel
  obtain ⟨s, hinv, hs, hstep⟩ := Env.readn_last hrun
  have h0 := hinv.count
  cases hstep with
  | finished hend =>
    obtain ⟨hle, hbuf, hrest⟩ := hinv.filling.complete (by omega)
    refine ⟨s.inc, ?_, hrest, hs.eof, hs.mallocs⟩
    rw [hrun, hbuf, min_eq_left hle, show (n : ℤ) - s.count = n by omega]
  | failed pos call =>
    obtain ⟨⟨e, hfail⟩, -⟩ := recv_eq_neg_one pos call
    obtain ⟨m, hm⟩ := hσ s.inc.calls
    rw [hm] at hfail
    cases hfail
  | ended pos call =>
    obtain ⟨-, hnil, -, rfl⟩ := recv_eq_zero pos call
    have hfill := hinv.filling
    rw [hnil] at hfill
    obtain ⟨hlt, hbuf, hrest, hcount⟩ := hfill.exhausted pos
    refine ⟨{ s.inc with calls := s.inc.calls + 1 }, ?_, hnil.trans hrest.symm, hs.eof,
      hs.mallocs⟩
    rw [hrun, hbuf, min_eq_right hlt.le, hcount, sub_sub_cancel]

/-- The four bytes of `len` after the header has been read: bytes that did not
arrive are still zero. -/
def headerObject (stream : Bytes) : Bytes :=
  ((Block.alloc 4 fun _ => 0).write 0 (stream.take 4)).read 0 4

theorem headerObject_eq (hdr rest : Bytes) (h : hdr.length = 4) :
    headerObject (hdr ++ rest) = hdr := by
  rw [headerObject, ← h, List.take_left, Block.read_write _ _ _ le_rfl, List.take_length]

theorem headerLength_headerObject {n : ℕ} (hn : n < 2 ^ 31) (rest : Bytes) :
    headerLength (headerObject (netBytes n ++ rest)) = n := by
  rw [headerObject_eq _ _ (length_netBytes n), headerLength_netBytes hn]

/-- What one call of `recvMsg` does when no `recv` fails: it reads the header,
then as much of the announced payload as the stream still has. -/
theorem recvMsg_spec {env : Env} (hσ : env.answers.NeverFails) (inc : Incoming) {len : ℤ}
    (hlen : len = headerLength (headerObject inc.pending))
    (hready : Ready inc (4 + len.toNat)) {fuel : ℕ} (hfuel : 4 + len.toNat < fuel) :
    ∃ inc', recvMsg env fuel inc =
        some (⟨(((inc.pending.drop 4).take len.toNat).length : ℤ), len,
          ((Block.alloc ((len + 1) % 2 ^ 64) (env.junk inc.mallocs)).write 0
            ((inc.pending.drop 4).take len.toNat)).write len [0]⟩, inc') ∧
      inc'.pending = (inc.pending.drop 4).drop len.toNat ∧ inc'.eof = inc.eof := by
  have hready4 : Ready inc 4 := hready.imp_right (by omega)
  obtain ⟨mid, hmid, hpend, heof, hmallocs⟩ :=
    readn_spec hσ inc (Block.alloc 4 fun _ => 0) hready4 (show 4 < fuel by omega)
  have hready' : Ready { mid with mallocs := mid.mallocs + 1 } len.toNat := by
    rcases hready with h | h
    · exact .inl (heof.trans h)
    · refine .inr ?_
      simp only [hpend, List.length_drop]
      omega
  obtain ⟨fin, hfin, hpend', heof', -⟩ := readn_spec hσ { mid with mallocs := mid.mallocs + 1 }
    (Block.alloc ((len + 1) % 2 ^ 64) (env.junk mid.mallocs)) hready'
    (show len.toNat < fuel by omega)
  rw [← Platform.readn_toNat] at hfin
  have hmsg := Platform.recvMsg_of_readn (p := env.platform) hmid hlen.symm hfin
  simp only [hpend, hmallocs, ← List.length_take] at hmsg
  refine ⟨_, hmsg, ?_, ?_⟩
  · split_ifs
    · exact hpend'.trans (by rw [hpend])
    · exact hpend'.trans (by rw [hpend])
  · split_ifs
    · exact heof'.trans heof
    · exact heof'.trans heof

end NetworkPrograms.Framing
