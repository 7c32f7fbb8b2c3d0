import NetworkPrograms.Foundations.Lines
import NetworkPrograms.Framing.Socket

/-!
# Reading with retries

`Readn` and `Readline` of `HEAD.h`. Both try again when `read` is interrupted. `Readn` puts
the value of a comparison into `nread`, so it takes every `read` that does not fail for
the end of the stream. `Readline` counts from one: when it stops because the buffer is
full, the count is one more than the number of bytes stored.

`read` on a connection is `recv` without flags, and one that blocks leaves the state as it
is.
-/
namespace NetworkPrograms.Head

open Transport Lines

/-- The locals of `Readn`: the buffer behind `vptr`, `ptr` as an index into it, `nleft`,
and the connection. -/
structure ReadnState where
  buf : Block
  ptr : ℤ
  nleft : ℤ
  inc : Incoming

/-- `nread=read(fd,ptr,nleft)<0` is an assignment of the comparison. -/
def readnPass (σ : Schedule) (n : ℤ) (s : ReadnState) :
    Loop.Pass ReadnState (ℤ × Block × Incoming) :=
  if s.nleft > 0 then
    match recv σ s.inc s.nleft with
    | none => .again s
    | some ((ret, bytes), inc) =>
      let buf := s.buf.write s.ptr bytes
      let nread : ℤ := if ret < 0 then 1 else 0
      if nread ≠ 0 then
        if σ.errno s.inc.calls = some .EINTR then
          let nread := 0
          .again ⟨buf, s.ptr + nread, s.nleft - nread, inc⟩
        else .leave (-1, buf, inc)
      else if nread = 0 then .leave (n - s.nleft, buf, inc)
      else .again ⟨buf, s.ptr + nread, s.nleft - nread, inc⟩
  else .leave (n - s.nleft, s.buf, s.inc)

def readn (σ : Schedule) (fuel : ℕ) (inc : Incoming) (vptr : Block) (n : ℤ) :
    Option (ℤ × Block × Incoming) :=
  Loop.run (readnPass σ n) fuel ⟨vptr, 0, n, inc⟩

def newline : UInt8 := 10

/-- The locals of `Readline`, in the same way. -/
structure ReadlineState where
  n : ℤ
  buf : Block
  ptr : ℤ
  inc : Incoming

/-- The body of the loop with the test before it. A `goto again` leaves out the test,
which has the same outcome as before. -/
def readlinePass (σ : Schedule) (maxlen : ℤ) (s : ReadlineState) :
    Loop.Pass ReadlineState (ℤ × Block × Incoming) :=
  if s.n < maxlen then
    match recv σ s.inc 1 with
    | none => .again s
    | some ((rc, bytes), inc) =>
      if rc = 1 then
        let c := bytes.headD 0
        let buf := s.buf.write s.ptr [c]
        let ptr := s.ptr + 1
        if c = newline then .leave (s.n, buf.write ptr [0], inc)
        else .again ⟨s.n + 1, buf, ptr, inc⟩
      else if rc = 0 then .leave (s.n - 1, s.buf.write s.ptr [0], inc)
      else if σ.errno s.inc.calls = some .EINTR then .again { s with inc := inc }
      else .leave (-1, s.buf, inc)
  else .leave (s.n, s.buf.write s.ptr [0], s.inc)

def readline (σ : Schedule) (fuel : ℕ) (inc : Incoming) (vptr : Block) (maxlen : ℤ) :
    Option (ℤ × Block × Incoming) :=
  Loop.run (readlinePass σ maxlen) fuel ⟨1, vptr, 0, inc⟩

/-- Successive calls, each with a buffer of its own: what they return, and the buffers. -/
def readlines (σ : Schedule) (fuel : ℕ) (maxlen : ℤ) :
    List Block → Incoming → Option (List (ℤ × Block) × Incoming)
  | [], inc => some ([], inc)
  | buf :: bufs, inc => do
    let (ret, buf, inc) ← readline σ fuel inc buf maxlen
    let (results, inc) ← readlines σ fuel maxlen bufs inc
    pure ((ret, buf) :: results, inc)

/-! ## `Readn` -/

section Readn

variable {σ : Schedule}

/-- All that a pass of `Readn` can do when nothing but interrupts fails. -/
inductive ReadnStep (σ : Schedule) (n : ℤ) (s : ReadnState) :
    Loop.Pass ReadnState (ℤ × Block × Incoming) → Prop
  | finished : ReadnStep σ n s (.leave (n - s.nleft, s.buf, s.inc))
  | blocked (pos : 0 < s.nleft) (empty : s.inc.pending = []) (eof : s.inc.eof = false) :
      ReadnStep σ n s (.again s)
  | interrupted (answer : σ s.inc.calls = .fail .EINTR) :
      ReadnStep σ n s (.again { s with inc := { s.inc with calls := s.inc.calls + 1 } })
  | taken (len : ℕ) (le : len ≤ s.nleft) :
      ReadnStep σ n s (.leave (n - s.nleft, s.buf.write s.ptr (s.inc.pending.take len),
        { s.inc with pending := s.inc.pending.drop len, calls := s.inc.calls + 1 }))

theorem readnPass_step (hσ : σ.OnlyInterrupts) (n : ℤ) (s : ReadnState) :
    ReadnStep σ n s (readnPass σ n s) := by
  by_cases hpos : 0 < s.nleft
  · rw [readnPass, if_pos hpos]
    cases hanswer : σ s.inc.calls with
    | fail e =>
      obtain ⟨hintr, herrno⟩ := hσ.eintr hanswer
      rw [recv_fail hanswer]
      simpa [herrno] using ReadnStep.interrupted hintr
    | upTo m =>
      by_cases hnil : s.inc.pending = []
      · cases heof : s.inc.eof with
        | false =>
          rw [recv_blocked hanswer hnil heof]
          exact .blocked hpos hnil heof
        | true =>
          rw [recv_eof hanswer hnil heof]
          simpa using ReadnStep.taken 0 hpos.le
      · obtain ⟨len, -, hle, -, -, hrecv⟩ := recv_some hanswer hnil hpos
        rw [hrecv]
        simpa using ReadnStep.taken len hle
  · rw [readnPass, if_neg hpos]
    exact .finished

/-- Between two passes nothing has happened but calls that were interrupted. -/
structure ReadnInv (inc : Incoming) (buf : Block) (n : ℕ) (s : ReadnState) : Prop where
  buf : s.buf = buf
  ptr : s.ptr = 0
  nleft : s.nleft = n
  inc : s.inc = { inc with calls := s.inc.calls }

/-- What `Readn` has done when it returns: one `read` has taken some bytes, and 0 is
returned. -/
structure ReadnDone (inc : Incoming) (buf : Block) (n : ℕ) (r : ℤ × Block × Incoming) :
    Prop where
  ret : r.1 = 0
  taken : ∃ len ≤ n, r.2.1 = buf.write 0 (inc.pending.take len) ∧
    r.2.2.pending = inc.pending.drop len

section
variable {inc : Incoming} {buf : Block} {n : ℕ} {s t : ReadnState} {r : ℤ × Block × Incoming}

theorem ReadnInv.again (hs : ReadnInv inc buf n s) (hready : Framing.Ready inc n)
    {retries : ℕ → ℕ} (hretries : ∀ i, σ i = .fail .EINTR → retries (i + 1) < retries i)
    (h : ReadnStep σ n s (.again t)) :
    ReadnInv inc buf n t ∧ retries t.inc.calls < retries s.inc.calls := by
  cases h with
  | blocked pos empty eof =>
    -- a blocked call contradicts the readiness of the stream
    rw [hs.inc] at empty eof
    rw [hs.nleft] at pos
    rcases hready with hend | hmore
    · rw [hend] at eof
      cases eof
    · rw [empty, List.length_nil] at hmore
      omega
  | interrupted answer =>
    constructor
    · constructor
      · exact hs.buf
      · exact hs.ptr
      · exact hs.nleft
      · rw [hs.inc]
    · exact hretries _ answer

theorem ReadnInv.done (hs : ReadnInv inc buf n s) (h : ReadnStep σ n s (.leave r)) :
    ReadnDone inc buf n r := by
  have hsame : (n : ℤ) - s.nleft = 0 := by rw [hs.nleft, sub_self]
  have hpending : s.inc.pending = inc.pending := by rw [hs.inc]
  cases h with
  | finished =>
    refine ⟨hsame, 0, Nat.zero_le n, ?_, hpending⟩
    rw [List.take_zero, Block.write_nil]
    exact hs.buf
  | taken len le =>
    rw [hs.nleft] at le
    refine ⟨hsame, len, by omega, ?_, ?_⟩
    · simp only [hs.buf, hs.ptr, hpending]
    · simp only [hpending]

end

/-- `Readn` returns 0, whatever its one `read` has taken. -/
theorem readn_spec (hσ : σ.OnlyInterrupts) (inc : Incoming) (buf : Block) {n : ℕ}
    (hready : Framing.Ready inc n) :
    ∃ N r, (∀ fuel, N ≤ fuel → readn σ fuel inc buf n = some r) ∧ ReadnDone inc buf n r := by
  obtain ⟨retries, hretries⟩ := hσ.leaves.exists_retries
  apply Loop.run_of_retries (ReadnStep σ n) (readnPass_step hσ n) (ReadnInv inc buf n)
    (ReadnDone inc buf n) (fun _ => 0) (fun s => retries s.inc.calls)
  · intro s t hs hstep
    obtain ⟨hinv, hless⟩ := hs.again hready hretries hstep
    exact ⟨hinv, .inr ⟨rfl, hless⟩⟩
  · intro s r hs hstep
    exact hs.done hstep
  · exact ⟨rfl, rfl, rfl, rfl⟩

/-- The next `n` bytes of the stream, or as many as there are before its end, are in the
buffer and off the stream, and their number is returned. -/
structure ReadsExactly (inc : Incoming) (n : ℕ) (r : ℤ × Block × Incoming) : Prop where
  ret : r.1 = min n inc.pending.length
  stored : r.2.1.read 0 (min n inc.pending.length) = inc.pending.take n
  consumed : r.2.2.pending = inc.pending.drop n

/-- `Readn` returns, and it does what it is for exactly when there is nothing to do: no
byte is asked for, or the stream has ended. -/
theorem readn_exact_iff (hσ : σ.OnlyInterrupts) (inc : Incoming) (buf : Block) (n : ℕ)
    (hready : Framing.Ready inc n) :
    ∃ N r, (∀ fuel, N ≤ fuel → readn σ fuel inc buf n = some r) ∧
      (ReadsExactly inc n r ↔ n = 0 ∨ inc.pending = []) := by
  obtain ⟨N, r, hrun, hdone⟩ := readn_spec hσ inc buf hready
  obtain ⟨len, hle, -, hpending⟩ := hdone.taken
  refine ⟨N, r, hrun, ?_⟩
  constructor
  · intro h
    have hret : (0 : ℤ) = min n inc.pending.length := hdone.ret.symm.trans h.ret
    rcases Nat.eq_zero_or_pos n with hzero | hpos
    · exact .inl hzero
    · right
      apply List.eq_nil_of_length_eq_zero
      omega
  · rintro (rfl | hnil)
    · obtain rfl : len = 0 := Nat.le_zero.mp hle
      exact ⟨by simp [hdone.ret], by simp [Block.read], hpending⟩
    · rw [hnil, List.drop_nil] at hpending
      refine ⟨by simp [hdone.ret, hnil], by simp [hnil, Block.read], ?_⟩
      rw [hnil, List.drop_nil]
      exact hpending

/-- The stream has ended, and the first `read` is interrupted. -/
theorem readn_exact_iff_at_end :
    ∃ N r, (∀ fuel, N ≤ fuel → readn (fun i => if i = 0 then .fail .EINTR else .upTo 1) fuel
        { pending := [], eof := true } (Block.alloc 2 fun _ => 170) 2 = some r) ∧
      ReadsExactly { pending := [], eof := true } 2 r := by
  have hlater : ∀ i, ∃ j, i ≤ j ∧ ¬ j = 0 := fun i => ⟨i + 1, Nat.le_succ i, Nat.succ_ne_zero i⟩
  have hσ := Schedule.onlyInterrupts_ite 1 hlater
  obtain ⟨N, r, hrun, hiff⟩ := readn_exact_iff hσ { pending := [], eof := true }
    (Block.alloc 2 fun _ => 170) 2 (.inl rfl)
  exact ⟨N, r, hrun, hiff.mpr (.inr rfl)⟩

/-- Both bytes of the stream are asked for and taken, and `Readn` returns 0. -/
theorem taken_bytes_not_counted :
    ¬ ∀ (σ : Schedule) (inc : Incoming) (buf : Block) (n fuel : ℕ) (r : ℤ × Block × Incoming),
      σ.OnlyInterrupts → Framing.Ready inc n → readn σ fuel inc buf n = some r →
        ReadsExactly inc n r := by
  intro h
  have hσ : Schedule.OnlyInterrupts fun _ => .upTo 2 :=
    ⟨by simp, fun i => ⟨i, le_rfl, by simp⟩⟩
  have hexact := h (fun _ => .upTo 2) { pending := [104, 105], eof := true }
    (Block.alloc 2 fun _ => 170) 2 1 _ hσ (.inl rfl) rfl
  exact absurd hexact.ret (by decide)

end Readn

/-! ## `Readline` -/

section Readline

variable {σ : Schedule}

/-- All that a pass of `Readline` can do when nothing but interrupts fails. -/
inductive ReadlineStep (σ : Schedule) (maxlen : ℤ) (s : ReadlineState) :
    Loop.Pass ReadlineState (ℤ × Block × Incoming) → Prop
  | full (le : maxlen ≤ s.n) :
      ReadlineStep σ maxlen s (.leave (s.n, s.buf.write s.ptr [0], s.inc))
  | blocked (lt : s.n < maxlen) (empty : s.inc.pending = []) (eof : s.inc.eof = false) :
      ReadlineStep σ maxlen s (.again s)
  | interrupted (lt : s.n < maxlen) (answer : σ s.inc.calls = .fail .EINTR) :
      ReadlineStep σ maxlen s (.again { s with inc := { s.inc with calls := s.inc.calls + 1 } })
  | ended (lt : s.n < maxlen) (empty : s.inc.pending = []) :
      ReadlineStep σ maxlen s (.leave (s.n - 1, s.buf.write s.ptr [0],
        { s.inc with calls := s.inc.calls + 1 }))
  | line (lt : s.n < maxlen) (rest : Bytes) (pending : s.inc.pending = newline :: rest) :
      ReadlineStep σ maxlen s (.leave (s.n, (s.buf.write s.ptr [newline]).write (s.ptr + 1) [0],
        { s.inc with pending := rest, calls := s.inc.calls + 1 }))
  | stored (lt : s.n < maxlen) (c : UInt8) (rest : Bytes) (pending : s.inc.pending = c :: rest)
      (ne : c ≠ newline) :
      ReadlineStep σ maxlen s (.again ⟨s.n + 1, s.buf.write s.ptr [c], s.ptr + 1,
        { s.inc with pending := rest, calls := s.inc.calls + 1 }⟩)

theorem readlinePass_step (hσ : σ.OnlyInterrupts) (maxlen : ℤ) (s : ReadlineState) :
    ReadlineStep σ maxlen s (readlinePass σ maxlen s) := by
  by_cases hlt : s.n < maxlen
  · rw [readlinePass, if_pos hlt]
    cases hanswer : σ s.inc.calls with
    | fail e =>
      obtain ⟨hintr, herrno⟩ := hσ.eintr hanswer
      rw [recv_fail hanswer]
      simp only [herrno, if_true]
      exact .interrupted hlt hintr
    | upTo m =>
      cases hpending : s.inc.pending with
      | nil =>
        cases heof : s.inc.eof with
        | false =>
          rw [recv_blocked hanswer hpending heof]
          exact .blocked hlt hpending heof
        | true =>
          rw [recv_eof hanswer hpending heof]
          exact .ended hlt hpending
      | cons c rest =>
        rw [recv_one hanswer hpending]
        by_cases hc : c = newline
        · subst hc
          exact .line hlt rest hpending
        · simp only [if_true, List.headD_cons, hc, if_false]
          exact .stored hlt c rest hpending hc
  · rw [readlinePass, if_neg hlt]
    exact .full (not_lt.mp hlt)

/-- The stream has ended, or it holds all that the next call takes: the call does not block. -/
def LineReady (m : ℕ) (inc : Incoming) : Prop := inc.eof = true ∨ Settled newline m inc.pending

/-- The same for each of `k` successive calls. -/
def LinesReady (m k : ℕ) (inc : Incoming) : Prop :=
  ∀ i < k, LineReady m { inc with pending := (pieces newline m i inc.pending).2 }

/-- Between two passes of `Readline`: the bytes taken are in the buffer, none of them ends
the line, and the count is one more than their number. -/
structure ReadlineInv (inc : Incoming) (buf : Block) (m : ℕ) (s : ReadlineState) : Prop where
  taken : ∃ got, inc.pending = got ++ s.inc.pending ∧ s.buf = buf.write 0 got ∧
    s.ptr = got.length ∧ s.n = got.length + 1 ∧ newline ∉ got ∧ got.length ≤ m
  eof : s.inc.eof = inc.eof

/-- What a call with room for `m` bytes and a NUL has done when it returns: it has taken
the next piece of the stream and stored it with a NUL behind it. What it returns is the
length of the piece, and one more when the piece is full. -/
structure ReadlineDone (inc : Incoming) (buf : Block) (m : ℕ) (r : ℤ × Block × Incoming) :
    Prop where
  ret : r.1 = (piece newline m inc.pending).length + if Ended newline m inc.pending then 0 else 1
  stored : r.2.1 = buf.write 0 (piece newline m inc.pending ++ [0])
  consumed : r.2.2.pending = inc.pending.drop (piece newline m inc.pending).length
  eof : r.2.2.eof = inc.eof

section
variable {inc : Incoming} {buf : Block} {m : ℕ} {s t : ReadlineState}
variable {r : ℤ × Block × Incoming}

theorem ReadlineInv.again (hs : ReadlineInv inc buf m s) (hready : LineReady m inc)
    {retries : ℕ → ℕ} (hretries : ∀ i, σ i = .fail .EINTR → retries (i + 1) < retries i)
    (h : ReadlineStep σ (m + 1) s (.again t)) :
    ReadlineInv inc buf m t ∧
      (t.inc.pending.length < s.inc.pending.length ∨
        t.inc.pending.length = s.inc.pending.length ∧
          retries t.inc.calls < retries s.inc.calls) := by
  cases h with
  | blocked lt empty eof =>
    obtain ⟨got, hgot, -, -, hn, hline, -⟩ := hs.taken
    rw [empty, List.append_nil] at hgot
    rcases hready with heof | hsettled
    · rw [hs.eof, heof] at eof
      cases eof
    · rw [hgot] at hsettled
      exact absurd hsettled (not_settled hline (by omega))
  | interrupted lt answer => exact ⟨⟨hs.taken, hs.eof⟩, .inr ⟨rfl, hretries _ answer⟩⟩
  | stored lt c rest pending ne =>
    obtain ⟨got, hgot, hbuf, hptr, hn, hline, hlen⟩ := hs.taken
    refine ⟨⟨⟨got ++ [c], ?_, ?_, ?_, ?_, ?_, ?_⟩, hs.eof⟩, .inl ?_⟩
    · rw [hgot, pending, List.append_assoc, List.singleton_append]
    · simp only [hbuf, hptr]
      rw [← zero_add (got.length : ℤ), Block.write_append]
    · simp [hptr]
    · simp [hn]
    · rw [List.mem_append, List.mem_singleton, not_or]
      exact ⟨hline, ne.symm⟩
    · rw [List.length_append, List.length_singleton]
      omega
    · simp [pending]

theorem ReadlineInv.done (hs : ReadlineInv inc buf m s)
    (h : ReadlineStep σ (m + 1) s (.leave r)) : ReadlineDone inc buf m r := by
  obtain ⟨got, hgot, hbuf, hptr, hn, hline, hlen⟩ := hs.taken
  have hnul : ∀ bs : Bytes, (buf.write 0 bs).write bs.length [0] = buf.write 0 (bs ++ [0]) := by
    intro bs
    rw [← zero_add (bs.length : ℤ), Block.write_append]
  cases h with
  | full le =>
    obtain ⟨hpiece, hended⟩ := piece_of_full hline (show got.length = m by omega) s.inc.pending
    rw [← hgot] at hpiece hended
    refine ⟨?_, ?_, ?_, hs.eof⟩
    · rw [hpiece, if_neg hended, hn]
    · simp only [hpiece, hbuf, hptr, hnul]
    · rw [hpiece, hgot, List.drop_left]
  | ended lt empty =>
    obtain ⟨hpiece, hended⟩ := piece_of_end hline (show got.length < m by omega)
    rw [empty, List.append_nil] at hgot
    rw [← hgot] at hpiece hended
    refine ⟨?_, ?_, ?_, hs.eof⟩
    · rw [hpiece, if_pos hended, hgot]
      simp only
      omega
    · simp only [hpiece, hbuf, hptr]
      rw [hgot, hnul]
    · rw [hpiece, List.drop_length]
      exact empty
  | line lt rest pending =>
    obtain ⟨hpiece, hended⟩ := piece_of_sep hline (show got.length < m by omega) rest
    rw [← pending, ← hgot] at hpiece hended
    refine ⟨?_, ?_, ?_, hs.eof⟩
    · rw [hpiece, if_pos hended, List.length_append, List.length_singleton]
      simp only
      omega
    · simp only [hpiece, hbuf, hptr]
      rw [← zero_add (got.length : ℤ), Block.write_append, ← hnul]
      simp
    · have hsplit : inc.pending = (got ++ [newline]) ++ rest := by
        rw [hgot, pending, List.append_assoc, List.singleton_append]
      rw [hpiece, hsplit, List.drop_left]

end

/-- `Readline` returns, with the next piece of the stream. -/
theorem readline_spec (hσ : σ.OnlyInterrupts) {inc : Incoming} {m : ℕ} (hready : LineReady m inc)
    (buf : Block) :
    ∃ N r, (∀ fuel, N ≤ fuel → readline σ fuel inc buf (m + 1) = some r) ∧
      ReadlineDone inc buf m r := by
  obtain ⟨retries, hretries⟩ := hσ.leaves.exists_retries
  apply Loop.run_of_retries (ReadlineStep σ (m + 1)) (readlinePass_step hσ (m + 1))
    (ReadlineInv inc buf m) (ReadlineDone inc buf m) (fun s => s.inc.pending.length)
    (fun s => retries s.inc.calls)
  · intro s t hs hstep
    exact hs.again hready hretries hstep
  · intro s r hs hstep
    exact hs.done hstep
  · exact ⟨⟨[], by simp⟩, rfl⟩

/-! ### Successive calls -/

/-- The bytes of the buffer that the returned value announces. -/
def delivered (r : ℤ × Block) : Bytes := r.2.read 0 r.1.toNat

/-- What successive calls have done: the buffers hold the pieces of the stream, one after
the other, each with a NUL behind it. The announced bytes are at least as many, and they
are the stream exactly when no piece is full. -/
structure ReadlinesDone (m : ℕ) (bufs : List Block) (inc : Incoming)
    (results : List (ℤ × Block)) (inc' : Incoming) : Prop where
  stored : results.map Prod.snd = List.zipWith (fun buf text => buf.write 0 (text ++ [0])) bufs
    (pieces newline m bufs.length inc.pending).1
  consumed : inc'.pending = (pieces newline m bufs.length inc.pending).2
  length_le : inc.pending.length ≤ ((results.map delivered).flatten ++ inc'.pending).length
  partition : (results.map delivered).flatten ++ inc'.pending = inc.pending ↔
    AllEnded newline m bufs.length inc.pending

section
variable {inc inc' : Incoming} {buf : Block} {m : ℕ} {r : ℤ × Block × Incoming}

theorem ReadlineDone.delivered_eq (h : ReadlineDone inc buf m r) :
    delivered (r.1, r.2.1) = piece newline m inc.pending ++
      if Ended newline m inc.pending then [] else [0] := by
  have hret := h.ret
  rw [delivered, h.stored]
  split_ifs at hret ⊢ with hended
  · have hlen : r.1.toNat = (piece newline m inc.pending).length := by omega
    rw [hlen, Block.read_write _ _ _ (by simp), List.take_left, List.append_nil]
  · have hlen : r.1.toNat = (piece newline m inc.pending ++ [0]).length := by
      rw [List.length_append, List.length_singleton]
      omega
    rw [hlen, Block.read_write _ _ _ le_rfl, List.take_length]

theorem readlinesDone_nil (m : ℕ) (inc : Incoming) : ReadlinesDone m [] inc [] inc where
  stored := rfl
  consumed := rfl
  length_le := le_rfl
  partition := iff_of_true rfl trivial

theorem ReadlineDone.cons (h : ReadlineDone inc buf m r) {bufs : List Block}
    {results : List (ℤ × Block)} (hrest : ReadlinesDone m bufs r.2.2 results inc') :
    ReadlinesDone m (buf :: bufs) inc ((r.1, r.2.1) :: results) inc' := by
  have hpending : inc.pending = piece newline m inc.pending ++ r.2.2.pending := by
    rw [h.consumed, piece_append_drop]
  have hcancel : ∀ text, piece newline m inc.pending ++ text = inc.pending ↔
      text = r.2.2.pending := by
    intro text
    constructor
    · intro heq
      exact List.append_cancel_left (heq.trans hpending)
    · rintro rfl
      exact hpending.symm
  have hlength := congrArg List.length hpending
  have hmore := hrest.length_le
  simp only [List.length_append] at hlength hmore
  refine ⟨?_, ?_, ?_, ?_⟩
  · rw [List.map_cons, List.length_cons, pieces, List.zipWith_cons_cons, h.stored, hrest.stored,
      h.consumed]
  · rw [hrest.consumed, h.consumed]
    rfl
  · rw [List.map_cons, List.flatten_cons, h.delivered_eq]
    simp only [List.length_append]
    omega
  · rw [List.map_cons, List.flatten_cons, h.delivered_eq, List.length_cons, AllEnded,
      ← h.consumed, ← hrest.partition]
    split_ifs with hended
    · rw [List.append_nil, List.append_assoc, hcancel]
      exact (and_iff_right hended).symm
    · -- the NUL makes the announced bytes too many
      rw [List.append_assoc, List.append_assoc, hcancel]
      apply iff_of_false
      · intro heq
        have hlen := congrArg List.length heq
        simp only [List.length_append, List.length_singleton] at hlen
        omega
      · exact fun hall => hended hall.1

end

theorem LinesReady.tail {m k : ℕ} {inc inc' : Incoming} (h : LinesReady m (k + 1) inc)
    (hpending : inc'.pending = inc.pending.drop (piece newline m inc.pending).length)
    (heof : inc'.eof = inc.eof) : LinesReady m k inc' := by
  intro i hi
  have hready := h (i + 1) (Nat.succ_lt_succ hi)
  rw [LineReady, heof, hpending]
  exact hready

theorem readlines_spec (hσ : σ.OnlyInterrupts) {m : ℕ} (bufs : List Block) {inc : Incoming}
    (hready : LinesReady m bufs.length inc) :
    ∃ N results inc', (∀ fuel, N ≤ fuel →
        readlines σ fuel (m + 1) bufs inc = some (results, inc')) ∧
      ReadlinesDone m bufs inc results inc' := by
  induction bufs generalizing inc with
  | nil => exact ⟨0, [], inc, fun _ _ => rfl, readlinesDone_nil m inc⟩
  | cons buf bufs ih =>
    have hfirst : LineReady m inc := hready 0 (Nat.succ_pos _)
    obtain ⟨N, r, hrun, hdone⟩ := readline_spec hσ hfirst buf
    obtain ⟨N', results, inc', hrest, hresults⟩ := ih (hready.tail hdone.consumed hdone.eof)
    refine ⟨max N N', (r.1, r.2.1) :: results, inc', ?_, hdone.cons hresults⟩
    intro fuel hfuel
    rw [readlines, hrun fuel (le_of_max_le_left hfuel)]
    simp only [Option.bind_eq_bind, Option.bind_some]
    rw [hrest fuel (le_of_max_le_right hfuel)]
    rfl

/-- A call of `Readline` with a buffer of `maxlen` bytes, on a stream that does not make it
wait for ever, takes the next line up to and with its newline, or what precedes the end of
the stream, or `maxlen - 1` bytes, whichever is shortest, and stores it with a NUL behind
it. It returns the number of these bytes exactly when they do not fill the buffer: a newline
is among the next `maxlen - 1` bytes, or the stream has fewer.

Successive calls store all of the stream, piece by piece. The bytes that they announce are
the stream exactly when that holds for each of them. -/
theorem readline_exact_iff (hσ : σ.OnlyInterrupts) (inc : Incoming) (maxlen : ℕ)
    (hmax : 1 ≤ maxlen) :
    (LineReady (maxlen - 1) inc → ∀ buf : Block, ∃ N r,
      (∀ fuel, N ≤ fuel → readline σ fuel inc buf maxlen = some r) ∧
      r.2.1 = buf.write 0 (piece newline (maxlen - 1) inc.pending ++ [0]) ∧
      (piece newline (maxlen - 1) inc.pending ++ [0]).length ≤ maxlen ∧
      r.2.2.pending = inc.pending.drop (piece newline (maxlen - 1) inc.pending).length ∧
      (r.1 = (piece newline (maxlen - 1) inc.pending).length ↔
        Ended newline (maxlen - 1) inc.pending)) ∧
    (2 ≤ maxlen → ∀ bufs : List Block, LinesReady (maxlen - 1) bufs.length inc →
      ∃ N results inc',
      (∀ fuel, N ≤ fuel → readlines σ fuel maxlen bufs inc = some (results, inc')) ∧
      results.map Prod.snd = List.zipWith (fun buf text => buf.write 0 (text ++ [0])) bufs
        (pieces newline (maxlen - 1) bufs.length inc.pending).1 ∧
      (pieces newline (maxlen - 1) bufs.length inc.pending).1.flatten ++ inc'.pending =
        inc.pending ∧
      (inc.pending.length ≤ bufs.length → inc'.pending = []) ∧
      ((results.map delivered).flatten ++ inc'.pending = inc.pending ↔
        AllEnded newline (maxlen - 1) bufs.length inc.pending)) := by
  obtain ⟨m, rfl⟩ : ∃ m, maxlen = m + 1 := ⟨maxlen - 1, by omega⟩
  rw [Nat.add_sub_cancel, Nat.cast_succ]
  constructor
  · intro hready buf
    obtain ⟨N, r, hrun, hdone⟩ := readline_spec hσ hready buf
    refine ⟨N, r, hrun, hdone.stored, ?_, hdone.consumed, ?_⟩
    · rw [List.length_append, List.length_singleton]
      exact Nat.succ_le_succ (length_piece_le m _)
    · have hret := hdone.ret
      split_ifs at hret with hended
      · exact iff_of_true (by omega) hended
      · exact iff_of_false (by omega) hended
  · intro hmore bufs hready
    obtain ⟨N, results, inc', hrun, hdone⟩ := readlines_spec hσ bufs hready
    refine ⟨N, results, inc', hrun, hdone.stored, ?_, ?_, hdone.partition⟩
    · rw [hdone.consumed, pieces_append]
    · intro hlen
      rw [hdone.consumed]
      exact pieces_rest (by omega) hlen

/-- Two lines in buffers of four bytes, with an interrupt before each byte. -/
theorem readline_exact_iff_two_lines :
    ∃ N results inc', (∀ fuel, N ≤ fuel →
        readlines (fun i => if i % 2 = 0 then .fail .EINTR else .upTo 1) fuel 4
          [Block.alloc 4 fun _ => 170, Block.alloc 4 fun _ => 170]
          { pending := [104, 105, 10, 111, 10], eof := true } = some (results, inc')) ∧
      (results.map delivered).flatten ++ inc'.pending = [104, 105, 10, 111, 10] := by
  have hodd : ∀ i, ∃ j, i ≤ j ∧ ¬ j % 2 = 0 := fun i => ⟨2 * i + 1, by omega, by omega⟩
  have hσ := Schedule.onlyInterrupts_ite 1 hodd
  obtain ⟨N, results, inc', hrun, -, -, -, hiff⟩ := (readline_exact_iff hσ
    { pending := [104, 105, 10, 111, 10], eof := true } 4 (by decide)).2 (by decide)
    [Block.alloc 4 fun _ => 170, Block.alloc 4 fun _ => 170] (fun _ _ => .inl rfl)
  exact ⟨N, results, inc', hrun, hiff.mpr (by decide)⟩

/-- A line of two bytes for a buffer of two: one of them is stored, and 2 is returned. -/
theorem full_buffer_miscounted :
    ¬ ∀ (σ : Schedule) (inc : Incoming) (buf : Block) (maxlen fuel : ℕ)
      (r : ℤ × Block × Incoming), σ.OnlyInterrupts → LineReady (maxlen - 1) inc → 1 ≤ maxlen →
      readline σ fuel inc buf maxlen = some r →
        r.1 = (piece newline (maxlen - 1) inc.pending).length := by
  intro h
  have hσ : Schedule.OnlyInterrupts fun _ => .upTo 1 :=
    ⟨by simp, fun i => ⟨i, le_rfl, by simp⟩⟩
  have hret := h (fun _ => .upTo 1) { pending := [97, 10], eof := true }
    (Block.alloc 2 fun _ => 170) 2 2 _ hσ (.inl rfl) (by decide) rfl
  exact absurd hret (by decide)

end Readline

end NetworkPrograms.Head
