import NetworkPrograms.Head.Reading

/-!
# Reading lines through a buffer

`my_read`, `readline` and `readlinebuf` of `lib/readline.c`. Instead of one `read` for each
byte, as in `Readline` of `HEAD.h`, `my_read` asks for as much as its buffer takes and hands
the bytes out one by one. What it has read ahead stays in the static variables between the
calls. `threads/readline.c` is the same with these variables in an `Rline` of each thread.
-/
namespace NetworkPrograms.Readline

open Transport Lines Head

def MAXLINE : ℕ := 4096

/-- `read_cnt`, `read_ptr` as an index into the buffer, and `read_buf`. -/
structure Rline where
  rl_cnt : ℤ := 0
  rl_bufptr : ℤ := 0
  rl_buf : Block

def Rline.pop (rl : Rline) : UInt8 × Rline :=
  (rl.rl_buf.cell rl.rl_bufptr, { rl with rl_cnt := rl.rl_cnt - 1, rl_bufptr := rl.rl_bufptr + 1 })

/-- The body of `my_read`, which is repeated after an interrupt: what it returns, with the
byte behind `ptr`. -/
def myReadPass (σ : Schedule) (s : Rline × Incoming) :
    Loop.Pass (Rline × Incoming) ((ℤ × Bytes) × Rline × Incoming) :=
  let (rl, inc) := s
  if rl.rl_cnt ≤ 0 then
    match recv σ inc MAXLINE with
    | none => .again s
    | some ((cnt, bytes), inc') =>
      let rl := { rl with rl_cnt := cnt, rl_buf := rl.rl_buf.write 0 bytes }
      if cnt < 0 then
        if σ.errno inc.calls = some .EINTR then .again (rl, inc')
        else .leave ((-1, []), rl, inc')
      else if cnt = 0 then .leave ((0, []), rl, inc')
      else
        let (c, rl) := { rl with rl_bufptr := 0 : Rline }.pop
        .leave ((1, [c]), rl, inc')
  else
    let (c, rl) := rl.pop
    .leave ((1, [c]), rl, inc)

/-- The locals of `readline`, the static variables and the connection. -/
structure State where
  n : ℤ
  buf : Block
  ptr : ℤ
  rl : Rline
  inc : Incoming

/-- The loop of `readline`. A pass in which `my_read` was interrupted leaves `n` as it is. -/
def readlinePass (σ : Schedule) (maxlen : ℤ) (s : State) :
    Loop.Pass State (ℤ × Block × Rline × Incoming) :=
  if s.n < maxlen then
    match myReadPass σ (s.rl, s.inc) with
    | .again (rl, inc) => .again { s with rl := rl, inc := inc }
    | .leave ((rc, bytes), rl, inc) =>
      if rc = 1 then
        let c := bytes.headD 0
        let buf := s.buf.write s.ptr [c]
        let ptr := s.ptr + 1
        if c = newline then .leave (s.n, buf.write ptr [0], rl, inc)
        else .again ⟨s.n + 1, buf, ptr, rl, inc⟩
      else if rc = 0 then .leave (s.n - 1, s.buf.write s.ptr [0], rl, inc)
      else .leave (-1, s.buf, rl, inc)
  else .leave (s.n, s.buf.write s.ptr [0], s.rl, s.inc)

def readline (σ : Schedule) (fuel : ℕ) (rl : Rline) (inc : Incoming) (vptr : Block)
    (maxlen : ℤ) : Option (ℤ × Block × Rline × Incoming) :=
  Loop.run (readlinePass σ maxlen) fuel ⟨1, vptr, 0, rl, inc⟩

/-- What is returned, and the pointer that the caller has afterwards. -/
def readlinebuf (rl : Rline) (vptr : ℤ) : ℤ × ℤ :=
  (rl.rl_cnt, if rl.rl_cnt ≠ 0 then rl.rl_bufptr else vptr)

def readlines (σ : Schedule) (fuel : ℕ) (maxlen : ℤ) :
    List Block → Rline → Incoming → Option (List (ℤ × Block) × Rline × Incoming)
  | [], rl, inc => some ([], rl, inc)
  | buf :: bufs, rl, inc => do
    let (ret, buf, rl, inc) ← readline σ fuel rl inc buf maxlen
    let (results, rl, inc) ← readlines σ fuel maxlen bufs rl inc
    pure ((ret, buf) :: results, rl, inc)

/-! ## The stream behind the buffer -/

namespace Rline

def buffered (rl : Rline) : Bytes := rl.rl_buf.read rl.rl_bufptr rl.rl_cnt.toNat

/-- The stream as the caller of `readline` sees it: what was read ahead comes first. -/
def stream (rl : Rline) (inc : Incoming) : Incoming :=
  { inc with pending := rl.buffered ++ inc.pending }

theorem buffered_of_nonpos {rl : Rline} (h : rl.rl_cnt ≤ 0) : rl.buffered = [] := by
  rw [buffered, Int.toNat_of_nonpos h]
  rfl

theorem buffered_pop {rl : Rline} (h : 0 < rl.rl_cnt) :
    rl.buffered = rl.pop.1 :: rl.pop.2.buffered := by
  obtain ⟨k, hk⟩ : ∃ k : ℕ, rl.rl_cnt = k + 1 := ⟨(rl.rl_cnt - 1).toNat, by omega⟩
  have hlen : rl.rl_cnt.toNat = k + 1 := by omega
  have hrest : (rl.rl_cnt - 1).toNat = k := by omega
  simp only [buffered, pop, hlen, hrest]
  rw [Block.read, Block.read, List.range_succ_eq_map, List.map_cons, List.map_map]
  congr 1
  · simp
  · apply List.map_congr_left
    intro i _
    simp only [Function.comp_apply, Nat.cast_succ]
    congr 1
    omega

end Rline

/-- All that a pass of `my_read` can do when nothing but interrupts fails, in terms of the
stream behind the buffer. -/
inductive MyReadStep (σ : Schedule) (rl : Rline) (inc : Incoming) :
    Loop.Pass (Rline × Incoming) ((ℤ × Bytes) × Rline × Incoming) → Prop
  | blocked (empty : (rl.stream inc).pending = []) (eof : inc.eof = false) :
      MyReadStep σ rl inc (.again (rl, inc))
  | interrupted (rl' : Rline) (answer : σ inc.calls = .fail .EINTR)
      (same : rl'.buffered = rl.buffered) :
      MyReadStep σ rl inc (.again (rl', { inc with calls := inc.calls + 1 }))
  | ended (rl' : Rline) (inc' : Incoming) (empty : (rl.stream inc).pending = [])
      (rest : (rl'.stream inc').pending = []) (eof : inc'.eof = inc.eof) :
      MyReadStep σ rl inc (.leave ((0, []), rl', inc'))
  | byte (c : UInt8) (rl' : Rline) (inc' : Incoming)
      (pending : (rl.stream inc).pending = c :: (rl'.stream inc').pending)
      (eof : inc'.eof = inc.eof) :
      MyReadStep σ rl inc (.leave ((1, [c]), rl', inc'))

theorem myReadPass_step {σ : Schedule} (hσ : σ.OnlyInterrupts) (rl : Rline) (inc : Incoming) :
    MyReadStep σ rl inc (myReadPass σ (rl, inc)) := by
  by_cases hcnt : rl.rl_cnt ≤ 0
  · have hbuffered := Rline.buffered_of_nonpos hcnt
    simp only [myReadPass]
    rw [if_pos hcnt]
    cases hanswer : σ inc.calls with
    | fail e =>
      obtain ⟨hintr, herrno⟩ := hσ.eintr hanswer
      rw [recv_fail hanswer]
      simp only [herrno, if_true]
      refine .interrupted _ hintr ?_
      rw [hbuffered]
      exact Rline.buffered_of_nonpos (show (-1 : ℤ) ≤ 0 by decide)
    | upTo m =>
      by_cases hnil : inc.pending = []
      · have hempty : (rl.stream inc).pending = [] := by simp [Rline.stream, hbuffered, hnil]
        cases heof : inc.eof with
        | false =>
          rw [recv_blocked hanswer hnil heof]
          exact .blocked hempty heof
        | true =>
          rw [recv_eof hanswer hnil heof]
          refine .ended _ _ hempty ?_ rfl
          rw [Rline.stream, Rline.buffered_of_nonpos (by simp)]
          exact hnil
      · obtain ⟨len, hpos, hle, hlen, -, hrecv⟩ :=
          recv_some hanswer hnil (show (0 : ℤ) < MAXLINE by decide)
        rw [hrecv]
        have hneg : ¬ ((len : ℤ) < 0) := by omega
        have hzero : ¬ ((len : ℤ) = 0) := by omega
        simp only [if_neg hneg, if_neg hzero]
        -- the buffer has been filled, and its first byte is handed out
        set full : Rline := ⟨len, 0, rl.rl_buf.write 0 (inc.pending.take len)⟩ with hfull
        have hfill : full.buffered = inc.pending.take len := by
          rw [hfull, Rline.buffered, Int.toNat_natCast, Block.read_write _ _ _ (by simp [hlen]),
            List.take_take, min_self]
        refine .byte _ _ _ ?_ rfl
        have hpos' : 0 < full.rl_cnt := by simpa [hfull] using hpos
        have hpop := Rline.buffered_pop hpos'
        rw [Rline.stream, Rline.stream, hbuffered, List.nil_append, ← List.cons_append, ← hpop,
          hfill]
        exact (List.take_append_drop len inc.pending).symm
  · simp only [myReadPass]
    rw [if_neg hcnt]
    refine .byte _ _ _ ?_ rfl
    rw [Rline.stream, Rline.buffered_pop (not_le.mp hcnt)]
    rfl

/-! ## One call -/

/-- The state of the unbuffered loop that has come as far. -/
def State.view (s : State) : ReadlineState := ⟨s.n, s.buf, s.ptr, s.rl.stream s.inc⟩

/-- What a call has done is said by what the unbuffered one does with the stream. -/
def Done (inc : Incoming) (buf : Block) (m : ℕ) (r : ℤ × Block × Rline × Incoming) : Prop :=
  ReadlineDone inc buf m (r.1, r.2.1, r.2.2.1.stream r.2.2.2)

/-- All that a pass of `readline` can do when nothing but interrupts fails. -/
inductive PassStep (σ : Schedule) (maxlen : ℤ) (s : State) :
    Loop.Pass State (ℤ × Block × Rline × Incoming) → Prop
  | full (le : maxlen ≤ s.n) :
      PassStep σ maxlen s (.leave (s.n, s.buf.write s.ptr [0], s.rl, s.inc))
  | blocked (lt : s.n < maxlen) (empty : s.view.inc.pending = []) (eof : s.inc.eof = false) :
      PassStep σ maxlen s (.again s)
  | interrupted (rl : Rline) (answer : σ s.inc.calls = .fail .EINTR)
      (same : rl.buffered = s.rl.buffered) :
      PassStep σ maxlen s (.again { s with
        rl := rl, inc := { s.inc with calls := s.inc.calls + 1 } })
  | ended (lt : s.n < maxlen) (rl : Rline) (inc : Incoming) (empty : s.view.inc.pending = [])
      (rest : (rl.stream inc).pending = []) (eof : inc.eof = s.inc.eof) :
      PassStep σ maxlen s (.leave (s.n - 1, s.buf.write s.ptr [0], rl, inc))
  | line (lt : s.n < maxlen) (rl : Rline) (inc : Incoming)
      (pending : s.view.inc.pending = newline :: (rl.stream inc).pending)
      (eof : inc.eof = s.inc.eof) :
      PassStep σ maxlen s
        (.leave (s.n, (s.buf.write s.ptr [newline]).write (s.ptr + 1) [0], rl, inc))
  | stored (lt : s.n < maxlen) (c : UInt8) (rl : Rline) (inc : Incoming)
      (pending : s.view.inc.pending = c :: (rl.stream inc).pending) (ne : c ≠ newline)
      (eof : inc.eof = s.inc.eof) :
      PassStep σ maxlen s (.again ⟨s.n + 1, s.buf.write s.ptr [c], s.ptr + 1, rl, inc⟩)

section

variable {σ : Schedule}

theorem readlinePass_step (hσ : σ.OnlyInterrupts) (maxlen : ℤ) (s : State) :
    PassStep σ maxlen s (readlinePass σ maxlen s) := by
  by_cases hlt : s.n < maxlen
  · rw [readlinePass, if_pos hlt]
    have hstep := myReadPass_step hσ s.rl s.inc
    generalize myReadPass σ (s.rl, s.inc) = p at hstep
    cases hstep with
    | blocked empty eof => exact .blocked hlt empty eof
    | interrupted rl' answer same => exact .interrupted rl' answer same
    | ended rl' inc' empty rest eof => exact .ended hlt rl' inc' empty rest eof
    | byte c rl' inc' pending eof =>
      by_cases hc : c = newline
      · subst hc
        exact .line hlt rl' inc' pending eof
      · simp only [if_true, List.headD_cons, hc, if_false]
        exact .stored hlt c rl' inc' pending hc eof
  · rw [readlinePass, if_neg hlt]
    exact .full (not_lt.mp hlt)

variable {inc : Incoming} {buf : Block} {m : ℕ} {s t : State}
variable {r : ℤ × Block × Rline × Incoming}

theorem PassStep.again (h : PassStep σ (m + 1) s (.again t)) (hready : LineReady m inc)
    {retries : ℕ → ℕ} (hretries : ∀ i, σ i = .fail .EINTR → retries (i + 1) < retries i)
    (hs : ReadlineInv inc buf m s.view) :
    ReadlineInv inc buf m t.view ∧
      (t.view.inc.pending.length < s.view.inc.pending.length ∨
        t.view.inc.pending.length = s.view.inc.pending.length ∧
          retries t.inc.calls < retries s.inc.calls) := by
  cases h with
  | blocked lt empty eof => exact hs.again hready hretries (.blocked lt empty eof)
  | interrupted rl answer same =>
    have hpending : (rl.stream { s.inc with calls := s.inc.calls + 1 }).pending =
        (s.rl.stream s.inc).pending := by
      rw [Rline.stream, Rline.stream, same]
    refine ⟨⟨?_, hs.eof⟩, .inr ⟨?_, hretries _ answer⟩⟩
    · simp only [State.view, hpending]
      exact hs.taken
    · simp only [State.view, hpending]
  | stored lt c rl inc' pending ne eof =>
    obtain ⟨hinv, -⟩ := hs.again hready hretries (.stored lt c _ pending ne)
    refine ⟨⟨hinv.taken, eof.trans hs.eof⟩, .inl ?_⟩
    rw [pending]
    exact Nat.lt_succ_self _

theorem PassStep.done (h : PassStep σ (m + 1) s (.leave r)) (hs : ReadlineInv inc buf m s.view) :
    Done inc buf m r := by
  cases h with
  | full le => exact hs.done (σ := σ) (.full le)
  | ended lt rl inc' empty rest eof =>
    obtain ⟨hret, hstored, hconsumed, -⟩ := hs.done (σ := σ) (.ended lt empty)
    exact ⟨hret, hstored, rest.trans (empty.symm.trans hconsumed), eof.trans hs.eof⟩
  | line lt rl inc' pending eof =>
    obtain ⟨hret, hstored, hconsumed, -⟩ := hs.done (σ := σ) (.line lt _ pending)
    exact ⟨hret, hstored, hconsumed, eof.trans hs.eof⟩

/-- `readline` returns, with the next piece of the stream behind its buffer. -/
theorem readline_spec (hσ : σ.OnlyInterrupts) {rl : Rline}
    (hready : LineReady m (rl.stream inc)) (buf : Block) :
    ∃ N r, (∀ fuel, N ≤ fuel → readline σ fuel rl inc buf (m + 1) = some r) ∧
      Done (rl.stream inc) buf m r := by
  obtain ⟨retries, hretries⟩ := hσ.leaves.exists_retries
  apply Loop.run_of_retries (PassStep σ (m + 1)) (readlinePass_step hσ (m + 1))
    (fun s => ReadlineInv (rl.stream inc) buf m s.view) (Done (rl.stream inc) buf m)
    (fun s => s.view.inc.pending.length) (fun s => retries s.inc.calls)
  · intro s t hs hstep
    exact hstep.again hready hretries hs
  · intro s r hs hstep
    exact hstep.done hs
  · exact ⟨⟨[], by simp [State.view]⟩, rfl⟩

end

/-! ## Successive calls -/

/-- Two calls that have done the same with one stream leave the same, up to the number of
calls of the kernel. -/
theorem Done.agree {inc : Incoming} {buf : Block} {m : ℕ} {r : ℤ × Block × Rline × Incoming}
    {q : ℤ × Block × Incoming} (hr : Done inc buf m r) (hq : ReadlineDone inc buf m q) :
    (r.1, r.2.1) = (q.1, q.2.1) ∧ (r.2.2.1.stream r.2.2.2).pending = q.2.2.pending ∧
      r.2.2.2.eof = q.2.2.eof := by
  refine ⟨Prod.ext (hr.ret.trans hq.ret.symm) (hr.stored.trans hq.stored.symm),
    hr.consumed.trans hq.consumed.symm, hr.eof.trans hq.eof.symm⟩

theorem readlines_agree {σ σ' : Schedule} (hσ : σ.OnlyInterrupts) (hσ' : σ'.OnlyInterrupts) {m : ℕ}
    (bufs : List Block) {rl : Rline} {inc plain : Incoming}
    (hpending : (rl.stream inc).pending = plain.pending) (heof : inc.eof = plain.eof)
    (hready : LinesReady m bufs.length plain) :
    ∃ N results rl' inc' plain', (∀ fuel, N ≤ fuel →
        readlines σ fuel (m + 1) bufs rl inc = some (results, rl', inc') ∧
        Head.readlines σ' fuel (m + 1) bufs plain = some (results, plain')) ∧
      (rl'.stream inc').pending = plain'.pending := by
  induction bufs generalizing rl inc plain with
  | nil => exact ⟨0, [], rl, inc, plain, fun _ _ => ⟨rfl, rfl⟩, hpending⟩
  | cons buf bufs ih =>
    have hfirst : LineReady m plain := hready 0 (Nat.succ_pos _)
    have hfirst' : LineReady m (rl.stream inc) := by
      rw [LineReady, hpending]
      exact hfirst.imp heof.trans id
    obtain ⟨N₁, r, hrun, hr⟩ := readline_spec hσ hfirst' buf
    obtain ⟨N₂, q, hrun', hq⟩ := Head.readline_spec hσ' hfirst buf
    have hr' : Done plain buf m r := by
      obtain ⟨hret, hstored, hconsumed, heof'⟩ := hr
      rw [hpending] at hret hstored hconsumed
      exact ⟨hret, hstored, hconsumed, heof'.trans heof⟩
    obtain ⟨hsame, hrest, hend⟩ := hr'.agree hq
    obtain ⟨N₃, results, rl', inc', plain', hcalls, hleft⟩ :=
      ih hrest hend (hready.tail hq.consumed hq.eof)
    refine ⟨max N₁ (max N₂ N₃), (q.1, q.2.1) :: results, rl', inc', plain', ?_, hleft⟩
    intro fuel hfuel
    obtain ⟨hbuffered, hplain⟩ := hcalls fuel (by omega)
    constructor
    · rw [readlines, hrun fuel (by omega)]
      simp only [Option.bind_eq_bind, Option.bind_some, hbuffered, ← hsame]
      rfl
    · rw [Head.readlines, hrun' fuel (by omega)]
      simp only [Option.bind_eq_bind, Option.bind_some, hplain]
      rfl

theorem read_readlinebuf (rl : Rline) (vptr : ℤ) :
    rl.rl_buf.read (readlinebuf rl vptr).2 (readlinebuf rl vptr).1.toNat = rl.buffered := by
  unfold readlinebuf Rline.buffered
  by_cases hzero : rl.rl_cnt = 0
  · simp [hzero, Block.read]
  · simp [hzero]

/-- The buffer is not seen. Successive calls of the buffered `readline` return and store the
same as those of the unbuffered one do on the same stream, whatever the short counts and the
interrupts of either, and whatever was read ahead before. What `readlinebuf` shows in the
end, with what is still in the kernel behind it, is what the unbuffered calls have left. -/
theorem buffered_as_unbuffered {σ σ' : Schedule} (hσ : σ.OnlyInterrupts) (hσ' : σ'.OnlyInterrupts)
    (m : ℕ) (bufs : List Block) (rl : Rline) (inc : Incoming)
    (hready : LinesReady m bufs.length (rl.stream inc)) (vptr : ℤ) :
    ∃ N results rl' inc' plain, (∀ fuel, N ≤ fuel →
        readlines σ fuel (m + 1) bufs rl inc = some (results, rl', inc') ∧
        Head.readlines σ' fuel (m + 1) bufs (rl.stream inc) = some (results, plain)) ∧
      rl'.rl_buf.read (readlinebuf rl' vptr).2 (readlinebuf rl' vptr).1.toNat ++ inc'.pending =
        plain.pending := by
  obtain ⟨N, results, rl', inc', plain, hcalls, hleft⟩ :=
    readlines_agree hσ hσ' bufs rfl rfl hready
  refine ⟨N, results, rl', inc', plain, hcalls, ?_⟩
  rw [read_readlinebuf]
  exact hleft

/-- Two lines arrive at once. The buffered reader takes them with one `read`, the unbuffered
one byte by byte with an interrupt before. -/
theorem buffered_as_unbuffered_two :
    ∃ N results rl' inc' plain, (∀ fuel, N ≤ fuel →
        readlines (fun _ => .upTo 9) fuel 5 [Block.alloc 5 fun _ => 170]
          { rl_buf := Block.alloc 4096 fun _ => 0 } { pending := [97, 10, 98, 10], eof := true } =
            some (results, rl', inc') ∧
        Head.readlines (fun i => if i = 0 then .fail .EINTR else .upTo 1) fuel 5
          [Block.alloc 5 fun _ => 170] { pending := [97, 10, 98, 10], eof := true } =
            some (results, plain)) ∧
      rl'.rl_buf.read (readlinebuf rl' 0).2 (readlinebuf rl' 0).1.toNat ++ inc'.pending =
        plain.pending := by
  have hlater : ∀ i, ∃ j, i ≤ j ∧ ¬ j = 0 := fun i => ⟨i + 1, Nat.le_succ i, Nat.succ_ne_zero i⟩
  have hσ : Schedule.OnlyInterrupts fun _ => .upTo 9 :=
    ⟨by simp, fun i => ⟨i, le_rfl, by simp⟩⟩
  exact buffered_as_unbuffered hσ (Schedule.onlyInterrupts_ite 1 hlater) 4
    [Block.alloc 5 fun _ => 170] { rl_buf := Block.alloc 4096 fun _ => 0 }
    { pending := [97, 10, 98, 10], eof := true } (fun _ _ => .inl rfl) 0

end NetworkPrograms.Readline
