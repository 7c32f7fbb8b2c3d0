import NetworkPrograms.Foundations.Loop
import NetworkPrograms.Foundations.Words

/-!
# A byte stream with short counts

One direction of a stream connection, seen from its two ends. Each transfer
call is decided by the kernel: it fails, or it moves up to some number of
bytes. The answers to the successive calls form a schedule, and the clamping
in `send` and `recv` makes every schedule a legal one: a count never exceeds
the request, and a receive returns at least one byte while bytes remain.
Conversely a legal sequence of counts is the schedule of its own values.

A loop that writes a buffer is given by what one of its passes can do. The one
rule for such loops covers every choice of the answer that makes them try again.
-/
namespace NetworkPrograms.Transport

/-- The error codes the programs distinguish. -/
inductive Errno where
  | EINTR
  | EAGAIN
  | other
  deriving DecidableEq, Repr

/-- The kernel's decision about one transfer call. -/
inductive Answer where
  | fail (errno : Errno)
  | upTo (n : ℕ)
  deriving DecidableEq, Repr

/-- The answers to the successive calls made on one end of a connection. -/
abbrev Schedule := ℕ → Answer

def Schedule.NeverFails (σ : Schedule) : Prop := ∀ i, ∃ n, σ i = .upTo n

/-- From some call on, every call that may move bytes moves some. -/
def Schedule.FinitelyManyZeros (σ : Schedule) : Prop := ∃ N, ∀ i, N ≤ i → σ i ≠ .upTo 0

/-- `errno` after the `i`-th call, if that call has failed. -/
def Schedule.errno (σ : Schedule) (i : ℕ) : Option Errno :=
  match σ i with
  | .fail e => some e
  | .upTo _ => none

/-- The answer is not repeated for ever. -/
def Schedule.Leaves (σ : Schedule) (a : Answer) : Prop := ∀ i, ∃ j, i ≤ j ∧ σ j ≠ a

theorem Schedule.FinitelyManyZeros.leaves {σ : Schedule} (h : σ.FinitelyManyZeros) :
    σ.Leaves (.upTo 0) := by
  obtain ⟨N, hN⟩ := h
  intro i
  exact ⟨max i N, le_max_left i N, hN _ (le_max_right i N)⟩

/-- Calls fail only because they are interrupted, and not for ever. -/
structure Schedule.OnlyInterrupts (σ : Schedule) : Prop where
  interrupted : ∀ i e, σ i = .fail e → e = .EINTR
  leaves : σ.Leaves (.fail .EINTR)

theorem Schedule.OnlyInterrupts.eintr {σ : Schedule} (hσ : σ.OnlyInterrupts) {i : ℕ} {e : Errno}
    (h : σ i = .fail e) : σ i = .fail .EINTR ∧ σ.errno i = some .EINTR := by
  obtain rfl := hσ.interrupted i e h
  exact ⟨h, by rw [Schedule.errno, h]⟩

theorem Schedule.onlyInterrupts_ite {p : ℕ → Prop} [DecidablePred p] (n : ℕ)
    (hp : ∀ i, ∃ j, i ≤ j ∧ ¬ p j) :
    Schedule.OnlyInterrupts fun i => if p i then .fail .EINTR else .upTo n where
  interrupted := by
    intro i e he
    split_ifs at he
    cases he
    rfl
  leaves := by
    intro i
    obtain ⟨j, hle, hj⟩ := hp i
    exact ⟨j, hle, by simp [hj]⟩

theorem Schedule.Leaves.exists_retries {σ : Schedule} {a : Answer} (h : σ.Leaves a) :
    ∃ retries : ℕ → ℕ, ∀ i, σ i = a → retries (i + 1) < retries i := by
  refine ⟨fun i => Nat.find (h i) - i, ?_⟩
  intro i hi
  obtain ⟨hle, hne⟩ := Nat.find_spec (h i)
  have hlt : i < Nat.find (h i) := by
    apply lt_of_le_of_ne hle
    intro heq
    rw [← heq] at hne
    exact hne hi
  have hnext : Nat.find (h (i + 1)) ≤ Nat.find (h i) := Nat.find_min' _ ⟨hlt, hne⟩
  dsimp only
  omega

/-- One of the calls from the `i`-th up to the `j`-th fails. -/
def Schedule.Fails (σ : Schedule) (i j : ℕ) : Prop := ∃ l, i ≤ l ∧ l < j ∧ ∃ e, σ l = .fail e

theorem Schedule.not_fails_self (σ : Schedule) (i : ℕ) : ¬ σ.Fails i i := by
  rintro ⟨l, hle, hlt, -⟩
  omega

theorem Schedule.Fails.mono {σ : Schedule} {i i' j j' : ℕ} (h : σ.Fails i j) (hi : i' ≤ i)
    (hj : j ≤ j') : σ.Fails i' j' := by
  obtain ⟨l, hle, hlt, he⟩ := h
  exact ⟨l, hi.trans hle, hlt.trans_le hj, he⟩

theorem Schedule.Fails.split {σ : Schedule} {i k : ℕ} (h : σ.Fails i k) (j : ℕ) :
    σ.Fails i j ∨ σ.Fails j k := by
  obtain ⟨l, hle, hlt, he⟩ := h
  rcases Nat.lt_or_ge l j with hlj | hjl
  · exact .inl ⟨l, hle, hlj, he⟩
  · exact .inr ⟨l, hjl, hlt, he⟩

theorem Schedule.not_fails_succ {σ : Schedule} {i j n : ℕ} (h : ¬ σ.Fails i j)
    (hj : σ j = .upTo n) : ¬ σ.Fails i (j + 1) := by
  intro hf
  rcases hf.split j with hf | ⟨l, hle, hlt, e, he⟩
  · exact h hf
  · obtain rfl : l = j := by omega
    rw [hj] at he
    cases he

/-- The bytes that an answer to a receiving call offers, one at least. -/
def Answer.offer : Answer → ℕ
  | .fail _ => 0
  | .upTo n => max 1 n

/-- The bytes that `t` calls from the `i`-th on offer together. -/
def Schedule.offered (σ : Schedule) (i : ℕ) : ℕ → ℕ
  | 0 => 0
  | t + 1 => σ.offered i t + (σ (i + t)).offer

theorem Schedule.offered_mono (σ : Schedule) (i : ℕ) {t u : ℕ} (h : t ≤ u) :
    σ.offered i t ≤ σ.offered i u := by
  induction u, h using Nat.le_induction with
  | base => exact le_rfl
  | succ u _ ih => exact ih.trans (Nat.le_add_right _ _)

/-- From the `i`-th call on, `t` calls are answered with bytes of a stream that has `avail`
of them. -/
structure Schedule.Answered (σ : Schedule) (i avail t : ℕ) : Prop where
  answered : ¬ σ.Fails i (i + t)
  more : ∀ u < t, σ.offered i u < avail

/-- A request for `n` bytes that starts with the `i`-th call, on a stream that has `avail`
bytes, fails after `t` calls that were answered. -/
structure Schedule.FailsAfter (σ : Schedule) (i n avail t : ℕ) : Prop
    extends σ.Answered i avail t where
  fails : ∃ e, σ (i + t) = .fail e
  short : min (σ.offered i t) avail < n

theorem Schedule.Answered.zero (σ : Schedule) (i avail : ℕ) : σ.Answered i avail 0 where
  answered := σ.not_fails_self i
  more := by simp

theorem Schedule.Answered.succ {σ : Schedule} {i avail t n : ℕ} (h : σ.Answered i avail t)
    (ht : σ (i + t) = .upTo n) (hmore : σ.offered i t < avail) : σ.Answered i avail (t + 1) where
  answered := Schedule.not_fails_succ h.answered ht
  more := by
    intro u hu
    rcases Nat.lt_succ_iff_lt_or_eq.mp hu with hlt | rfl
    · exact h.more u hlt
    · exact hmore

theorem Schedule.FailsAfter.le {σ : Schedule} {i n avail t u : ℕ} (h : σ.FailsAfter i n avail u)
    (ht : σ.Answered i avail t) : t ≤ u := by
  obtain ⟨e, he⟩ := h.fails
  by_contra hlt
  exact ht.answered ⟨i + u, by omega, by omega, e, he⟩

theorem Schedule.FailsAfter.unique {σ : Schedule} {i n avail t u : ℕ}
    (ht : σ.FailsAfter i n avail t) (hu : σ.FailsAfter i n avail u) : t = u :=
  le_antisymm (hu.le ht.toAnswered) (ht.le hu.toAnswered)

/-- The sending end: bytes put on the connection and calls made so far. -/
structure Outgoing where
  wire : Bytes := []
  calls : ℕ := 0
  closed : Bool := false

def send (σ : Schedule) (out : Outgoing) (buf : Bytes) (count : ℤ) : ℤ × Outgoing :=
  match σ out.calls with
  | .fail _ => (-1, { out with calls := out.calls + 1 })
  | .upTo n =>
    let len := min n count.toNat
    (len, { out with wire := out.wire ++ buf.take len, calls := out.calls + 1 })

/-- The buffer `data` is being sent: its first bytes have been put on the connection,
behind the bytes `start`, and the other ones are still to be sent. -/
def Sending (start data wire rest : Bytes) (count : ℤ) : Prop :=
  ∃ done, data = done ++ rest ∧ wire = start ++ done ∧ count = rest.length

namespace Sending

variable {start data wire rest : Bytes} {count : ℤ}

theorem init (start data : Bytes) : Sending start data start data data.length :=
  ⟨[], rfl, (List.append_nil start).symm, rfl⟩

theorem send (h : Sending start data wire rest count) {len : ℕ} (hlen : len ≤ count) :
    Sending start data (wire ++ rest.take len) (rest.drop len) (count - len) := by
  obtain ⟨done, hdata, hwire, hcount⟩ := h
  refine ⟨done ++ rest.take len, ?_, ?_, ?_⟩
  · rw [List.append_assoc, List.take_append_drop, hdata]
  · rw [hwire, List.append_assoc]
  · rw [List.length_drop]
    omega

theorem whole (h : Sending start data wire rest count) (hcount : count ≤ 0) :
    wire = start ++ data := by
  obtain ⟨done, hdata, hwire, hrest⟩ := h
  have hnil : rest = [] := List.eq_nil_of_length_eq_zero (by omega)
  rw [hwire, hdata, hnil, List.append_nil]

theorem cut (h : Sending start data wire rest count) (hcount : 0 < count) :
    ∃ sent, sent <+: data ∧ sent ≠ data ∧ wire = start ++ sent := by
  obtain ⟨done, hdata, hwire, hrest⟩ := h
  refine ⟨done, ⟨rest, hdata.symm⟩, ?_, hwire⟩
  rintro rfl
  have hnil : rest = [] := List.self_eq_append_right.mp hdata
  rw [hnil, List.length_nil] at hrest
  omega

end Sending

/-- The locals of a loop that writes a buffer: the rest of the buffer, its length, and the
connection. -/
structure WritenState where
  buf : Bytes
  count : ℤ
  out : Outgoing

/-- The answers on which such a loop gives up: all but the one that makes it try again and
those that take bytes. -/
def Schedule.GivesUp (σ : Schedule) (retry : Answer) (i : ℕ) : Prop :=
  σ i ≠ retry ∧ ∀ m, 0 < m → σ i ≠ .upTo m

/-- All that a pass of such a loop can do, in which `retry` is the answer that makes it try
again. -/
inductive Writes (σ : Schedule) (retry : Answer) (n : ℤ) (s : WritenState) :
    Loop.Pass WritenState (ℤ × Outgoing) → Prop
  | finished (count : s.count ≤ 0) : Writes σ retry n s (.leave (n, s.out))
  | failed (count : 0 < s.count) (answer : σ.GivesUp retry s.out.calls) :
      Writes σ retry n s (.leave (-1, { s.out with calls := s.out.calls + 1 }))
  | retried (answer : σ s.out.calls = retry) :
      Writes σ retry n s (.again { s with out := { s.out with calls := s.out.calls + 1 } })
  | sent (len : ℕ) (pos : 0 < len) (le : len ≤ s.count) :
      Writes σ retry n s (.again ⟨s.buf.drop len, s.count - len,
        { s.out with wire := s.out.wire ++ s.buf.take len, calls := s.out.calls + 1 }⟩)

/-- What a loop that writes a buffer has done when it returns: all of the buffer is on the
connection, in order and once, and the size is returned; or a proper part, and -1. -/
structure Written (out : Outgoing) (data : Bytes) (r : ℤ × Outgoing) : Prop where
  ret : r.1 = data.length ∨ r.1 = -1
  whole : r.1 = data.length → r.2.wire = out.wire ++ data
  cut : r.1 = -1 → ∃ sent, sent <+: data ∧ sent ≠ data ∧ r.2.wire = out.wire ++ sent

section

variable {σ : Schedule} {retry : Answer} {n : ℤ} {s t : WritenState} {r : ℤ × Outgoing}
variable {out : Outgoing} {data : Bytes}

/-- Another pass goes on with the rest of the buffer, or comes nearer to the end of the
retries. -/
theorem Writes.sending (h : Writes σ retry n s (.again t)) {retries : ℕ → ℕ}
    (hretries : ∀ i, σ i = retry → retries (i + 1) < retries i)
    (hs : Sending out.wire data s.out.wire s.buf s.count) :
    Sending out.wire data t.out.wire t.buf t.count ∧
      (t.count.toNat < s.count.toNat ∨
        t.count.toNat = s.count.toNat ∧ retries t.out.calls < retries s.out.calls) := by
  cases h with
  | retried answer => exact ⟨hs, .inr ⟨rfl, hretries _ answer⟩⟩
  | sent len pos le =>
    refine ⟨hs.send le, .inl ?_⟩
    simp only
    omega

theorem Writes.written (h : Writes σ retry data.length s (.leave r))
    (hs : Sending out.wire data s.out.wire s.buf s.count) :
    Written out data r ∧ (r.1 = -1 → ∃ i, σ.GivesUp retry i) := by
  cases h with
  | finished count =>
    have hne : ((data.length : ℕ) : ℤ) ≠ -1 := by omega
    exact ⟨⟨.inl rfl, fun _ => hs.whole count, fun hneg => absurd hneg hne⟩,
      fun hneg => absurd hneg hne⟩
  | failed count answer =>
    refine ⟨⟨.inr rfl, ?_, fun _ => hs.cut count⟩, fun _ => ⟨_, answer⟩⟩
    intro hlen
    simp only at hlen
    omega

/-- A loop with such passes returns when the answer that it takes for a retry is not
repeated for ever, and it returns -1 only if it has given up. -/
theorem exists_written {body : WritenState → Loop.Pass WritenState (ℤ × Outgoing)}
    (hbody : ∀ s, Writes σ retry data.length s (body s)) (hσ : σ.Leaves retry) (out : Outgoing) :
    ∃ N r, (∀ fuel, N ≤ fuel → Loop.run body fuel ⟨data, data.length, out⟩ = some r) ∧
      Written out data r ∧ (r.1 = -1 → ∃ i, σ.GivesUp retry i) := by
  obtain ⟨retries, hretries⟩ := hσ.exists_retries
  apply Loop.run_of_retries (Writes σ retry data.length) hbody
    (fun s => Sending out.wire data s.out.wire s.buf s.count)
    (fun r => Written out data r ∧ (r.1 = -1 → ∃ i, σ.GivesUp retry i))
    (fun s => s.count.toNat) (fun s => retries s.out.calls)
  · intro s t hs hpass
    exact hpass.sending hretries hs
  · intro s r hs hpass
    exact hpass.written hs
  · exact Sending.init out.wire data

end

/-- The receiving end: bytes still to come, whether the peer has closed after
them, and the calls and allocations made so far. -/
structure Incoming where
  pending : Bytes
  eof : Bool
  calls : ℕ := 0
  mallocs : ℕ := 0
  closed : Bool := false

/-- `recv(fd, _, count, 0)`: the value returned and the bytes handed over. With
nothing to hand over it returns 0 at end-of-file, and otherwise blocks, which
is no result. -/
def recv (σ : Schedule) (inc : Incoming) (count : ℤ) : Option ((ℤ × Bytes) × Incoming) :=
  match σ inc.calls with
  | .fail _ => some ((-1, []), { inc with calls := inc.calls + 1 })
  | .upTo n =>
    if inc.pending = [] then
      if inc.eof then some ((0, []), { inc with calls := inc.calls + 1 }) else none
    else
      let len := min (max 1 n) (min count.toNat inc.pending.length)
      some ((len, inc.pending.take len),
        { inc with pending := inc.pending.drop len, calls := inc.calls + 1 })

theorem send_upTo {σ : Schedule} {out : Outgoing} {n : ℕ} (h : σ out.calls = .upTo n)
    (buf : Bytes) (count : ℤ) :
    send σ out buf count = (((min n count.toNat : ℕ) : ℤ),
      { out with wire := out.wire ++ buf.take (min n count.toNat), calls := out.calls + 1 }) := by
  simp [send, h]

theorem recv_fail {σ : Schedule} {inc : Incoming} {e : Errno} (h : σ inc.calls = .fail e)
    (count : ℤ) : recv σ inc count = some ((-1, []), { inc with calls := inc.calls + 1 }) := by
  simp [recv, h]

theorem recv_eof {σ : Schedule} {inc : Incoming} {n : ℕ} (h : σ inc.calls = .upTo n)
    (hp : inc.pending = []) (he : inc.eof = true) (count : ℤ) :
    recv σ inc count = some ((0, []), { inc with calls := inc.calls + 1 }) := by
  simp [recv, h, hp, he]

theorem recv_blocked {σ : Schedule} {inc : Incoming} {n : ℕ} (h : σ inc.calls = .upTo n)
    (hp : inc.pending = []) (he : inc.eof = false) (count : ℤ) : recv σ inc count = none := by
  simp [recv, h, hp, he]

theorem recv_some {σ : Schedule} {inc : Incoming} {n : ℕ} (h : σ inc.calls = .upTo n)
    (hp : inc.pending ≠ []) {count : ℤ} (hc : 0 < count) :
    ∃ len : ℕ, 0 < len ∧ len ≤ count ∧ len ≤ inc.pending.length ∧
      len = min (σ inc.calls).offer (min count.toNat inc.pending.length) ∧
      recv σ inc count = some (((len : ℤ), inc.pending.take len),
        { inc with pending := inc.pending.drop len, calls := inc.calls + 1 }) := by
  have hl : 0 < inc.pending.length := List.length_pos_iff.mpr hp
  refine ⟨min (max 1 n) (min count.toNat inc.pending.length), ?_, ?_, ?_, ?_, ?_⟩
  · omega
  · omega
  · omega
  · rw [h, Answer.offer]
  · simp [recv, h, hp]

section

variable {σ : Schedule} {inc inc' : Incoming} {count : ℤ} {bytes : Bytes}

/-- All that `recv` can do with a positive request. -/
theorem recv_cases (σ : Schedule) (inc : Incoming) (hc : 0 < count) :
    ((∃ e, σ inc.calls = .fail e) ∧
      recv σ inc count = some ((-1, []), { inc with calls := inc.calls + 1 })) ∨
    ((∃ m, σ inc.calls = .upTo m) ∧ inc.pending = [] ∧ inc.eof = true ∧
      recv σ inc count = some ((0, []), { inc with calls := inc.calls + 1 })) ∨
    ((∃ m, σ inc.calls = .upTo m) ∧ inc.pending = [] ∧ inc.eof = false ∧
      recv σ inc count = none) ∨
    ((∃ m, σ inc.calls = .upTo m) ∧ ∃ len : ℕ, 0 < len ∧ len ≤ count ∧
      len ≤ inc.pending.length ∧
      len = min (σ inc.calls).offer (min count.toNat inc.pending.length) ∧
      recv σ inc count = some (((len : ℤ), inc.pending.take len),
        { inc with pending := inc.pending.drop len, calls := inc.calls + 1 })) := by
  cases hn : σ inc.calls with
  | fail e => exact .inl ⟨⟨e, rfl⟩, recv_fail hn count⟩
  | upTo m =>
    refine .inr ?_
    by_cases hp : inc.pending = []
    · rcases Bool.eq_false_or_eq_true inc.eof with he | he
      · exact .inl ⟨⟨m, rfl⟩, hp, he, recv_eof hn hp he count⟩
      · exact .inr (.inl ⟨⟨m, rfl⟩, hp, he, recv_blocked hn hp he count⟩)
    · have hsome := recv_some hn hp hc
      rw [hn] at hsome
      exact .inr (.inr ⟨⟨m, rfl⟩, hsome⟩)

theorem recv_eq_neg_one (hc : 0 < count) (h : recv σ inc count = some ((-1, bytes), inc')) :
    (∃ e, σ inc.calls = .fail e) ∧ inc' = { inc with calls := inc.calls + 1 } := by
  rcases recv_cases σ inc hc with ⟨hσ, he⟩ | ⟨-, -, -, he⟩ | ⟨-, -, -, he⟩ |
    ⟨-, len, -, -, -, -, he⟩ <;> rw [he] at h <;>
    simp only [Option.some.injEq, Prod.mk.injEq, reduceCtorEq] at h
  · exact ⟨hσ, h.2.symm⟩
  · exact absurd h.1.1 (by decide)
  · exact h.1.1.elim

theorem recv_eq_zero (hc : 0 < count) (h : recv σ inc count = some ((0, bytes), inc')) :
    (∃ m, σ inc.calls = .upTo m) ∧ inc.pending = [] ∧ inc.eof = true ∧
      inc' = { inc with calls := inc.calls + 1 } := by
  rcases recv_cases σ inc hc with ⟨-, he⟩ | ⟨hσ, hp, heof, he⟩ | ⟨-, -, -, he⟩ |
    ⟨-, len, hpos, -, -, -, he⟩ <;> rw [he] at h <;>
    simp only [Option.some.injEq, Prod.mk.injEq, reduceCtorEq] at h
  · exact absurd h.1.1 (by decide)
  · exact ⟨hσ, hp, heof, h.2.symm⟩
  · have := h.1.1
    omega

theorem recv_eq_none (hc : 0 < count) (h : recv σ inc count = none) :
    inc.pending = [] ∧ inc.eof = false := by
  rcases recv_cases σ inc hc with ⟨-, he⟩ | ⟨-, -, -, he⟩ | ⟨-, hp, heof, -⟩ |
    ⟨-, len, -, -, -, -, he⟩
  · rw [he] at h
    cases h
  · rw [he] at h
    cases h
  · exact ⟨hp, heof⟩
  · rw [he] at h
    cases h

theorem recv_eq_pos (hc : 0 < count) {len : ℕ} (hlen : 0 < len)
    (h : recv σ inc count = some (((len : ℤ), bytes), inc')) :
    (∃ m, σ inc.calls = .upTo m) ∧ len ≤ count ∧ len ≤ inc.pending.length ∧
      len = min (σ inc.calls).offer (min count.toNat inc.pending.length) ∧
      bytes = inc.pending.take len ∧
      inc' = { inc with pending := inc.pending.drop len, calls := inc.calls + 1 } := by
  rcases recv_cases σ inc hc with ⟨-, he⟩ | ⟨-, -, -, he⟩ | ⟨-, -, -, he⟩ |
    ⟨hσ, len', -, hle, hle', heq, he⟩ <;> rw [he] at h <;>
    simp only [Option.some.injEq, Prod.mk.injEq, reduceCtorEq] at h
  · exact h.1.1.elim
  · have := h.1.1
    omega
  · obtain ⟨⟨hcast, rfl⟩, rfl⟩ := h
    obtain rfl : len' = len := by exact_mod_cast hcast
    exact ⟨hσ, hle, hle', heq, rfl, rfl⟩

end

theorem recv_one {σ : Schedule} {inc : Incoming} {n : ℕ} (h : σ inc.calls = .upTo n) {c : UInt8}
    {rest : Bytes} (hp : inc.pending = c :: rest) :
    recv σ inc 1 = some ((1, [c]), { inc with pending := rest, calls := inc.calls + 1 }) := by
  simp [recv, h, hp]

end NetworkPrograms.Transport
