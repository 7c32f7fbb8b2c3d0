import NetworkPrograms.Foundations.Memory
import NetworkPrograms.Foundations.Transport

/-!
# The client with non-blocking I/O

`str_cli` of `nonblock/strclinonb.c`. The client copies its standard input to the socket and
the socket to its standard output, each through a buffer with a pointer behind the bytes
that were read and one behind the bytes that were written. `select` says which of the four
transfers can be made, and each of them may still take or give any part, or answer
`EWOULDBLOCK`.
-/
namespace NetworkPrograms.StrCli

open Transport

def MAXLINE : ℕ := 4096

/-- `to` with `toiptr` and `tooptr`, or `fr` with `friptr` and `froptr`. All stores are
inside the array. -/
structure Buffer where
  mem : Block
  iptr : ℕ
  optr : ℕ
  le : optr ≤ iptr
  inside : iptr ≤ MAXLINE
  safe : ∀ i ∈ mem.log, 0 ≤ i ∧ i < MAXLINE

namespace Buffer

def init (junk : ℤ → UInt8) : Buffer where
  mem := Block.alloc MAXLINE junk
  iptr := 0
  optr := 0
  le := le_rfl
  inside := Nat.zero_le _
  safe := by simp [Block.alloc]

variable (b : Buffer)

/-- The bytes that `read` stores when it is asked for as many as there is room. -/
def accept (bytes : Bytes) : Bytes := bytes.take (MAXLINE - b.iptr)

theorem iptr_add_accept (bytes : Bytes) : b.iptr + (b.accept bytes).length ≤ MAXLINE := by
  have hlen : (b.accept bytes).length ≤ MAXLINE - b.iptr := List.length_take_le _ _
  have hinside := b.inside
  omega

/-- `read` into the buffer, and `iptr += n`. -/
def store (bytes : Bytes) : Buffer where
  mem := b.mem.write b.iptr (b.accept bytes)
  iptr := b.iptr + (b.accept bytes).length
  optr := b.optr
  le := b.le.trans (Nat.le_add_right _ _)
  inside := b.iptr_add_accept bytes
  safe := by
    intro i hi
    have hroom := b.iptr_add_accept bytes
    rcases List.mem_append.mp hi with hold | hnew
    · exact b.safe i hold
    · obtain ⟨k, hk, rfl⟩ := List.mem_map.mp hnew
      have hlt := List.mem_range.mp hk
      omega

def content : Bytes := b.mem.read b.optr (b.iptr - b.optr)

/-- `optr += nwritten`, and back to the beginning of the buffer when nothing is left. -/
def wrote (n : ℕ) : Buffer :=
  let nwritten := min n (b.iptr - b.optr)
  if b.optr + nwritten = b.iptr then
    { b with iptr := 0, optr := 0, le := le_rfl, inside := Nat.zero_le _ }
  else
    { b with optr := b.optr + nwritten, le := by have := b.le; omega }

@[simp] theorem length_content : b.content.length = b.iptr - b.optr := Block.length_read ..

theorem content_eq_nil_iff : b.content = [] ↔ b.optr = b.iptr := by
  have hle := b.le
  rw [← List.length_eq_zero_iff, length_content]
  omega

@[simp] theorem content_init (junk : ℤ → UInt8) : (init junk).content = [] := rfl

theorem content_store (bytes : Bytes) : (b.store bytes).content = b.content ++ b.accept bytes := by
  have hle := b.le
  have hlen : b.iptr + (b.accept bytes).length - b.optr =
      (b.iptr - b.optr) + (b.accept bytes).length := by omega
  have hptr : (b.optr : ℤ) + (b.iptr - b.optr : ℕ) = b.iptr := by omega
  simp only [content, store]
  rw [hlen, Block.read_add, hptr, Block.read_write_of_le _ _ _ _ (le_of_eq hptr),
    Block.read_write _ _ _ le_rfl, List.take_length]

theorem content_wrote (n : ℕ) : (b.wrote n).content = b.content.drop n := by
  have hle := b.le
  unfold wrote
  dsimp only
  split_ifs with hall
  · rw [List.drop_of_length_le (by rw [length_content]; omega)]
    rfl
  · have hn : min n (b.iptr - b.optr) = n := by omega
    have hlen : b.iptr - b.optr = n + (b.iptr - (b.optr + n)) := by omega
    simp only [content, hn]
    rw [hlen, Block.read_add, List.drop_append_of_le_length (by simp), Nat.cast_add]
    simp

end Buffer

/-- The members of `rset` and of `wset`. -/
structure Sets where
  stdin : Bool
  sockRead : Bool
  sockWrite : Bool
  stdout : Bool

/-- What a `read` answers: an error, or bytes; no bytes mean the end of the stream. -/
inductive Read where
  | fail (errno : Errno)
  | bytes (bs : Bytes)

inductive Exit where
  | returned
  | errQuit (message : String)
  | errSys (message : String)
  deriving DecidableEq

/-- The variables of `str_cli`, what went through each of the four descriptors, the number
of bytes that had been sent when `Shutdown` was called, and the end of the function. -/
structure State where
  tobuf : Buffer
  frbuf : Buffer
  stdineof : Bool := false
  sets : Sets := ⟨false, false, false, false⟩
  typed : Bytes := []
  sent : Bytes := []
  received : Bytes := []
  printed : Bytes := []
  shutdowns : List ℕ := []
  exit : Option Exit := none

/-- What the kernel answers in one pass of the loop: to `select`, unless it fails, to the four
transfers, and whether `shutdown` succeeds if it is called. -/
structure Round where
  ready : Option Sets
  stdin : Read
  sockRead : Read
  stdout : Answer
  sockWrite : Answer
  shutdown : Bool := true

namespace State

variable (s : State)

/-- `err_sys`, except for `EWOULDBLOCK`. -/
def failed (errno : Errno) (message : String) : State :=
  if errno ≠ .EAGAIN then { s with exit := some (.errSys message) } else s

def shutdown (ok : Bool) : State :=
  { s with
    shutdowns := s.shutdowns ++ [s.sent.length]
    exit := if ok then s.exit else some (.errSys "shutdown error") }

/-- The sets are built, and `Select` leaves the members that are ready. -/
def select : Option Sets → State
  | none => { s with exit := some (.errSys "select error") }
  | some ready => { s with sets :=
      { stdin := !s.stdineof && decide (s.tobuf.iptr < MAXLINE) && ready.stdin
        sockRead := decide (s.frbuf.iptr < MAXLINE) && ready.sockRead
        sockWrite := decide (s.tobuf.optr ≠ s.tobuf.iptr) && ready.sockWrite
        stdout := decide (s.frbuf.optr ≠ s.frbuf.iptr) && ready.stdout } }

def readStdin (answer : Read) (ok : Bool) : State :=
  if s.exit = none ∧ s.sets.stdin = true then
    match answer with
    | .fail errno => s.failed errno "read error on stdin"
    | .bytes bs =>
      if s.tobuf.accept bs = [] then
        let s := { s with stdineof := true }
        if s.tobuf.optr = s.tobuf.iptr then s.shutdown ok else s
      else { s with
        tobuf := s.tobuf.store bs
        typed := s.typed ++ s.tobuf.accept bs
        sets := { s.sets with sockWrite := true } }
  else s

def readSock (answer : Read) : State :=
  if s.exit = none ∧ s.sets.sockRead = true then
    match answer with
    | .fail errno => s.failed errno "read error on socket"
    | .bytes bs =>
      if s.frbuf.accept bs = [] then
        if s.stdineof = true then { s with exit := some .returned }
        else { s with exit := some (.errQuit "str_cli: server terminated prematurely") }
      else { s with
        frbuf := s.frbuf.store bs
        received := s.received ++ s.frbuf.accept bs
        sets := { s.sets with stdout := true } }
  else s

def writeStdout (answer : Answer) : State :=
  if s.exit = none ∧ s.sets.stdout = true ∧ s.frbuf.optr < s.frbuf.iptr then
    match answer with
    | .fail errno => s.failed errno "write error to stdout"
    | .upTo n => { s with frbuf := s.frbuf.wrote n, printed := s.printed ++ s.frbuf.content.take n }
  else s

def writeSock (answer : Answer) (ok : Bool) : State :=
  if s.exit = none ∧ s.sets.sockWrite = true ∧ s.tobuf.optr < s.tobuf.iptr then
    match answer with
    | .fail errno => s.failed errno "write error to socket"
    | .upTo n =>
      let t := { s with tobuf := s.tobuf.wrote n, sent := s.sent ++ s.tobuf.content.take n }
      if t.tobuf.optr = t.tobuf.iptr ∧ t.stdineof = true then t.shutdown ok else t
  else s

def round (r : Round) : State :=
  if s.exit = none then
    ((((s.select r.ready).readStdin r.stdin r.shutdown).readSock r.sockRead).writeStdout
      r.stdout).writeSock r.sockWrite r.shutdown
  else s

end State

/-- `str_cli` with what the arrays contain at first and what the kernel answers. -/
def strCli (junk : ℤ → UInt8) (rounds : List Round) : State :=
  rounds.foldl State.round { tobuf := .init junk, frbuf := .init junk }

/-! ## What holds in every state -/

/-- Both directions are copied in order. `Shutdown` was called if and only if the input has
ended and all of it was sent, once, and with nothing sent behind it. -/
structure Inv (s : State) : Prop where
  up : s.sent ++ s.tobuf.content = s.typed
  down : s.printed ++ s.frbuf.content = s.received
  fin : s.shutdowns =
    if s.stdineof = true ∧ s.tobuf.content = [] then [s.typed.length] else []
  back : s.exit = some .returned → s.stdineof = true

namespace Inv

variable {s : State}

theorem init (junk : ℤ → UInt8) : Inv { tobuf := .init junk, frbuf := .init junk } where
  up := rfl
  down := rfl
  fin := by simp
  back := by simp

theorem failed (h : Inv s) (errno : Errno) (message : String) : Inv (s.failed errno message) := by
  unfold State.failed
  split_ifs
  · exact ⟨h.up, h.down, h.fin, by simp⟩
  · exact h

theorem shutdown {t : State} (hup : t.sent ++ t.tobuf.content = t.typed)
    (hdown : t.printed ++ t.frbuf.content = t.received) (heof : t.stdineof = true)
    (hempty : t.tobuf.content = []) (hfirst : t.shutdowns = []) (ok : Bool) :
    Inv (t.shutdown ok) where
  up := hup
  down := hdown
  fin := by
    have hsent : t.sent = t.typed := by rw [← hup, hempty, List.append_nil]
    simp [State.shutdown, heof, hempty, hfirst, hsent]
  back := fun _ => heof

theorem readStdin (h : Inv s)
    (hsel : s.exit = none → s.sets.stdin = true → s.stdineof = false) (answer : Read) (ok : Bool) :
    Inv (s.readStdin answer ok) := by
  unfold State.readStdin
  split_ifs with hcan
  · have heof := hsel hcan.1 hcan.2
    have hfirst : s.shutdowns = [] := by simpa [heof] using h.fin
    cases answer with
    | fail errno => exact h.failed errno _
    | bytes bs =>
      dsimp only
      split_ifs with hend hempty
      · exact shutdown (t := { s with stdineof := true }) h.up h.down rfl
          ((Buffer.content_eq_nil_iff _).mpr hempty) hfirst ok
      · refine ⟨h.up, h.down, ?_, fun _ => rfl⟩
        have hne : s.tobuf.content ≠ [] :=
          fun hnil => hempty ((Buffer.content_eq_nil_iff _).mp hnil)
        simp [hfirst, hne]
      · refine ⟨?_, h.down, ?_, h.back⟩
        · simp only [Buffer.content_store, ← h.up, List.append_assoc]
        · simp [heof, hfirst]
  · exact h

theorem readSock (h : Inv s) (answer : Read) : Inv (s.readSock answer) := by
  unfold State.readSock
  by_cases hcan : s.exit = none ∧ s.sets.sockRead = true
  · rw [if_pos hcan]
    cases answer with
    | fail errno => exact h.failed errno _
    | bytes bs =>
      dsimp only
      split_ifs with hend heof
      · exact ⟨h.up, h.down, h.fin, fun _ => heof⟩
      · exact ⟨h.up, h.down, h.fin, by simp⟩
      · refine ⟨h.up, ?_, h.fin, h.back⟩
        simp only [Buffer.content_store, ← h.down, List.append_assoc]
  · rw [if_neg hcan]
    exact h

theorem writeStdout (h : Inv s) (answer : Answer) : Inv (s.writeStdout answer) := by
  unfold State.writeStdout
  split_ifs with hcan
  · cases answer with
    | fail errno => exact h.failed errno _
    | upTo n =>
      refine ⟨h.up, ?_, h.fin, h.back⟩
      simp only [Buffer.content_wrote, List.append_assoc, List.take_append_drop]
      exact h.down
  · exact h

theorem writeSock (h : Inv s) (answer : Answer) (ok : Bool) : Inv (s.writeSock answer ok) := by
  unfold State.writeSock
  split_ifs with hcan
  · cases answer with
    | fail errno => exact h.failed errno _
    | upTo n =>
      have hne : s.tobuf.content ≠ [] := fun hnil =>
        absurd ((Buffer.content_eq_nil_iff _).mp hnil) hcan.2.2.ne
      have hfirst : s.shutdowns = [] := by simpa [hne] using h.fin
      have hup : s.sent ++ s.tobuf.content.take n ++ (s.tobuf.wrote n).content = s.typed := by
        rw [Buffer.content_wrote, List.append_assoc, List.take_append_drop, h.up]
      dsimp only
      split_ifs with hlast
      · exact shutdown (t := { s with
            tobuf := s.tobuf.wrote n, sent := s.sent ++ s.tobuf.content.take n })
          hup h.down hlast.2 ((Buffer.content_eq_nil_iff _).mpr hlast.1) hfirst ok
      · refine ⟨hup, h.down, ?_, h.back⟩
        rw [← Buffer.content_eq_nil_iff, and_comm] at hlast
        rw [if_neg hlast]
        exact hfirst
  · exact h

theorem select (h : Inv s) (ready : Option Sets) : Inv (s.select ready) := by
  cases ready with
  | none => exact ⟨h.up, h.down, h.fin, by simp [State.select]⟩
  | some ready => exact ⟨h.up, h.down, h.fin, h.back⟩

theorem round (h : Inv s) (r : Round) : Inv (s.round r) := by
  unfold State.round
  split_ifs
  · have hsel : (s.select r.ready).exit = none → (s.select r.ready).sets.stdin = true →
        (s.select r.ready).stdineof = false := by
      cases r.ready with
      | none => simp [State.select]
      | some ready =>
        intro _ hstdin
        simp only [State.select, Bool.and_eq_true, Bool.not_eq_true'] at hstdin
        exact hstdin.1.1
    exact ((((h.select r.ready).readStdin hsel r.stdin r.shutdown).readSock r.sockRead).writeStdout
      r.stdout).writeSock r.sockWrite r.shutdown
  · exact h

end Inv

theorem strCli_inv (junk : ℤ → UInt8) (rounds : List Round) : Inv (strCli junk rounds) :=
  List.foldlRecOn rounds State.round (.init junk) fun _ h r _ => h.round r

/-! ## When the output takes all it is offered -/

/-- The write to the output takes a whole buffer. -/
def Round.Prints (r : Round) : Prop := ∃ n, r.stdout = .upTo n ∧ MAXLINE ≤ n

section
variable {s : State}

theorem failed_frbuf (errno : Errno) (message : String) :
    (s.failed errno message).frbuf = s.frbuf := by
  unfold State.failed
  split_ifs <;> rfl

theorem select_frbuf (ready : Option Sets) : (s.select ready).frbuf = s.frbuf := by
  cases ready <;> rfl

theorem readStdin_frbuf (answer : Read) (ok : Bool) :
    (s.readStdin answer ok).frbuf = s.frbuf := by
  unfold State.readStdin
  split_ifs
  · cases answer with
    | fail errno => exact failed_frbuf errno _
    | bytes bs =>
      dsimp only
      split_ifs <;> rfl
  · rfl

theorem readSock_offers (h : s.frbuf.content = []) (answer : Read) :
    (s.readSock answer).frbuf.content = [] ∨
      (s.readSock answer).exit = none ∧ (s.readSock answer).sets.stdout = true := by
  unfold State.readSock
  by_cases hcan : s.exit = none ∧ s.sets.sockRead = true
  · rw [if_pos hcan]
    cases answer with
    | fail errno =>
      left
      rw [failed_frbuf]
      exact h
    | bytes bs =>
      dsimp only
      split_ifs
      · exact .inl h
      · exact .inl h
      · exact .inr ⟨hcan.1, rfl⟩
  · rw [if_neg hcan]
    exact .inl h

theorem writeStdout_content {n : ℕ} (hn : MAXLINE ≤ n)
    (h : s.frbuf.content = [] ∨ s.exit = none ∧ s.sets.stdout = true) :
    (s.writeStdout (.upTo n)).frbuf.content = [] := by
  have hlen : s.frbuf.content.length ≤ n := by
    rw [Buffer.length_content]
    exact (Nat.sub_le _ _).trans (s.frbuf.inside.trans hn)
  unfold State.writeStdout
  split_ifs with hcan
  · simp only [Buffer.content_wrote, List.drop_of_length_le hlen]
  · rcases h with hempty | hoffered
    · exact hempty
    · rw [Buffer.content_eq_nil_iff]
      have hle := s.frbuf.le
      have hnot : ¬ s.frbuf.optr < s.frbuf.iptr := fun hlt =>
        hcan ⟨hoffered.1, hoffered.2, hlt⟩
      omega

theorem writeSock_frbuf (answer : Answer) (ok : Bool) :
    (s.writeSock answer ok).frbuf = s.frbuf := by
  unfold State.writeSock
  split_ifs
  · cases answer with
    | fail errno => exact failed_frbuf errno _
    | upTo n =>
      dsimp only
      split_ifs <;> rfl
  · rfl

theorem round_content {r : Round} (hr : r.Prints) (h : s.frbuf.content = []) :
    (s.round r).frbuf.content = [] := by
  obtain ⟨n, hstdout, hn⟩ := hr
  unfold State.round
  split_ifs
  · rw [writeSock_frbuf, hstdout]
    apply writeStdout_content hn
    apply readSock_offers
    rw [readStdin_frbuf, select_frbuf]
    exact h
  · exact h

end

theorem strCli_content (junk : ℤ → UInt8) (rounds : List Round) (h : ∀ r ∈ rounds, r.Prints) :
    (strCli junk rounds).frbuf.content = [] := by
  apply List.foldlRecOn rounds State.round (motive := fun s => s.frbuf.content = [])
  · exact Buffer.content_init junk
  · intro s hs r hr
    exact round_content (h r hr) hs

/-- The two copies, for everything that the kernel may answer. What was sent is the start of
the input, what was printed is the start of what came from the server, and the bytes
between are in the buffers. The connection is shut down at most once, and then all of the
input has been sent: this is so exactly when the input has ended and its buffer is empty. The
function returns normally only when the input has ended. It then loses what is in the buffer
for the output, which is nothing if the output always took all that it was offered. -/
theorem copies_in_order (junk : ℤ → UInt8) (rounds : List Round) :
    let s := strCli junk rounds
    s.sent ++ s.tobuf.content = s.typed ∧ s.printed ++ s.frbuf.content = s.received ∧
      s.shutdowns =
        (if s.stdineof = true ∧ s.tobuf.content = [] then [s.typed.length] else []) ∧
      (s.exit = some .returned → s.stdineof = true) ∧
      ((∀ r ∈ rounds, r.Prints) → s.printed = s.received) := by
  have h := strCli_inv junk rounds
  refine ⟨h.up, h.down, h.fin, h.back, ?_⟩
  intro hprints
  have hdown := h.down
  rw [strCli_content junk rounds hprints, List.append_nil] at hdown
  exact hdown

end NetworkPrograms.StrCli
