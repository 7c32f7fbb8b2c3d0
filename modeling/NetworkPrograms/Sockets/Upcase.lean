import NetworkPrograms.Foundations.Interleaving
import NetworkPrograms.Kernel.Calls

/-!
# A connection that is answered in capitals

The loop of the child in `server2.c` and of `do_work` in `server3.c`: it reads what there is,
up to the size of its buffer, turns it into upper case and writes it back. It leaves when
`read` returns 0. What `write` returns is not looked at, so that a write which fails or takes
only a part is not made good. A failed `read` is not looked at either: the loop goes on to
write -1 bytes, which the kernel refuses, and reads again.
-/
namespace NetworkPrograms.Sockets

open Kernel (toupper)

def BUFSIZ : ℕ := 8192

/-- A connection as its server sees it: what has arrived and was not read yet, whether the
client has closed or reset it, what was read, what `write` has taken, and whether it has ever
taken less than it was given. -/
structure Conn where
  unread : Bytes := []
  closed : Bool := false
  reset : Bool := false
  done : Bytes := []
  sent : Bytes := []
  short : Bool := false

namespace Conn

def arrived (c : Conn) : Bytes := c.done ++ c.unread

def arrive (c : Conn) (bytes : Bytes) : Conn := { c with unread := c.unread ++ bytes }

def fin (c : Conn) : Conn := { c with closed := true }

def rst (c : Conn) : Conn := { c with reset := true }

def read (c : Conn) (n : ℕ) : Conn :=
  { c with unread := c.unread.drop n, done := c.done ++ c.unread.take n }

/-- The buffer behind a `read` that has returned `n`, in capitals. -/
def upper (c : Conn) (n : ℕ) : Bytes := (c.unread.take n).map toupper

/-- `write` takes `m` bytes of the buffer, none of them when it fails. -/
def write (c : Conn) (buf : Bytes) (m : ℕ) : Conn :=
  { c with sent := c.sent ++ buf.take m, short := c.short || m < buf.length }

/-- What can still come from the client. -/
def Live (c : Conn) : Prop := c.closed = false ∧ c.reset = false

/-- What `read` may return, if not -1. -/
def Readable (c : Conn) (n : ℕ) : Prop := 0 < n ∧ n ≤ BUFSIZ ∧ n ≤ c.unread.length

/-- `read` may return 0: the stream has ended, or the connection was reset. -/
def AtEnd (c : Conn) : Prop := c.unread = [] ∧ c.closed = true ∨ c.reset = true

/-- What was read has been answered, but for the buffer, exactly when no `write` has taken less
than it was given; and nothing else was ever sent. -/
structure Answered (c : Conn) (buf : Bytes) : Prop where
  sublist : (c.sent ++ buf).Sublist (c.done.map toupper)
  whole : c.sent ++ buf = c.done.map toupper ↔ c.short = false

theorem answered_init : Answered {} [] := ⟨List.Sublist.refl _, by simp⟩

theorem Answered.congr {c d : Conn} {buf : Bytes} (h : c.Answered buf) (hdone : d.done = c.done)
    (hsent : d.sent = c.sent) (hshort : d.short = c.short) : d.Answered buf := by
  constructor
  · rw [hsent, hdone]
    exact h.sublist
  · rw [hsent, hdone, hshort]
    exact h.whole

theorem Answered.read {c : Conn} (h : c.Answered []) (n : ℕ) :
    (c.read n).Answered (c.upper n) := by
  have hdone : (c.read n).done.map toupper = c.done.map toupper ++ c.upper n := by
    simp [Conn.read, upper]
  obtain ⟨hsub, hwhole⟩ := h
  rw [List.append_nil] at hsub hwhole
  constructor
  · rw [hdone]
    exact hsub.append_right _
  · rw [hdone, List.append_left_inj]
    exact hwhole

theorem Answered.write {c : Conn} {buf : Bytes} (h : c.Answered buf) (m : ℕ) :
    (c.write buf m).Answered [] := by
  have htaken : (c.sent ++ buf.take m).Sublist (c.sent ++ buf) :=
    (List.take_sublist m buf).append_left _
  have hall : c.sent ++ buf.take m = c.sent ++ buf ↔ ¬ m < buf.length := by
    rw [List.append_right_inj, List.take_eq_self_iff, not_lt]
  constructor
  · rw [List.append_nil]
    exact htaken.trans h.sublist
  · rw [List.append_nil]
    change c.sent ++ buf.take m = c.done.map toupper ↔ (c.short || decide (m < buf.length)) = false
    rw [Bool.or_eq_false_iff, ← h.whole, decide_eq_false_iff_not, ← hall]
    constructor
    · -- what was taken lies between nothing less and nothing more
      intro heq
      have hboth := htaken.antisymm (heq ▸ h.sublist)
      exact ⟨hboth.symm.trans heq, hboth⟩
    · rintro ⟨hread, htake⟩
      exact htake.trans hread

/-- When the server has seen the end of a stream that was not reset, it has read all of it, and
has answered all of it exactly when every write was whole. -/
theorem Answered.atEnd {c : Conn} (h : c.Answered []) (hend : c.AtEnd) (hreset : c.reset = false) :
    c.sent = c.arrived.map toupper ↔ c.short = false := by
  have hunread : c.unread = [] := by
    rcases hend with ⟨hunread, -⟩ | hrst
    · exact hunread
    · simp [hreset] at hrst
  rw [← h.whole, List.append_nil, arrived, hunread, List.append_nil]

end Conn

end NetworkPrograms.Sockets
