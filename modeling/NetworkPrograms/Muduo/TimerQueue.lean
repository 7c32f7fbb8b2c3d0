import Mathlib.Data.Prod.Lex
import Mathlib.Tactic
import NetworkPrograms.Foundations.OrderedSet

/-!
# The expired timers

The queue of `TimerQueue.cc` keeps its timers in a set of pairs of a time and a
pointer. The expired ones are those before a pair of the current time and the
greatest pointer, which stands behind every timer of that time.
-/
namespace NetworkPrograms.Muduo

open Foundations

abbrev TimerPtr := Fin (2 ^ 64)

def UINTPTR_MAX : TimerPtr := Fin.last _

/-- A time and a timer, in the order of `std::pair`. Of the library's `Timestamp`
only the order is used. -/
abbrev Entry (Timestamp : Type*) := Timestamp ×ₗ TimerPtr

abbrev TimerList (Timestamp : Type*) [LinearOrder Timestamp] := OrderedSet (Entry Timestamp)

variable {Timestamp : Type*}

def Entry.first (e : Entry Timestamp) : Timestamp := (ofLex e).1

def Entry.second (e : Entry Timestamp) : TimerPtr := (ofLex e).2

def sentry (now : Timestamp) : Entry Timestamp := toLex (now, UINTPTR_MAX)

@[simp] theorem sentry_first (now : Timestamp) : (sentry now).first = now := rfl

variable [LinearOrder Timestamp]

/-- `TimerQueue::getExpired`; no result when the `assert` fails. -/
def getExpired (timers_ : TimerList Timestamp) (now : Timestamp) :
    Option (List (Entry Timestamp)) :=
  let it := timers_.lowerBound (sentry now)
  if (timers_.at? it).all (fun e => now < e.first) then some (timers_.upTo it) else none

variable {timers_ : TimerList Timestamp} {now : Timestamp} {e : Entry Timestamp}

theorem le_sentry_iff : e ≤ sentry now ↔ e.first ≤ now := by
  rw [Prod.Lex.le_iff]
  constructor
  · rintro (hlt | ⟨heq, -⟩)
    · exact hlt.le
    · exact heq.le
  · intro hle
    rcases hle.lt_or_eq with hlt | heq
    · exact .inl hlt
    · exact .inr ⟨heq, Fin.le_last _⟩

theorem sentry_lt_iff : sentry now < e ↔ now < e.first := by
  rw [← not_le, le_sentry_iff, not_le]

theorem getExpired_of_notMem (h : sentry now ∉ timers_) :
    getExpired timers_ now = some (timers_.upTo (timers_.lowerBound (sentry now))) := by
  rw [getExpired, if_pos]
  rw [Option.all_eq_true]
  intro e he
  obtain ⟨hmem, hle⟩ := timers_.at?_lowerBound he
  have hne : sentry now ≠ e := by
    rintro rfl
    exact h hmem
  exact decide_eq_true (sentry_lt_iff.mp (hle.lt_of_ne hne))

/-- The `assert` fails exactly when a timer of the current time has the greatest
pointer. -/
theorem getExpired_eq_none_iff : getExpired timers_ now = none ↔ sentry now ∈ timers_ := by
  constructor
  · intro hnone
    by_contra h
    rw [getExpired_of_notMem h] at hnone
    cases hnone
  · intro h
    rw [getExpired, timers_.at?_lowerBound_of_mem h, if_neg]
    simp

/-- If no timer has the greatest pointer, the `assert` holds and the result lists
the timers that are not later than now, each once and in ascending order. -/
theorem getExpired_exact (timers_ : TimerList Timestamp) (now : Timestamp)
    (hptr : ∀ e ∈ timers_, e.second ≠ UINTPTR_MAX) :
    ∃ expired, getExpired timers_ now = some expired ∧
      (∀ e, e ∈ expired ↔ e ∈ timers_ ∧ e.first ≤ now) ∧ expired.Pairwise (· < ·) := by
  have hne : ∀ e ∈ timers_, e ≠ sentry now := by
    rintro e he rfl
    exact hptr _ he rfl
  have hnone : sentry now ∉ timers_ := fun h => hne _ h rfl
  refine ⟨_, getExpired_of_notMem hnone, ?_, timers_.upTo_sorted _⟩
  intro e
  rw [timers_.mem_upTo_lowerBound]
  constructor
  · rintro ⟨he, hlt⟩
    exact ⟨he, le_sentry_iff.mp hlt.le⟩
  · rintro ⟨he, hle⟩
    exact ⟨he, (le_sentry_iff.mpr hle).lt_of_ne (hne e he)⟩

/-- Timers before, at and after the time 5, two of them at it. -/
def ties : TimerList ℤ :=
  ⟨[toLex (3, 9), toLex (5, 1), toLex (5, 2), toLex (6, 0)], by decide⟩

theorem getExpired_exact_ties :
    getExpired ties 5 = some [toLex (3, 9), toLex (5, 1), toLex (5, 2)] ∧
      ∀ e : Entry ℤ, e ∈ [toLex (3, 9), toLex (5, 1), toLex (5, 2)] ↔
        e ∈ ties ∧ e.first ≤ 5 := by
  have hptr : ∀ e ∈ ties.toList, e.second ≠ UINTPTR_MAX := by decide
  obtain ⟨expired, hres, hmem, -⟩ := getExpired_exact ties 5 hptr
  have heval : getExpired ties 5 = some [toLex (3, 9), toLex (5, 1), toLex (5, 2)] := by decide
  rw [heval] at hres
  cases hres
  exact ⟨heval, hmem⟩

end NetworkPrograms.Muduo
