import NetworkPrograms.Foundations.Interleaving

/-!
# The inventory of requests

`test3.cpp` has a global `Inventory` of `Request` objects, each with a mutex of its own.
`threadFunc` makes a request, registers it and destroys it; both members lock the request
first and then the inventory. `main` calls `printAll`, which locks the inventory first and
then one request after the other.

Any number of threads run `threadFunc` beside `main`, in any interleaving. The order in
which the set of pointers is walked is that of their addresses, which may be any.
-/
namespace NetworkPrograms.Inventory

open Function Interleaving

/-- The two members in which a request locks itself and then the inventory. -/
inductive Member where
  | process
  | destructor
  deriving DecidableEq

/-- Before the lock of the request, before the lock of the inventory, before `insert` or
`erase`, before the end of either guard. -/
inductive Stage where
  | wantRequest
  | wantInventory
  | update
  | unlockInventory
  | unlockRequest
  deriving DecidableEq

/-- Where `threadFunc` is. After the destructor the request is freed. -/
inductive Thread where
  | within (member : Member) (stage : Stage)
  | done
  deriving DecidableEq

/-- `threadFunc` calls `process` and then `delete`. -/
def Member.after : Member → Thread
  | .process => .within .destructor .wantRequest
  | .destructor => .done

/-- Where `main` is: before the lock in `printAll`, in its loop with the requests that are
left, inside `print`, before `join`. -/
inductive Main (ι : Type*) where
  | wantInventory
  | next (todo : List ι)
  | print (req : ι) (todo : List ι)
  | join
  | done

/-- The owner of a mutex is `none`, the main thread, or the thread of `some` request. -/
structure Program (ι : Type*) where
  inventory : Option (Option ι) := none
  request : ι → Option (Option ι) := fun _ => none
  request_ : Finset ι := ∅
  thread : ι → Thread := fun _ => .within .process .wantRequest
  main : Main ι := .wantInventory

/-- A step of a thread, the start of the loop in `printAll` with the set as it is walked,
another step of the main thread. -/
inductive Input (ι : Type*) where
  | thread (req : ι)
  | printAll (todo : List ι)
  | main

namespace Program

variable {ι : Type*}

/-- A mutex is locked when it is free. -/
def Enabled (s : Program ι) : Input ι → Prop
  | .thread k => match s.thread k with
    | .within _ .wantRequest => s.request k = none
    | .within _ .wantInventory => s.inventory = none
    | .within _ _ => True
    | .done => False
  | .printAll todo => s.main = .wantInventory ∧ s.inventory = none ∧ todo.Nodup ∧
      ∀ k, k ∈ todo ↔ k ∈ s.request_
  | .main => match s.main with
    | .next (k :: _) => s.request k = none
    | .next [] | .print _ _ => True
    | .join => ∀ k, s.thread k = .done
    | .wantInventory | .done => False

variable [DecidableEq ι]

/-- `process` registers the request, the destructor removes it. -/
def updated (s : Program ι) (k : ι) : Member → Finset ι
  | .process => insert k s.request_
  | .destructor => s.request_.erase k

def threadNext (s : Program ι) (k : ι) : Program ι :=
  match s.thread k with
  | .within m .wantRequest =>
    { s with
      request := update s.request k (some (some k))
      thread := update s.thread k (.within m .wantInventory) }
  | .within m .wantInventory =>
    { s with inventory := some (some k), thread := update s.thread k (.within m .update) }
  | .within m .update =>
    { s with
      request_ := s.updated k m
      thread := update s.thread k (.within m .unlockInventory) }
  | .within m .unlockInventory =>
    { s with inventory := none, thread := update s.thread k (.within m .unlockRequest) }
  | .within m .unlockRequest =>
    { s with request := update s.request k none, thread := update s.thread k m.after }
  | .done => s

def mainNext (s : Program ι) : Program ι :=
  match s.main with
  | .next [] => { s with inventory := none, main := .join }
  | .next (k :: todo) =>
    { s with request := update s.request k (some none), main := .print k todo }
  | .print k todo => { s with request := update s.request k none, main := .next todo }
  | .join => { s with main := .done }
  | .wantInventory | .done => s

def next (s : Program ι) : Input ι → Program ι
  | .thread k => s.threadNext k
  | .printAll todo => { s with inventory := some none, main := .next todo }
  | .main => s.mainNext

def Reachable (s : Program ι) : Prop := Interleaving.Reachable next Enabled {} s

/-- All that an enabled step can do. -/
inductive Step (s : Program ι) : Program ι → Prop
  | lockRequest (k m) (at_ : s.thread k = .within m .wantRequest) (free : s.request k = none) :
      Step s { s with
        request := update s.request k (some (some k))
        thread := update s.thread k (.within m .wantInventory) }
  | lockInventory (k m) (at_ : s.thread k = .within m .wantInventory) (free : s.inventory = none) :
      Step s { s with
        inventory := some (some k)
        thread := update s.thread k (.within m .update) }
  | update (k m) (at_ : s.thread k = .within m .update) :
      Step s { s with
        request_ := s.updated k m
        thread := Function.update s.thread k (.within m .unlockInventory) }
  | unlockInventory (k m) (at_ : s.thread k = .within m .unlockInventory) :
      Step s { s with
        inventory := none
        thread := Function.update s.thread k (.within m .unlockRequest) }
  | unlockRequest (k m) (at_ : s.thread k = .within m .unlockRequest) :
      Step s { s with
        request := Function.update s.request k none
        thread := Function.update s.thread k m.after }
  | printAll (todo) (main : s.main = .wantInventory) (free : s.inventory = none)
      (nodup : todo.Nodup) (mem : ∀ k, k ∈ todo ↔ k ∈ s.request_) :
      Step s { s with inventory := some none, main := .next todo }
  | print (k todo) (main : s.main = .next (k :: todo)) (free : s.request k = none) :
      Step s { s with request := Function.update s.request k (some none), main := .print k todo }
  | printed (k todo) (main : s.main = .print k todo) :
      Step s { s with request := Function.update s.request k none, main := .next todo }
  | finish (main : s.main = .next []) : Step s { s with inventory := none, main := .join }
  | join (main : s.main = .join) (done : ∀ k, s.thread k = .done) : Step s { s with main := .done }

theorem next_step {s : Program ι} {i : Input ι} (hen : s.Enabled i) : Step s (s.next i) := by
  cases i with
  | printAll todo => exact .printAll todo hen.1 hen.2.1 hen.2.2.1 hen.2.2.2
  | main =>
    simp only [next, mainNext]
    cases hmain : s.main with
    | wantInventory => simp [Enabled, hmain] at hen
    | done => simp [Enabled, hmain] at hen
    | join =>
      simp only [Enabled, hmain] at hen
      exact .join hmain hen
    | print k todo => exact .printed k todo hmain
    | next todo =>
      cases todo with
      | nil => exact .finish hmain
      | cons k todo =>
        simp only [Enabled, hmain] at hen
        exact .print k todo hmain hen
  | thread k =>
    simp only [next, threadNext]
    cases hk : s.thread k with
    | done => simp [Enabled, hk] at hen
    | within m stage =>
      cases stage with
      | wantRequest =>
        simp only [Enabled, hk] at hen
        exact .lockRequest k m hk hen
      | wantInventory =>
        simp only [Enabled, hk] at hen
        exact .lockInventory k m hk hen
      | update => exact .update k m hk
      | unlockInventory => exact .unlockInventory k m hk
      | unlockRequest => exact .unlockRequest k m hk

end Program

/-! ## Who is inside -/

def Thread.holdsInventory : Thread → Bool
  | .within _ .update | .within _ .unlockInventory => true
  | _ => false

def Thread.holdsRequest : Thread → Bool
  | .within _ .wantRequest | .done => false
  | _ => true

def Thread.registered : Thread → Bool
  | .within .process .unlockInventory | .within .process .unlockRequest => true
  | .within .destructor .wantRequest | .within .destructor .wantInventory => true
  | .within .destructor .update => true
  | _ => false

namespace Main

variable {ι : Type*}

def holdsInventory : Main ι → Prop
  | .next _ | .print _ _ => True
  | _ => False

def holdsRequest (k : ι) : Main ι → Prop
  | .print req _ => req = k
  | _ => False

def pending : Main ι → List ι
  | .next todo => todo
  | .print req todo => req :: todo
  | _ => []

end Main

section
variable {ι : Type*}

def insideInventory (main : Main ι) (thread : ι → Thread) : Option ι → Prop
  | none => main.holdsInventory
  | some j => (thread j).holdsInventory = true

def insideRequest (main : Main ι) (thread : ι → Thread) (k : ι) : Option ι → Prop
  | none => main.holdsRequest k
  | some j => j = k ∧ (thread k).holdsRequest = true

theorem insideInventory_main (main main' : Main ι) (thread : ι → Thread) (j : Option ι)
    (hj : j ≠ none) : insideInventory main' thread j ↔ insideInventory main thread j := by
  cases j with
  | none => exact absurd rfl hj
  | some j => rfl

theorem insideRequest_main (main main' : Main ι) (thread : ι → Thread) (k : ι) (j : Option ι)
    (hj : j ≠ none) : insideRequest main' thread k j ↔ insideRequest main thread k j := by
  cases j with
  | none => exact absurd rfl hj
  | some j => rfl

/-- Both kinds of mutex are exclusive, the set has the requests that are registered, and
`printAll` goes to requests of the set only. -/
structure Program.Inv (s : Program ι) : Prop where
  inventory : Exclusive s.inventory (insideInventory s.main s.thread)
  request : ∀ k, Exclusive (s.request k) (insideRequest s.main s.thread k)
  members : ∀ k, k ∈ s.request_ ↔ (s.thread k).registered = true
  pending : ∀ k ∈ s.main.pending, k ∈ s.request_
  nodup : s.main.pending.Nodup

theorem Program.inv_init : Inv ({} : Program ι) where
  inventory := by
    rintro (_ | j) <;> simp [insideInventory, Main.holdsInventory, Thread.holdsInventory]
  request := by
    rintro k (_ | j) <;> simp [insideRequest, Main.holdsRequest, Thread.holdsRequest]
  members := by simp [Thread.registered]
  pending := by simp [Main.pending]
  nodup := by simp [Main.pending]

end

section
variable {ι : Type*} [DecidableEq ι] {main : Main ι} {thread : ι → Thread} {k : ι} {w : Thread}
variable {owner : Option (Option ι)} {request : ι → Option (Option ι)}

/-! ## What a step of a thread does to those inside -/

theorem insideInventory_update_of_ne (j : Option ι) (hj : j ≠ some k) :
    insideInventory main (update thread k w) j ↔ insideInventory main thread j := by
  cases j with
  | none => rfl
  | some j =>
    have hne : j ≠ k := fun heq => hj (congrArg some heq)
    simp [insideInventory, hne]

theorem insideInventory_stay (h : Exclusive owner (insideInventory main thread))
    (hw : w.holdsInventory = (thread k).holdsInventory) :
    Exclusive owner (insideInventory main (update thread k w)) := by
  apply h.stay
  intro j
  by_cases hj : j = some k
  · subst hj
    simp [insideInventory, hw]
  · exact insideInventory_update_of_ne j hj

theorem insideInventory_enter (h : Exclusive none (insideInventory main thread))
    (hw : w.holdsInventory = true) :
    Exclusive (some (some k)) (insideInventory main (update thread k w)) := by
  apply h.enter
  · simp [insideInventory, hw]
  · exact insideInventory_update_of_ne

theorem insideInventory_leave (h : Exclusive owner (insideInventory main thread))
    (hk : (thread k).holdsInventory = true) (hw : w.holdsInventory = false) :
    Exclusive none (insideInventory main (update thread k w)) := by
  apply h.leave (t := some k) hk
  · simp [insideInventory, hw]
  · exact insideInventory_update_of_ne

theorem insideRequest_update (h : ∀ j, Exclusive (request j) (insideRequest main thread j))
    (hk : Exclusive owner (insideRequest main (update thread k w) k)) (j : ι) :
    Exclusive (update request k owner j) (insideRequest main (update thread k w) j) := by
  by_cases hj : j = k
  · subst hj
    rw [update_self]
    exact hk
  · rw [update_of_ne hj]
    apply (h j).stay
    rintro (_ | i)
    · rfl
    · simp [insideRequest, hj]

theorem insideRequest_stay (h : ∀ j, Exclusive (request j) (insideRequest main thread j))
    (hw : w.holdsRequest = (thread k).holdsRequest) (j : ι) :
    Exclusive (request j) (insideRequest main (update thread k w) j) := by
  apply (h j).stay
  rintro (_ | i)
  · rfl
  · by_cases hj : j = k
    · subst hj
      simp [insideRequest, hw]
    · simp [insideRequest, hj]

theorem insideRequest_enter (h : ∀ j, Exclusive (request j) (insideRequest main thread j))
    (hfree : request k = none) (hw : w.holdsRequest = true) (j : ι) :
    Exclusive (update request k (some (some k)) j) (insideRequest main (update thread k w) j) := by
  have hk := h k
  rw [hfree] at hk
  apply insideRequest_update h
  apply hk.enter
  · simp [insideRequest, hw]
  · rintro (_ | i) hi
    · rfl
    · have hne : i ≠ k := fun heq => hi (congrArg some heq)
      simp [insideRequest, hne]

theorem insideRequest_leave (h : ∀ j, Exclusive (request j) (insideRequest main thread j))
    (hk : (thread k).holdsRequest = true) (hw : w.holdsRequest = false) (j : ι) :
    Exclusive (update request k none j) (insideRequest main (update thread k w) j) := by
  apply insideRequest_update h
  apply (h k).leave (t := some k) ⟨rfl, hk⟩
  · simp [insideRequest, hw]
  · rintro (_ | i) hi
    · rfl
    · have hne : i ≠ k := fun heq => hi (congrArg some heq)
      simp [insideRequest, hne]

/-! ## What a step of `main` does to them -/

theorem insideRequest_print (h : ∀ j, Exclusive (request j) (insideRequest main thread j))
    (hmain : ∀ j, ¬ main.holdsRequest j) (hfree : request k = none) (todo : List ι) (j : ι) :
    Exclusive (update request k (some none) j) (insideRequest (.print k todo) thread j) := by
  have hj := h j
  by_cases hk : j = k
  · subst hk
    rw [hfree] at hj
    rw [update_self]
    apply hj.enter
    · exact rfl
    · exact insideRequest_main main _ thread j
  · rw [update_of_ne hk]
    apply hj.stay
    rintro (_ | i)
    · exact iff_of_false (Ne.symm hk) (hmain j)
    · rfl

theorem insideRequest_printed {todo : List ι}
    (h : ∀ j, Exclusive (request j) (insideRequest (.print k todo) thread j)) (j : ι) :
    Exclusive (update request k none j) (insideRequest (.next todo) thread j) := by
  by_cases hk : j = k
  · subst hk
    rw [update_self]
    apply (h j).leave (t := none)
    · exact rfl
    · exact id
    · exact insideRequest_main _ _ thread j
  · rw [update_of_ne hk]
    apply (h j).stay
    rintro (_ | i)
    · exact iff_of_false id (Ne.symm hk)
    · rfl

end

namespace Program

variable {ι : Type*} {s : Program ι} {k : ι}

theorem main_outside (h : Exclusive s.inventory (insideInventory s.main s.thread))
    (hk : (s.thread k).holdsInventory = true) : ¬ s.main.holdsInventory := by
  intro hmain
  cases h.eq (t := none) (u := some k) hmain hk

theorem pending_nil (h : Exclusive s.inventory (insideInventory s.main s.thread))
    (hk : (s.thread k).holdsInventory = true) : s.main.pending = [] := by
  have hout := main_outside h hk
  cases hmain : s.main with
  | next todo => simp [hmain, Main.holdsInventory] at hout
  | print req todo => simp [hmain, Main.holdsInventory] at hout
  | _ => rfl

variable [DecidableEq ι]

theorem registered_stay (h : ∀ k, k ∈ s.request_ ↔ (s.thread k).registered = true) {w : Thread}
    (hw : w.registered = (s.thread k).registered) (j : ι) :
    j ∈ s.request_ ↔ (update s.thread k w j).registered = true := by
  rw [h]
  by_cases hj : j = k
  · subst hj
    rw [update_self, hw]
  · rw [update_of_ne hj]

theorem mem_updated (h : ∀ k, k ∈ s.request_ ↔ (s.thread k).registered = true) (m : Member)
    (j : ι) :
    j ∈ s.updated k m ↔ (update s.thread k (.within m .unlockInventory) j).registered = true := by
  by_cases hj : j = k
  · subst hj
    cases m <;> simp [updated, Thread.registered]
  · rw [update_of_ne hj, ← h]
    cases m <;> simp [updated, hj]

theorem Inv.step (h : Inv s) {t : Program ι} (hstep : Step s t) : Inv t := by
  obtain ⟨hinv, hreq, hmembers, hpending, hnodup⟩ := h
  cases hstep with
  | lockRequest k m hk hfree =>
    refine ⟨insideInventory_stay hinv ?_, insideRequest_enter hreq hfree rfl,
      registered_stay hmembers ?_, hpending, hnodup⟩
    · simp [hk, Thread.holdsInventory]
    · cases m <;> simp [hk, Thread.registered]
  | lockInventory k m hk hfree =>
    rw [hfree] at hinv
    refine ⟨insideInventory_enter hinv rfl, insideRequest_stay hreq ?_,
      registered_stay hmembers ?_, hpending, hnodup⟩
    · simp [hk, Thread.holdsRequest]
    · cases m <;> simp [hk, Thread.registered]
  | update k m hk =>
    have hnil : s.main.pending = [] :=
      pending_nil hinv (k := k) (by simp [hk, Thread.holdsInventory])
    refine ⟨insideInventory_stay hinv ?_, insideRequest_stay hreq ?_, mem_updated hmembers m, ?_,
      hnodup⟩
    · simp [hk, Thread.holdsInventory]
    · simp [hk, Thread.holdsRequest]
    · simp [hnil]
  | unlockInventory k m hk =>
    refine ⟨insideInventory_leave hinv ?_ rfl, insideRequest_stay hreq ?_,
      registered_stay hmembers ?_, hpending, hnodup⟩
    · simp [hk, Thread.holdsInventory]
    · simp [hk, Thread.holdsRequest]
    · cases m <;> simp [hk, Thread.registered]
  | unlockRequest k m hk =>
    refine ⟨insideInventory_stay hinv ?_, insideRequest_leave hreq ?_ ?_,
      registered_stay hmembers ?_, hpending, hnodup⟩
    · cases m <;> simp [hk, Member.after, Thread.holdsInventory]
    · simp [hk, Thread.holdsRequest]
    · cases m <;> rfl
    · cases m <;> simp [hk, Member.after, Thread.registered]
  | printAll todo hmain hfree hnodup htodo =>
    rw [hfree] at hinv
    rw [hmain] at hinv hreq
    refine ⟨?_, fun k => (hreq k).stay ?_, hmembers, fun k => (htodo k).mp, hnodup⟩
    · apply hinv.enter
      · exact trivial
      · exact insideInventory_main _ _ s.thread
    · rintro (_ | j) <;> rfl
  | print k todo hmain hfree =>
    rw [hmain] at hinv hreq hpending hnodup
    refine ⟨hinv.stay ?_, insideRequest_print hreq (fun _ => id) hfree todo, hmembers, hpending,
      hnodup⟩
    rintro (_ | j) <;> rfl
  | printed k todo hmain =>
    rw [hmain] at hinv hreq hpending hnodup
    refine ⟨hinv.stay ?_, insideRequest_printed hreq, hmembers, ?_, hnodup.of_cons⟩
    · rintro (_ | j) <;> rfl
    · intro j hj
      exact hpending j (List.mem_cons_of_mem k hj)
  | finish hmain =>
    rw [hmain] at hinv hreq
    refine ⟨?_, fun k => (hreq k).stay ?_, hmembers, by simp [Main.pending],
      by simp [Main.pending]⟩
    · apply hinv.leave (t := none)
      · exact trivial
      · exact id
      · exact insideInventory_main _ _ s.thread
    · rintro (_ | j) <;> rfl
  | join hmain _ =>
    rw [hmain] at hinv hreq
    refine ⟨hinv.stay ?_, fun k => (hreq k).stay ?_, hmembers, by simp [Main.pending],
      by simp [Main.pending]⟩
    · rintro (_ | j) <;> rfl
    · rintro (_ | j) <;> rfl

theorem Reachable.inv (h : s.Reachable) : Inv s := by
  apply Interleaving.Reachable.invariant h Inv inv_init
  intro s i hinv hen
  exact hinv.step (next_step hen)

theorem Inv.request_step (h : Inv s) {t : Program ι} (hstep : Step s t)
    (hmain : s.main.holdsInventory) : t.request_ = s.request_ := by
  cases hstep with
  | update k m hk =>
    have hin : (s.thread k).holdsInventory = true := by simp [hk, Thread.holdsInventory]
    exact absurd hmain (main_outside h.inventory hin)
  | _ => rfl

end Program

open Program in
/-- While `printAll` walks the set, the set stays as it is, so that the iterator is valid, and
the requests that it has still to print are registered, so that none of them is freed. -/
theorem printed_requests_alive {ι : Type*} [DecidableEq ι] {s : Program ι} (h : s.Reachable) :
    (∀ k ∈ s.main.pending, k ∈ s.request_ ∧ s.thread k ≠ .done) ∧
      (s.main.holdsInventory → ∀ i, s.Enabled i → (s.next i).request_ = s.request_) := by
  have hinv := h.inv
  constructor
  · intro k hk
    have hmem := hinv.pending k hk
    refine ⟨hmem, ?_⟩
    intro hdone
    rw [hinv.members, hdone] at hmem
    cases hmem
  · intro hmain i hen
    exact hinv.request_step (next_step hen) hmain

open Program in
theorem printed_requests_alive_one : ∃ s : Program (Fin 1), s.Reachable ∧ s.main.pending = [0] ∧
    0 ∈ s.request_ ∧ s.thread 0 ≠ .done := by
  have hreach : Program.Reachable (ι := Fin 1) _ := Interleaving.Reachable.foldl .init
    [.thread 0, .thread 0, .thread 0, .thread 0, .thread 0, .printAll [0]]
    (by refine ⟨rfl, rfl, trivial, trivial, trivial, ⟨rfl, rfl, by decide, by decide⟩, trivial⟩)
  exact ⟨_, hreach, rfl, (printed_requests_alive hreach).1 0 (List.mem_singleton.mpr rfl)⟩

/-! ## The end of the program -/

def Stage.left : Stage → ℕ
  | .wantRequest => 5
  | .wantInventory => 4
  | .update => 3
  | .unlockInventory => 2
  | .unlockRequest => 1

/-- The number of statements that a thread has before it. -/
def Thread.left : Thread → ℕ
  | .within .process stage => 5 + stage.left
  | .within .destructor stage => stage.left
  | .done => 0

/-- The number of statements that `main` has before it, where the set has at most `n`
requests. -/
def Main.left {ι : Type*} (n : ℕ) : Main ι → ℕ
  | .wantInventory => 2 * n + 3
  | .next todo => 2 * todo.length + 2
  | .print _ todo => 2 * todo.length + 3
  | .join => 1
  | .done => 0

namespace Program

variable {ι : Type*} {s : Program ι} {k : ι}

def left [Fintype ι] (s : Program ι) : ℕ :=
  ∑ k, (s.thread k).left + s.main.left (Fintype.card ι)

def Finished (s : Program ι) : Prop := s.main = .done ∧ ∀ k, s.thread k = .done

/-- `main` holds the inventory and waits for the request, whose thread holds it and waits for
the inventory. -/
structure Crossed (s : Program ι) (k : ι) : Prop where
  main : ∃ todo, s.main = .next (k :: todo)
  thread : ∃ m, s.thread k = .within m .wantInventory
  inventory : s.inventory = some none
  request : s.request k = some (some k)

theorem waits_of_stuck (hstuck : ¬ s.Enabled (.thread k)) :
    s.thread k = .done ∨ (∃ m, s.thread k = .within m .wantRequest ∧ s.request k ≠ none) ∨
      ∃ m, s.thread k = .within m .wantInventory ∧ s.inventory ≠ none := by
  cases hk : s.thread k with
  | done => exact .inl rfl
  | within m stage =>
    cases stage with
    | wantRequest =>
      refine .inr (.inl ⟨m, rfl, ?_⟩)
      simpa [Enabled, hk] using hstuck
    | wantInventory =>
      refine .inr (.inr ⟨m, rfl, ?_⟩)
      simpa [Enabled, hk] using hstuck
    | update => simp [Enabled, hk] at hstuck
    | unlockInventory => simp [Enabled, hk] at hstuck
    | unlockRequest => simp [Enabled, hk] at hstuck

theorem Inv.print_of_wantRequest (h : Inv s) {m : Member}
    (hk : s.thread k = .within m .wantRequest) (htaken : s.request k ≠ none) :
    ∃ todo, s.main = .print k todo := by
  obtain ⟨owner, howner⟩ := Option.ne_none_iff_exists'.mp htaken
  have hin := (h.request k owner).mp howner
  cases owner with
  | some j => simp [insideRequest, hk, Thread.holdsRequest] at hin
  | none =>
    cases hmain : s.main with
    | print req todo =>
      rw [hmain] at hin
      cases hin
      exact ⟨todo, rfl⟩
    | _ => simp [insideRequest, hmain, Main.holdsRequest] at hin

/-- Where no step is possible, the program has ended, or `main` and a thread wait for each
other. -/
theorem Inv.of_stuck (h : Inv s) (hstuck : ∀ i, ¬ s.Enabled i) :
    s.Finished ∨ ∃ k, s.Crossed k := by
  have hprint : ∀ k todo, s.main ≠ .print k todo := by
    intro k todo hmain
    exact hstuck .main (by simp [Enabled, hmain])
  cases hinv : s.inventory with
  | none =>
    have hout : ¬ s.main.holdsInventory := by
      intro hmain
      have howner := (h.inventory none).mpr hmain
      rw [hinv] at howner
      cases howner
    have hdone : ∀ k, s.thread k = .done := by
      intro k
      rcases waits_of_stuck (hstuck (.thread k)) with hk | ⟨m, hk, htaken⟩ | ⟨m, -, htaken⟩
      · exact hk
      · obtain ⟨todo, hmain⟩ := h.print_of_wantRequest hk htaken
        exact absurd hmain (hprint k todo)
      · exact absurd hinv htaken
    refine .inl ⟨?_, hdone⟩
    cases hmain : s.main with
    | wantInventory =>
      exfalso
      apply hstuck (.printAll s.request_.toList)
      exact ⟨hmain, hinv, s.request_.nodup_toList, by simp⟩
    | next todo => simp [hmain, Main.holdsInventory] at hout
    | print k todo => exact absurd hmain (hprint k todo)
    | join => exact absurd hdone (by simpa [Enabled, hmain] using hstuck .main)
    | done => rfl
  | some owner =>
    have hin := (h.inventory owner).mp hinv
    cases owner with
    | some k =>
      rcases waits_of_stuck (hstuck (.thread k)) with hk | ⟨m, hk, -⟩ | ⟨m, hk, -⟩ <;>
        simp [insideInventory, hk, Thread.holdsInventory] at hin
    | none =>
      cases hmain : s.main with
      | next todo =>
        cases todo with
        | nil => exact absurd trivial (by simpa [Enabled, hmain] using hstuck .main)
        | cons k todo =>
          have htaken : s.request k ≠ none := by simpa [Enabled, hmain] using hstuck .main
          obtain ⟨owner, howner⟩ := Option.ne_none_iff_exists'.mp htaken
          have hin := (h.request k owner).mp howner
          cases owner with
          | none => simp [insideRequest, hmain, Main.holdsRequest] at hin
          | some j =>
            obtain ⟨rfl, hholds⟩ := hin
            refine .inr ⟨j, ⟨todo, hmain⟩, ?_, hinv, howner⟩
            rcases waits_of_stuck (hstuck (.thread j)) with hj | ⟨m, hj, -⟩ | ⟨m, hj, -⟩
            · simp [hj, Thread.holdsRequest] at hholds
            · simp [hj, Thread.holdsRequest] at hholds
            · exact ⟨m, hj⟩
      | print k todo => exact absurd hmain (hprint k todo)
      | _ => simp [insideInventory, hmain, Main.holdsInventory] at hin

variable [DecidableEq ι]

theorem Crossed.step (hc : s.Crossed k) (h : Inv s) {t : Program ι} (hstep : Step s t) :
    t.Crossed k := by
  obtain ⟨⟨todo, hmain⟩, ⟨m, hthread⟩, hinv, hreq⟩ := hc
  have hin : s.main.holdsInventory := (h.inventory none).mp hinv
  -- a step of another thread that does not hold the inventory
  have hother : ∀ {j : ι} {w : Thread} {o : Option (Option ι)}, j ≠ k →
      Crossed { s with request := update s.request j o, thread := update s.thread j w } k := by
    intro j w o hj
    exact ⟨⟨todo, hmain⟩, ⟨m, by simp [Ne.symm hj, hthread]⟩, hinv, by simp [Ne.symm hj, hreq]⟩
  cases hstep with
  | lockRequest j m' hj _ =>
    apply hother
    rintro rfl
    rw [hthread] at hj
    cases hj
  | lockInventory j m' hj hfree =>
    rw [hinv] at hfree
    cases hfree
  | update j m' hj =>
    exact absurd hin (main_outside h.inventory (k := j) (by simp [hj, Thread.holdsInventory]))
  | unlockInventory j m' hj =>
    exact absurd hin (main_outside h.inventory (k := j) (by simp [hj, Thread.holdsInventory]))
  | unlockRequest j m' hj =>
    apply hother
    rintro rfl
    rw [hthread] at hj
    cases hj
  | printAll _ hmain' =>
    rw [hmain] at hmain'
    cases hmain'
  | print j todo' hmain' hfree =>
    rw [hmain] at hmain'
    cases hmain'
    rw [hreq] at hfree
    cases hfree
  | printed j todo' hmain' =>
    rw [hmain] at hmain'
    cases hmain'
  | finish hmain' =>
    rw [hmain] at hmain'
    cases hmain'
  | join hmain' =>
    rw [hmain] at hmain'
    cases hmain'

theorem Crossed.forever (hc : s.Crossed k) (h : Inv s) {t : Program ι}
    (ht : Interleaving.Reachable Program.next Enabled s t) : t.Crossed k := by
  have hboth : Inv t ∧ t.Crossed k := by
    apply ht.invariant fun t => Inv t ∧ t.Crossed k
    · exact ⟨h, hc⟩
    · rintro t i ⟨hinv, hcrossed⟩ hen
      exact ⟨hinv.step (next_step hen), hcrossed.step hinv (next_step hen)⟩
  exact hboth.2

variable [Fintype ι]

theorem sum_left_update {thread : ι → Thread} {w : Thread} (hw : w.left < (thread k).left) :
    ∑ j, (update thread k w j).left < ∑ j, (thread j).left := by
  apply Finset.sum_lt_sum
  · intro j _
    by_cases hj : j = k
    · subst hj
      simpa using hw.le
    · simp [hj]
  · exact ⟨k, Finset.mem_univ k, by simpa using hw⟩

theorem left_step {t : Program ι} (hstep : Step s t) : t.left < s.left := by
  unfold left
  have hthread : ∀ {k : ι} {w : Thread}, w.left < (s.thread k).left →
      ∑ j, (update s.thread k w j).left + s.main.left (Fintype.card ι) <
        ∑ j, (s.thread j).left + s.main.left (Fintype.card ι) := by
    intro k w hw
    exact Nat.add_lt_add_right (sum_left_update hw) _
  cases hstep with
  | lockRequest k m hk => exact hthread (by cases m <;> simp [hk, Thread.left, Stage.left])
  | lockInventory k m hk => exact hthread (by cases m <;> simp [hk, Thread.left, Stage.left])
  | update k m hk => exact hthread (by cases m <;> simp [hk, Thread.left, Stage.left])
  | unlockInventory k m hk => exact hthread (by cases m <;> simp [hk, Thread.left, Stage.left])
  | unlockRequest k m hk =>
    exact hthread (by cases m <;> simp [hk, Member.after, Thread.left, Stage.left])
  | printAll todo hmain _ hnodup _ =>
    have hlen := hnodup.length_le_card
    simp only [hmain, Main.left]
    omega
  | print k todo hmain =>
    simp only [hmain, Main.left, List.length_cons]
    omega
  | printed k todo hmain => simp [hmain, Main.left]
  | finish hmain => simp [hmain, Main.left]
  | join hmain => simp [hmain, Main.left]

end Program

open Program in
/-- Every run ends, since each step leaves fewer statements. It ends with all threads
finished, or with `main` and a thread that wait for each other; two that do so wait for
ever. -/
theorem ends_or_crossed {ι : Type*} [DecidableEq ι] [Fintype ι] {s : Program ι}
    (h : s.Reachable) :
    (∀ i, s.Enabled i → (s.next i).left < s.left) ∧
    ((∀ i, ¬ s.Enabled i) → s.Finished ∨ ∃ k, s.Crossed k) ∧
    (∀ k, s.Crossed k → ∀ t, Interleaving.Reachable next Enabled s t →
      t.Crossed k ∧ ¬ t.Finished) := by
  refine ⟨fun i hen => left_step (next_step hen), h.inv.of_stuck, ?_⟩
  intro k hc t ht
  have hcrossed := hc.forever h.inv ht
  refine ⟨hcrossed, ?_⟩
  intro hfinished
  obtain ⟨todo, hmain⟩ := hcrossed.main
  rw [hfinished.1] at hmain
  cases hmain

open Program in
/-- The one thread of the program registers its request and starts to destroy it; then `main`
starts to print. -/
theorem ends_or_crossed_destructor : ∃ s : Program (Fin 1), s.Reachable ∧ s.Crossed 0 ∧
    ∀ t, Interleaving.Reachable next Enabled s t → ¬ t.Finished := by
  have hreach : Program.Reachable (ι := Fin 1) _ := Interleaving.Reachable.foldl .init
    [.thread 0, .thread 0, .thread 0, .thread 0, .thread 0, .thread 0, .printAll [0]]
    (by
      refine ⟨rfl, rfl, trivial, trivial, trivial, rfl, ⟨rfl, rfl, by decide, by decide⟩, trivial⟩)
  refine ⟨_, hreach, ⟨⟨[], rfl⟩, ⟨.destructor, rfl⟩, rfl, rfl⟩, ?_⟩
  intro t ht
  exact ((ends_or_crossed hreach).2.2 0 ⟨⟨[], rfl⟩, ⟨.destructor, rfl⟩, rfl, rfl⟩ t ht).2

end NetworkPrograms.Inventory
