import NetworkPrograms.Foundations.Memory
import NetworkPrograms.Foundations.Runs

/-!
# The object pool

`StockFactory` of `test2.cpp` keeps a map from keys to weak references, so that
two calls of `get` with one key can share a `Stock`. The last handle to an object
is dropped at one time and its deleter runs at a later one; `get` and the removal
from the map run under the mutex and are single steps.

`get` looks into the map but stores nothing there, so every call makes an object.
Its value is the handle it holds at its end.
-/
namespace NetworkPrograms.Threads

open Function

/-- The objects that exist with their keys, the number of handles to each, the map
of weak references, and whether a handle to the factory is alive. -/
structure StockFactory where
  heap : Heap Bytes := .empty
  handles : ℕ → ℕ := fun _ => 0
  stock_ : Bytes → Option (Option ℕ) := fun _ => none
  alive : Bool := true

/-- What the threads do to the pool: a call of `get`, a copy of a handle, the end
of a handle, the run of a deleter, the end of the last handle to the factory. -/
inductive Action where
  | get (key : Bytes)
  | copy (stock : ℕ)
  | drop (stock : ℕ)
  | deleter (stock : ℕ)
  | dropFactory
  deriving DecidableEq

namespace StockFactory

variable (s : StockFactory)

def lock (wkStock : Option ℕ) : Option ℕ := wkStock.filter fun p => 0 < s.handles p

/-- `stock_[key]` makes an empty entry for a new key. -/
def get (key : Bytes) : ℕ × StockFactory :=
  let wkStock := (s.stock_ key).getD none
  let s := { s with stock_ := update s.stock_ key (some wkStock) }
  match s.lock wkStock with
  | some pStock => (pStock, { s with handles := update s.handles pStock (s.handles pStock + 1) })
  | none =>
    let (pStock, heap) := s.heap.alloc key
    (pStock, { s with heap := heap, handles := update s.handles pStock 1 })

def removeStock (stock : Option ℕ) : Except Fault StockFactory :=
  if stock.isSome then do
    let key ← s.heap.load stock
    .ok { s with stock_ := update s.stock_ key none }
  else .ok s

/-- The deleter of an object: the factory may be gone by then. -/
def weakDeleteCallback (stock : Option ℕ) : Except Fault StockFactory := do
  let s ← if s.alive then s.removeStock stock else .ok s
  let heap ← s.heap.delete stock
  .ok { s with heap := heap }

def step : Action → Except Fault StockFactory
  | .get key => .ok (s.get key).2
  | .copy p => .ok { s with handles := update s.handles p (s.handles p + 1) }
  | .drop p => .ok { s with handles := update s.handles p (s.handles p - 1) }
  | .deleter p => s.weakDeleteCallback (some p)
  | .dropFactory => .ok { s with alive := false }

/-- `get` is called on a factory that exists, a handle is copied or dropped while
it is alive, and the deleter of an object runs once, after its last handle. -/
def Enabled : Action → Prop
  | .get _ => s.alive = true
  | .copy p => 0 < s.handles p
  | .drop p => 0 < s.handles p
  | .deleter p => s.handles p = 0 ∧ (s.heap.cells p).isSome = true
  | .dropFactory => s.alive = true

instance : DecidablePred s.Enabled
  | .get _ => inferInstanceAs (Decidable (_ = _))
  | .copy _ => inferInstanceAs (Decidable (_ < _))
  | .drop _ => inferInstanceAs (Decidable (_ < _))
  | .deleter _ => inferInstanceAs (Decidable (_ ∧ _))
  | .dropFactory => inferInstanceAs (Decidable (_ = _))

/-- Some handle to the object is alive, and the object has the key. -/
def Live (key : Bytes) (p : ℕ) : Prop := 0 < s.handles p ∧ s.heap.cells p = some key

/-- At most one object with a key has handles. -/
def Unique : Prop := ∀ key p q, s.Live key p → s.Live key q → p = q

/-- A call of `get` while a handle for its key is alive gives that object. -/
def Shares : Action → Prop
  | .get key => ∀ p, s.Live key p → (s.get key).1 = p
  | _ => True

/-- `get` is called only when no handle for its key is alive. -/
def Alone : Action → Prop
  | .get key => ∀ p, ¬ s.Live key p
  | _ => True

/-! ## The map never refers to an object -/

/-- Objects sit below the next address, an object with handles exists, and the
references in the map are empty. -/
structure Inv (s : StockFactory) : Prop where
  bounded : s.heap.Bounded
  exists_of_handle : ∀ p, 0 < s.handles p → (s.heap.cells p).isSome = true
  empty : ∀ key w, s.stock_ key = some w → w = none

theorem inv_init : Inv {} where
  bounded := Heap.bounded_empty
  exists_of_handle := by simp
  empty := by simp

variable {s}

theorem Inv.get_eq (h : s.Inv) (key : Bytes) :
    s.get key = (s.heap.next, { s with
      heap := (s.heap.alloc key).2
      handles := update s.handles s.heap.next 1
      stock_ := update s.stock_ key (some none) }) := by
  have hnone : (s.stock_ key).getD none = none := by
    cases hk : s.stock_ key with
    | none => rfl
    | some w => exact h.empty key w hk
  simp only [StockFactory.get, hnone]
  rfl

theorem Inv.handles_next (h : s.Inv) : s.handles s.heap.next = 0 := by
  by_contra hne
  have hlt := h.bounded _ (h.exists_of_handle _ (Nat.pos_of_ne_zero hne))
  exact lt_irrefl _ hlt

theorem handles_of_update {p q n : ℕ} (hp : 0 < s.handles p)
    (hq : 0 < update s.handles p n q) : 0 < s.handles q := by
  by_cases hqp : q = p
  · rw [hqp]
    exact hp
  · simpa [hqp] using hq

theorem Inv.of_handles (h : s.Inv) {handles : ℕ → ℕ}
    (hsub : ∀ p, 0 < handles p → 0 < s.handles p) : Inv { s with handles := handles } where
  bounded := h.bounded
  exists_of_handle := fun p hp => h.exists_of_handle p (hsub p hp)
  empty := h.empty

theorem Inv.get (h : s.Inv) (key : Bytes) : (s.get key).2.Inv := by
  rw [h.get_eq]
  constructor
  · exact h.bounded.alloc key
  · intro p hp
    by_cases hnext : p = s.heap.next
    · simp [Heap.alloc, hnext]
    · simp only [update_of_ne hnext] at hp
      simpa [Heap.alloc, hnext] using h.exists_of_handle p hp
  · intro k w hw
    by_cases hk : k = key
    · subst hk
      simpa using hw.symm
    · exact h.empty k w (by simpa [hk] using hw)

/-- The deleter of an object without handles removes the object, and at most an
entry of the map. -/
theorem Inv.weakDeleteCallback (h : s.Inv) {p : ℕ} (hp : s.handles p = 0)
    (hlive : (s.heap.cells p).isSome = true) :
    ∃ t, s.weakDeleteCallback (some p) = .ok t ∧ t.Inv ∧ t.handles = s.handles ∧
      t.heap.cells = update s.heap.cells p none := by
  obtain ⟨key, hkey⟩ := Option.isSome_iff_exists.mp hlive
  have hother : ∀ stock_ : Bytes → Option (Option ℕ), (∀ k w, stock_ k = some w → w = none) →
      Inv { s with
        stock_ := stock_
        heap := { s.heap with cells := update s.heap.cells p none } } := by
    intro stock_ hempty
    refine ⟨h.bounded.of_update hkey rfl rfl, ?_, hempty⟩
    intro q hq
    have hne : q ≠ p := by
      rintro rfl
      exact absurd hp hq.ne'
    simpa [hne] using h.exists_of_handle q hq
  have hdelete := Heap.delete_live hkey
  simp only [StockFactory.weakDeleteCallback, removeStock, Option.isSome_some, if_true,
    Heap.load_live hkey]
  split_ifs
  · refine ⟨_, by simp only [bind, Except.bind, hdelete], hother (update s.stock_ key none) ?_,
      rfl, rfl⟩
    intro k w hw
    by_cases hk : k = key
    · simp [hk] at hw
    · exact h.empty k w (by simpa [hk] using hw)
  · exact ⟨_, by simp only [bind, Except.bind, hdelete], hother s.stock_ h.empty, rfl, rfl⟩

theorem Inv.step (h : s.Inv) {a : Action} (ha : s.Enabled a) :
    ∃ t, s.step a = .ok t ∧ t.Inv := by
  cases a with
  | get key => exact ⟨_, rfl, h.get key⟩
  | copy p => exact ⟨_, rfl, h.of_handles fun q hq => handles_of_update ha hq⟩
  | drop p => exact ⟨_, rfl, h.of_handles fun q hq => handles_of_update ha hq⟩
  | deleter p =>
    obtain ⟨t, ht, hinv, -⟩ := h.weakDeleteCallback ha.1 ha.2
    exact ⟨t, ht, hinv⟩
  | dropFactory => exact ⟨_, rfl, h.bounded, h.exists_of_handle, h.empty⟩

/-! ## Two objects for one key -/

theorem Inv.live_of_step (h : s.Inv) {a : Action} (ha : s.Enabled a) {t : StockFactory}
    (ht : s.step a = .ok t) {key : Bytes} {p : ℕ} (hp : t.Live key p) :
    s.Live key p ∨ a = .get key ∧ p = s.heap.next := by
  cases a with
  | get k =>
    cases ht
    rw [h.get_eq] at hp
    by_cases hnext : p = s.heap.next
    · have hkey : k = key := by simpa [Live, Heap.alloc, hnext] using hp.2
      exact .inr ⟨by rw [hkey], hnext⟩
    · exact .inl (by simpa [Live, Heap.alloc, hnext] using hp)
  | copy q =>
    cases ht
    exact .inl ⟨handles_of_update ha hp.1, hp.2⟩
  | drop q =>
    cases ht
    exact .inl ⟨handles_of_update ha hp.1, hp.2⟩
  | deleter q =>
    obtain ⟨t', ht', -, hhandles, hcells⟩ := h.weakDeleteCallback ha.1 ha.2
    cases ht.symm.trans ht'
    obtain ⟨hpos, hcell⟩ := hp
    rw [hhandles] at hpos
    have hne : p ≠ q := by
      rintro rfl
      exact absurd ha.1 hpos.ne'
    rw [hcells, update_of_ne hne] at hcell
    exact .inl ⟨hpos, hcell⟩
  | dropFactory =>
    cases ht
    exact .inl hp

theorem Inv.unique_step (h : s.Inv) (hu : s.Unique) {a : Action} (ha : s.Enabled a)
    {t : StockFactory} (ht : s.step a = .ok t) (halone : s.Alone a) : t.Unique := by
  intro key p q hp hq
  rcases h.live_of_step ha ht hp with hp | ⟨rfl, hp⟩
  · rcases h.live_of_step ha ht hq with hq | ⟨rfl, -⟩
    · exact hu key p q hp hq
    · exact absurd hp (halone p)
  · rcases h.live_of_step ha ht hq with hq | ⟨-, hq⟩
    · exact absurd hq (halone q)
    · rw [hp, hq]

theorem Inv.not_unique_get (h : s.Inv) {key : Bytes} {p : ℕ} (hp : s.Live key p) :
    ¬ (s.get key).2.Unique := by
  intro hu
  have hne : p ≠ s.heap.next := by
    rintro rfl
    exact absurd h.handles_next hp.1.ne'
  rw [h.get_eq] at hu
  apply hne
  apply hu key p s.heap.next
  · simpa [Live, Heap.alloc, hne] using hp
  · simp [Live, Heap.alloc]

theorem Inv.shares_iff_alone (h : s.Inv) (a : Action) : s.Shares a ↔ s.Alone a := by
  cases a with
  | get key =>
    constructor
    · intro hshares p hp
      have hsame := hshares p hp
      rw [h.get_eq] at hsame
      rw [Live, ← hsame, h.handles_next] at hp
      exact lt_irrefl 0 hp.1
    · intro halone p hp
      exact absurd hp (halone p)
  | _ => exact Iff.rfl

/-- For every interleaving: at every moment each key has at most one object with
handles, and equally every `get` shares the object it should share, exactly when no
`get` is ever called while a handle for its key is alive. -/
theorem unique_iff (actions : List Action)
    (h : Runs.Admissible step Enabled {} actions) :
    ((∀ pre, pre <+: actions → ∃ s, Runs.run step {} pre = .ok s ∧ s.Unique) ↔
      Runs.Admissible step Alone {} actions) ∧
    (Runs.Admissible step Shares {} actions ↔ Runs.Admissible step Alone {} actions) := by
  constructor
  · apply Runs.forall_isPrefix_iff_admissible (fun s => s.Inv ∧ s.Unique) Unique
      (fun s hs => hs.2) _ ⟨inv_init, by simp [Unique, Live]⟩ h
    rintro s a ⟨hinv, hu⟩ ha
    obtain ⟨t, ht, htinv⟩ := hinv.step ha
    refine ⟨t, ht, fun halone => ⟨htinv, hinv.unique_step hu ha ht halone⟩, fun hnot => ?_⟩
    cases a with
    | get key =>
      cases ht
      simp only [Alone, not_forall, not_not] at hnot
      obtain ⟨p, hp⟩ := hnot
      exact hinv.not_unique_get hp
    | _ => exact absurd trivial hnot
  · apply Runs.admissible_congr Inv (fun s a hs _ => hs.shares_iff_alone a) _ inv_init h
    intro s a t hs ha _ ht
    obtain ⟨t', ht', hinv⟩ := hs.step ha
    cases ht.symm.trans ht'
    exact hinv

/-- The object of an earlier `get` has lost its handle when `get` is called again. -/
theorem unique_iff_one_after_another :
    ∃ s, Runs.run step {} [.get [97], .drop 0, .get [97], .deleter 0] = .ok s ∧ s.Unique := by
  have hrun : Runs.Admissible step Enabled {} [.get [97], .drop 0, .get [97], .deleter 0] := by
    decide
  refine (unique_iff _ hrun).1.mpr ⟨?_, trivial, ?_, trivial, trivial⟩ _ List.prefix_rfl
  · simp [Alone, Live]
  · intro p hp
    have hpos : 0 < update (update (fun _ => 0) 0 1) 0 0 p := hp.1
    by_cases h0 : p = 0
    · simp [h0] at hpos
    · simp [h0] at hpos

/-- Two calls with one key, the handle of the first one being kept: two objects. -/
theorem second_get_splits :
    ¬ ∀ actions : List Action, Runs.Admissible step Enabled {} actions →
      ∀ pre, pre <+: actions → ∃ s, Runs.run step {} pre = .ok s ∧ s.Unique := by
  intro h
  obtain ⟨s, hrun, hu⟩ := h [.get [97], .get [97]] (by decide) _ List.prefix_rfl
  cases hrun
  exact absurd (hu [97] 0 1 ⟨by decide, rfl⟩ ⟨by decide, rfl⟩) (by decide)

end StockFactory
end NetworkPrograms.Threads
