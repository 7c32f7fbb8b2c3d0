import NetworkPrograms.Foundations.Words

/-!
# Raw blocks and a heap of objects

A block is a run of bytes obtained from the allocator. Its contents are
arbitrary until they are written, a store may miss the block, and every store
leaves its index in a log, so that memory safety is a statement about the log.

The heap keeps the live objects of one type. Addresses are never handed out
twice: using or deleting an object after its deletion, and following the null
pointer, are faults instead of silent accidents.
-/
namespace NetworkPrograms

/-- The string that C finds in an array: the bytes before the first NUL. -/
def cstring (bs : Bytes) : Bytes := bs.takeWhile (· ≠ 0)

theorem cstring_append_nul (m : Bytes) : cstring (m ++ [0]) = cstring m := by
  induction m with
  | nil => rfl
  | cons b m ih =>
    simp only [cstring, List.cons_append, List.takeWhile_cons] at ih ⊢
    rw [ih]

/-- A block of raw memory: requested size, contents by index, stores made so far. -/
structure Block where
  size : ℤ
  cell : ℤ → UInt8
  log : List ℤ

namespace Block

/-- A fresh block. Its bytes are whatever the allocator left there. -/
def alloc (size : ℤ) (junk : ℤ → UInt8) : Block := ⟨size, junk, []⟩

def write (b : Block) (off : ℤ) (bs : Bytes) : Block where
  size := b.size
  cell := fun i => if off ≤ i then bs[(i - off).toNat]?.getD (b.cell i) else b.cell i
  log := b.log ++ (List.range bs.length).map fun i : ℕ => off + (i : ℤ)

def read (b : Block) (off : ℤ) (n : ℕ) : Bytes :=
  (List.range n).map fun i : ℕ => b.cell (off + (i : ℤ))

@[simp] theorem write_size (b : Block) (off : ℤ) (bs : Bytes) :
    (b.write off bs).size = b.size := rfl

@[simp] theorem alloc_size (size : ℤ) (junk : ℤ → UInt8) : (alloc size junk).size = size := rfl

@[simp] theorem length_read (b : Block) (off : ℤ) (n : ℕ) : (b.read off n).length = n := by
  simp [read]

theorem take_read (b : Block) (off : ℤ) {k n : ℕ} (h : k ≤ n) :
    (b.read off n).take k = b.read off k := by
  rw [read, read, ← List.map_take, List.take_range, min_eq_left h]

@[simp] theorem write_nil (b : Block) (off : ℤ) : b.write off [] = b := by
  simp [write]

theorem write_append (b : Block) (off : ℤ) (xs ys : Bytes) :
    (b.write off xs).write (off + xs.length) ys = b.write off (xs ++ ys) := by
  unfold write
  congr 1
  · funext i
    by_cases hlo : off ≤ i
    · by_cases hhi : off + xs.length ≤ i
      · have hx : xs.length ≤ (i - off).toNat := by omega
        have he : (i - (off + xs.length)).toNat = (i - off).toNat - xs.length := by omega
        simp [hlo, hhi, List.getElem?_append_right hx, List.getElem?_eq_none hx, he]
      · have hx : (i - off).toNat < xs.length := by omega
        simp [hlo, hhi, List.getElem?_append_left hx]
    · have hhi : ¬ off + xs.length ≤ i := by omega
      simp [hlo, hhi]
  · rw [List.length_append, List.range_add, List.map_append, List.append_assoc, List.map_map]
    congr 2
    apply List.map_congr_left
    intro i _
    simp [add_assoc]

theorem cell_write (b : Block) (off : ℤ) (bs : Bytes) (i : ℕ) (h : i < bs.length) :
    (b.write off bs).cell (off + i) = bs[i] := by
  simp [write, h]

theorem cell_write_of_lt (b : Block) (off : ℤ) (bs : Bytes) {i : ℤ} (h : i < off) :
    (b.write off bs).cell i = b.cell i := by
  have : ¬ off ≤ i := by omega
  simp [write, this]

theorem read_write_of_le (b : Block) (off at' : ℤ) (bs : Bytes) {n : ℕ} (h : off + n ≤ at') :
    (b.write at' bs).read off n = b.read off n := by
  unfold read
  apply List.map_congr_left
  intro i hi
  have := List.mem_range.mp hi
  exact cell_write_of_lt b at' bs (by omega)

theorem read_write (b : Block) (off : ℤ) (bs : Bytes) {n : ℕ} (h : n ≤ bs.length) :
    (b.write off bs).read off n = bs.take n := by
  apply List.ext_getElem
  · simp [h]
  · intro i hi _
    have hi' : i < n := by simpa using hi
    simp only [read, List.getElem_map, List.getElem_range, List.getElem_take]
    exact cell_write b off bs i (by omega)

theorem read_add (b : Block) (off : ℤ) (m n : ℕ) :
    b.read off (m + n) = b.read off m ++ b.read (off + m) n := by
  rw [read, List.range_add, List.map_append, List.map_map]
  congr 1
  apply List.map_congr_left
  intro i _
  simp [add_assoc]

/-- A block is being filled with `n` bytes of a stream: what has left the stream is in
the block up to `pt`, and `count` bytes are still to come. -/
def Filling (stream : Bytes) (buf : Block) (n : ℕ) (rest : Bytes) (b : Block)
    (pt count : ℤ) : Prop :=
  ∃ got, stream = got ++ rest ∧ b = buf.write 0 got ∧ pt = got.length ∧
    count = (n : ℤ) - got.length

namespace Filling

variable {stream rest : Bytes} {buf b : Block} {n : ℕ} {pt count : ℤ}

theorem store (h : Filling stream buf n rest b pt count) {len : ℕ} (hlen : len ≤ rest.length) :
    Filling stream buf n (rest.drop len) (b.write pt (rest.take len)) (pt + len)
      (count - len) := by
  obtain ⟨got, rfl, rfl, rfl, rfl⟩ := h
  have hgot : (got ++ rest.take len).length = got.length + len := by simp [hlen]
  have hwrite := write_append buf 0 got (rest.take len)
  rw [zero_add] at hwrite
  refine ⟨got ++ rest.take len, ?_, hwrite, ?_, ?_⟩
  · rw [List.append_assoc, List.take_append_drop]
  · rw [hgot, Nat.cast_add]
  · rw [hgot, Nat.cast_add, sub_sub]

theorem complete (h : Filling stream buf n rest b pt count) (hcount : count = 0) :
    n ≤ stream.length ∧ b = buf.write 0 (stream.take n) ∧ rest = stream.drop n := by
  obtain ⟨got, rfl, rfl, rfl, rfl⟩ := h
  obtain rfl : got.length = n := by omega
  simp

theorem exhausted (h : Filling stream buf n [] b pt count) (hcount : 0 < count) :
    stream.length < n ∧ b = buf.write 0 (stream.take n) ∧ stream.drop n = [] ∧
      count = n - stream.length := by
  obtain ⟨got, rfl, rfl, rfl, rfl⟩ := h
  have hlt : got.length < n := by omega
  rw [List.append_nil, List.take_of_length_le hlt.le, List.drop_of_length_le hlt.le]
  exact ⟨hlt, rfl, rfl, rfl⟩

end Filling

end Block

/-- The ways in which a pointer can be misused. -/
inductive Fault where
  | nullDeref
  | useAfterFree
  | doubleFree
  deriving DecidableEq, Repr

/-- Live objects by address, and the next address to hand out. -/
structure Heap (α : Type*) where
  cells : ℕ → Option α
  next : ℕ

namespace Heap

variable {α : Type*}

def empty : Heap α := ⟨fun _ => none, 0⟩

/-- `new`: the object becomes live at an address that was never used before. -/
def alloc (h : Heap α) (a : α) : ℕ × Heap α :=
  (h.next, ⟨Function.update h.cells h.next (some a), h.next + 1⟩)

def load (h : Heap α) : Option ℕ → Except Fault α
  | none => .error .nullDeref
  | some p => match h.cells p with
    | none => .error .useAfterFree
    | some a => .ok a

def store (h : Heap α) (ptr : Option ℕ) (a : α) : Except Fault (Heap α) :=
  match ptr with
  | none => .error .nullDeref
  | some p => match h.cells p with
    | none => .error .useAfterFree
    | some _ => .ok { h with cells := Function.update h.cells p (some a) }

/-- `delete`: harmless on null, a fault on an object that is not live. -/
def delete (h : Heap α) (ptr : Option ℕ) : Except Fault (Heap α) :=
  match ptr with
  | none => .ok h
  | some p => match h.cells p with
    | none => .error .doubleFree
    | some _ => .ok { h with cells := Function.update h.cells p none }

/-- Live objects sit below the next address. -/
def Bounded (h : Heap α) : Prop := ∀ p, (h.cells p).isSome → p < h.next

theorem bounded_empty : (empty : Heap α).Bounded := by simp [Bounded, empty]

variable {h : Heap α} {p : ℕ} {a b : α}

theorem load_live (hp : h.cells p = some a) : h.load (some p) = .ok a := by simp [load, hp]

theorem store_live (hp : h.cells p = some b) :
    h.store (some p) a = .ok { h with cells := Function.update h.cells p (some a) } := by
  simp [store, hp]

theorem delete_live (hp : h.cells p = some a) :
    h.delete (some p) = .ok { h with cells := Function.update h.cells p none } := by
  simp [delete, hp]

theorem Bounded.alloc (hb : h.Bounded) (a : α) : (h.alloc a).2.Bounded := by
  intro q hq
  by_cases he : q = h.next
  · simp [Heap.alloc, he]
  · have := hb q (by simpa [Heap.alloc, Function.update_of_ne he] using hq)
    simp only [Heap.alloc]
    omega

theorem Bounded.of_update (hb : h.Bounded) (hp : h.cells p = some a) {h' : Heap α} {o : Option α}
    (hcells : h'.cells = Function.update h.cells p o) (hnext : h'.next = h.next) : h'.Bounded := by
  intro q hq
  rw [hnext]
  by_cases he : q = p
  · exact he ▸ hb p (by simp [hp])
  · exact hb q (by rwa [hcells, Function.update_of_ne he] at hq)

end Heap
end NetworkPrograms
