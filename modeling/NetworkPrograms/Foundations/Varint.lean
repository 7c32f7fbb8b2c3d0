import NetworkPrograms.Foundations.Words

/-!
# Readers of byte strings, and varints

A reader takes a value off the front of a byte string, or fails. A local reader looks at no
more bytes than it takes, so that it reads the same value whatever follows.

A varint is a number in groups of seven bits, the lowest group first, with the high bit set
in every byte but the last one.
-/
namespace NetworkPrograms

/-- A reader that takes the value off and leaves the rest as it is. -/
def Local {α : Type*} (f : Bytes → Option (α × Bytes)) : Prop :=
  ∀ bs a rest, f bs = some (a, rest) →
    rest.length ≤ bs.length ∧ ∀ more, f (bs ++ more) = some (a, rest ++ more)

namespace Local

variable {α β : Type*} {f : Bytes → Option (α × Bytes)} {g : α → Bytes → Option (β × Bytes)}

theorem bind (hf : Local f) (hg : ∀ a, Local (g a)) :
    Local fun bs => (f bs).bind fun p => g p.1 p.2 := by
  intro bs b rest h
  obtain ⟨⟨a, mid⟩, ha, hb⟩ := Option.bind_eq_some_iff.mp h
  obtain ⟨hmid, hfmore⟩ := hf bs a mid ha
  obtain ⟨hrest, hgmore⟩ := hg a mid b rest hb
  refine ⟨hrest.trans hmid, ?_⟩
  intro more
  exact Option.bind_eq_some_iff.mpr ⟨_, hfmore more, hgmore more⟩

theorem map (hf : Local f) (k : α → β) : Local fun bs => (f bs).map fun p => (k p.1, p.2) := by
  intro bs b rest h
  obtain ⟨⟨a, mid⟩, ha, hb⟩ := Option.map_eq_some_iff.mp h
  cases hb
  obtain ⟨hmid, hmore⟩ := hf bs a _ ha
  refine ⟨hmid, ?_⟩
  intro more
  exact Option.map_eq_some_iff.mpr ⟨_, hmore more, rfl⟩

end Local

def takeBytes (n : ℕ) (bs : Bytes) : Option (Bytes × Bytes) :=
  if n ≤ bs.length then some (bs.take n, bs.drop n) else none

theorem takeBytes_append (bs rest : Bytes) :
    takeBytes bs.length (bs ++ rest) = some (bs, rest) := by
  simp [takeBytes]

theorem takeBytes_local (n : ℕ) : Local (takeBytes n) := by
  intro bs a rest h
  unfold takeBytes at h ⊢
  split_ifs at h with hle
  cases h
  refine ⟨by simp, ?_⟩
  intro more
  have hle' : n ≤ (bs ++ more).length := by
    rw [List.length_append]
    omega
  rw [if_pos hle', List.take_append_of_le_length hle, List.drop_append_of_le_length hle]

namespace Varint

/-- A number in at most `size` bytes. -/
def put : ℕ → ℕ → Bytes
  | 0, _ => []
  | size + 1, n =>
    if n < 128 then [UInt8.ofNat n] else UInt8.ofNat (n % 128 + 128) :: put size (n / 128)

/-- A number of at most `size` bytes. -/
def get : ℕ → Bytes → Option (ℕ × Bytes)
  | 0, _ => none
  | _ + 1, [] => none
  | size + 1, b :: bs =>
    if b.toNat < 128 then some (b.toNat, bs)
    else (get size bs).map fun p => (b.toNat - 128 + 128 * p.1, p.2)

theorem get_put {size n : ℕ} (h : n < 128 ^ (size + 1)) (rest : Bytes) :
    get (size + 1) (put (size + 1) n ++ rest) = some (n, rest) := by
  induction size generalizing n with
  | zero =>
    have hsmall : n < 128 := h
    have hbyte : (UInt8.ofNat n).toNat = n := by
      rw [UInt8.toNat_ofNat']
      omega
    simp [put, get, hbyte, hsmall]
  | succ size ih =>
    rw [put]
    split_ifs with hsmall
    · have hbyte : (UInt8.ofNat n).toNat = n := by
        rw [UInt8.toNat_ofNat']
        omega
      simp [get, hbyte, hsmall]
    · have hbyte : (UInt8.ofNat (n % 128 + 128)).toNat = n % 128 + 128 := by
        rw [UInt8.toNat_ofNat']
        omega
      have hrest : n / 128 < 128 ^ (size + 1) := by
        rw [pow_succ, mul_comm] at h
        exact Nat.div_lt_of_lt_mul h
      have hbig : ¬ n % 128 + 128 < 128 := by omega
      rw [List.cons_append, get, hbyte, if_neg hbig, ih hrest, Option.map_some]
      simp only [Option.some.injEq, Prod.mk.injEq, and_true]
      omega

theorem get_cons {size n : ℕ} {b : UInt8} {bs rest : Bytes} :
    get (size + 1) (b :: bs) = some (n, rest) ↔ (b.toNat < 128 ∧ n = b.toNat ∧ rest = bs) ∨
      (128 ≤ b.toNat ∧ ∃ m, get size bs = some (m, rest) ∧ n = b.toNat - 128 + 128 * m) := by
  rw [get]
  split_ifs with hlast
  · simp only [Option.some.injEq, Prod.mk.injEq, hlast, true_and, not_le.mpr hlast, false_and,
      or_false]
    constructor
    · rintro ⟨rfl, rfl⟩
      exact ⟨rfl, rfl⟩
    · rintro ⟨rfl, rfl⟩
      exact ⟨rfl, rfl⟩
  · simp only [hlast, false_and, false_or, not_lt.mp hlast, true_and, Option.map_eq_some_iff,
      Prod.mk.injEq, Prod.exists]
    constructor
    · rintro ⟨m, r, hm, rfl, rfl⟩
      exact ⟨m, hm, rfl⟩
    · rintro ⟨m, hm, rfl⟩
      exact ⟨m, rest, hm, rfl, rfl⟩

theorem get_length_lt {size n : ℕ} {bs rest : Bytes} (h : get size bs = some (n, rest)) :
    rest.length < bs.length := by
  induction size generalizing bs n with
  | zero => cases h
  | succ size ih =>
    cases bs with
    | nil => cases h
    | cons b bs =>
      rw [List.length_cons]
      rcases get_cons.mp h with ⟨-, -, rfl⟩ | ⟨-, m, hm, -⟩
      · omega
      · have hlt := ih hm
        omega

theorem get_append {size n : ℕ} {bs rest : Bytes} (h : get size bs = some (n, rest))
    (more : Bytes) : get size (bs ++ more) = some (n, rest ++ more) := by
  induction size generalizing bs n with
  | zero => cases h
  | succ size ih =>
    cases bs with
    | nil => cases h
    | cons b bs =>
      rw [List.cons_append, get_cons]
      rcases get_cons.mp h with ⟨hlast, hn, rfl⟩ | ⟨hmore, m, hm, hn⟩
      · exact .inl ⟨hlast, hn, rfl⟩
      · exact .inr ⟨hmore, m, ih hm, hn⟩

theorem get_local (size : ℕ) : Local (get size) := fun _ _ _ h =>
  ⟨(get_length_lt h).le, get_append h⟩

end Varint

end NetworkPrograms
