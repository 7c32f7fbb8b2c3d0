import Mathlib.Data.List.ReduceOption
import Mathlib.Tactic

/-!
# Arrays of slots

An array of slots, each free or holding a key. A key is put into the first free
slot; there is one as long as fewer keys are held than there are slots. Where the keys
are numbers and the lowest unused one is given out, the same count bounds the key.
-/
namespace NetworkPrograms.Slots

variable {κ : Type*}

def held (slots : List (Option κ)) : List κ := slots.reduceOption

@[simp] theorem held_nil : held ([] : List (Option κ)) = [] := rfl

@[simp] theorem held_cons_none (slots : List (Option κ)) : held (none :: slots) = held slots := rfl

@[simp] theorem held_cons_some (k : κ) (slots : List (Option κ)) :
    held (some k :: slots) = k :: held slots := rfl

@[simp] theorem mem_held {k : κ} {slots : List (Option κ)} : k ∈ held slots ↔ some k ∈ slots :=
  List.reduceOption_mem_iff

@[simp] theorem held_append (slots slots' : List (Option κ)) :
    held (slots ++ slots') = held slots ++ held slots' :=
  List.reduceOption_append slots slots'

@[simp] theorem held_replicate_none (n : ℕ) : held (List.replicate n (none : Option κ)) = [] :=
  List.reduceOption_replicate_none

/-- The first free slot, the number of slots if there is none. -/
def firstFree (slots : List (Option κ)) : ℕ := slots.findIdx Option.isNone

theorem firstFree_lt {slots : List (Option κ)} (h : (held slots).length < slots.length) :
    firstFree slots < slots.length := by
  rw [firstFree, List.findIdx_lt_length]
  exact ⟨none, List.reduceOption_length_lt_iff.mp h, rfl⟩

theorem held_set_firstFree {slots : List (Option κ)} (h : firstFree slots < slots.length)
    (k : κ) : (held (slots.set (firstFree slots) (some k))).Perm (k :: held slots) := by
  induction slots with
  | nil => simp at h
  | cons slot slots ih =>
    cases slot with
    | none => simp [firstFree, List.findIdx_cons]
    | some key =>
      have hfirst : firstFree (some key :: slots) = firstFree slots + 1 := by
        simp [firstFree, List.findIdx_cons]
      rw [hfirst] at h ⊢
      rw [List.set_cons_succ, held_cons_some, held_cons_some]
      exact ((ih (by simpa using h)).cons key).trans (.swap k key _)

theorem held_drop_eq_nil {slots : List (Option κ)} {a b : ℕ} (hab : a ≤ b)
    (h : held (slots.drop a) = []) : held (slots.drop b) = [] := by
  have hsub : (slots.drop b).Sublist (slots.drop a) := List.drop_sublist_drop_left slots hab
  exact List.sublist_nil.mp (h ▸ hsub.filterMap id)

theorem held_take {slots : List (Option κ)} {a : ℕ} (h : held (slots.drop a) = []) :
    held (slots.take a) = held slots := by
  conv_rhs => rw [← List.take_append_drop a slots]
  rw [held_append, h, List.append_nil]

theorem held_map_filter (p : κ → Bool) (slots : List (Option κ)) :
    held (slots.map (Option.filter p)) = (held slots).filter p := by
  induction slots with
  | nil => rfl
  | cons slot slots ih =>
    cases slot with
    | none => simpa using ih
    | some key =>
      cases hp : p key
      · simpa [Option.filter, hp] using ih
      · simpa [Option.filter, hp] using ih

theorem map_filter_congr {p q : κ → Bool} {slots : List (Option κ)}
    (h : ∀ k ∈ held slots, p k = q k) :
    slots.map (Option.filter p) = slots.map (Option.filter q) := by
  apply List.map_congr_left
  intro slot hslot
  cases slot with
  | none => rfl
  | some key => rw [Option.filter_some, Option.filter_some, h key (mem_held.mpr hslot)]

theorem map_filter_eq_self {p : κ → Bool} {slots : List (Option κ)}
    (h : ∀ k ∈ held slots, p k = true) : slots.map (Option.filter p) = slots := by
  rw [map_filter_congr (q := fun _ => true) h]
  conv_rhs => rw [← List.map_id slots]
  apply List.map_congr_left
  intro slot _
  cases slot <;> rfl

/-- The first of at most `n` indices from `i` on that passes a test, the one behind them
if none does. -/
def search (p : ℕ → Bool) : ℕ → ℕ → ℕ
  | 0, i => i
  | n + 1, i => if p i then i else search p n (i + 1)

theorem search_spec (p : ℕ → Bool) (n i : ℕ) :
    (search p n i = i + n ∨ search p n i < i + n ∧ p (search p n i) = true) ∧
      i ≤ search p n i ∧ ∀ j, i ≤ j → j < search p n i → p j = false := by
  induction n generalizing i with
  | zero =>
    refine ⟨.inl rfl, le_rfl, ?_⟩
    intro j hle hlt
    exact absurd hlt (not_lt.mpr hle)
  | succ n ih =>
    rw [search]
    split_ifs with hp
    · refine ⟨.inr ⟨by omega, hp⟩, le_rfl, ?_⟩
      intro j hle hlt
      exact absurd hlt (not_lt.mpr hle)
    · obtain ⟨hfound, hge, hbefore⟩ := ih (i + 1)
      refine ⟨?_, by omega, ?_⟩
      · rcases hfound with hnone | ⟨hlt, hp'⟩
        · exact .inl (by omega)
        · exact .inr ⟨by omega, hp'⟩
      · intro j hle hlt
        rcases eq_or_lt_of_le hle with rfl | hlt'
        · exact Bool.eq_false_iff.mpr hp
        · exact hbefore j hlt' hlt

/-- The lowest index that is not in use. -/
def Lowest (used : ℕ → Bool) (k : ℕ) : Prop := used k = false ∧ ∀ j, j < k → used j = true

instance (used : ℕ → Bool) (k : ℕ) : Decidable (Lowest used k) :=
  inferInstanceAs (Decidable (_ ∧ ∀ j, j < k → _))

/-- The lowest index that is not in use lies below a bound exactly when fewer indices
have been taken than were there to be taken below it. -/
theorem Lowest.lt_iff {used : ℕ → Bool} {n k : ℕ} {taken free : List ℕ} (h : Lowest used k)
    (htaken : taken.Nodup) (hfree : free.Nodup) (hused : ∀ j ∈ taken, used j = true)
    (hmem : ∀ j, j ∈ free ↔ j ∈ taken ∨ j < n ∧ used j = false) :
    k < n ↔ taken.length < free.length := by
  constructor
  · intro hlt
    have hnew : k ∉ taken := by
      intro hk
      have := hused k hk
      rw [h.1] at this
      cases this
    have hsub : k :: taken ⊆ free := by
      intro j hj
      rw [hmem]
      rcases List.mem_cons.mp hj with rfl | hj
      · exact .inr ⟨hlt, h.1⟩
      · exact .inl hj
    exact ((List.nodup_cons.mpr ⟨hnew, htaken⟩).subperm hsub).length_le
  · intro hless
    by_contra hle
    have hsub : free ⊆ taken := by
      intro j hj
      rcases (hmem j).mp hj with hj | ⟨hlt, hnot⟩
      · exact hj
      · rw [h.2 j (by omega)] at hnot
        cases hnot
    have := (hfree.subperm hsub).length_le
    omega

end NetworkPrograms.Slots
