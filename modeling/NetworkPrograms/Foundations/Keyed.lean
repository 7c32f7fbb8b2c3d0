import Mathlib.Tactic

/-!
# Independent updates under distinct keys

A table is updated at one key after the other, each update looking at its own
entry only. When no key comes twice, every listed entry is updated once and the
order of the keys does not matter.
-/
namespace NetworkPrograms.Keyed

open Function

variable {κ α : Type*} [DecidableEq κ] (f : κ → α → α)

/-- Update the entries of the listed keys, from the first key to the last. -/
def touchAll (keys : List κ) (table : κ → α) : κ → α :=
  keys.foldl (fun t k => update t k (f k (t k))) table

@[simp] theorem touchAll_nil (table : κ → α) : touchAll f [] table = table := rfl

@[simp] theorem touchAll_cons (k : κ) (keys : List κ) (table : κ → α) :
    touchAll f (k :: keys) table = touchAll f keys (update table k (f k (table k))) := rfl

theorem touchAll_apply {keys : List κ} (h : keys.Nodup) (table : κ → α) (k : κ) :
    touchAll f keys table k = if k ∈ keys then f k (table k) else table k := by
  induction keys generalizing table with
  | nil => simp
  | cons key keys ih =>
    obtain ⟨hnot, hrest⟩ := List.nodup_cons.mp h
    rw [touchAll_cons, ih hrest]
    by_cases hk : k = key
    · subst hk
      simp [hnot]
    · simp [hk]

theorem touchAll_congr {keys keys' : List κ} (h : keys.Nodup) (h' : keys'.Nodup)
    (hmem : ∀ k, k ∈ keys ↔ k ∈ keys') (table : κ → α) :
    touchAll f keys table = touchAll f keys' table := by
  funext k
  rw [touchAll_apply f h, touchAll_apply f h']
  simp only [hmem]

end NetworkPrograms.Keyed
