import NetworkPrograms.Judge.Server

/-!
# What every call of the judge keeps

While the status is `Success` every key of `info` leads to a live object of its
own, and the keys between `cmp` and the larger of the two counters are present.
This holds in every run, also past the wrap-around of the counters, and it is
what makes each call free of pointer faults. Each operation gets one
specification in terms of `entry`, the object under a key.
-/
namespace NetworkPrograms.Judge
namespace NetworkTestServer

open Function

variable {s : NetworkTestServer}

/-- The pointer discipline of a judge that has not stopped. -/
structure Live (s : NetworkTestServer) : Prop where
  bounded : s.heap.Bounded
  live : ∀ k p, s.info k = some p → ∃ a t, p = some a ∧ s.heap.cells a = some t
  inj : ∀ k k' a, s.info k = some (some a) → s.info k' = some (some a) → k = k'
  covered : ∀ k, s.cmp < k → k ≤ max s.seq s.recv_seq → (s.info k).isSome
  seq_lt : s.seq < 2 ^ 32
  recv_lt : s.recv_seq < 2 ^ 32

theorem live_init : Live {} where
  bounded := Heap.bounded_empty
  live := by simp
  inj := by simp
  covered := fun k hk hle => absurd hle (by simp at hk ⊢; omega)
  seq_lt := by simp
  recv_lt := by simp

theorem incr_lt (n : ℕ) : incr n < 2 ^ 32 := Nat.mod_lt _ (by decide)

theorem incr_of_lt {n : ℕ} (h : n + 1 < 2 ^ 32) : incr n = n + 1 := Nat.mod_eq_of_lt h

theorem entry_of_info {k a : ℕ} (h : s.info k = some (some a)) : s.entry k = s.heap.cells a := by
  simp [entry, h]

theorem entry_congr {s' : NetworkTestServer} {k : ℕ} (hinfo : s'.info k = s.info k)
    (hcell : ∀ a, s.info k = some (some a) → s'.heap.cells a = s.heap.cells a) :
    s'.entry k = s.entry k := by
  unfold entry
  rw [hinfo]
  rcases h : s.info k with _ | _ | a
  · rfl
  · rfl
  · exact hcell a h

theorem Live.exists_entry (hl : Live s) {k : ℕ} (h : (s.info k).isSome) :
    ∃ a t, s.info k = some (some a) ∧ s.heap.cells a = some t ∧ s.entry k = some t := by
  obtain ⟨p, hp⟩ := Option.isSome_iff_exists.mp h
  obtain ⟨a, t, rfl, ht⟩ := hl.live k p hp
  exact ⟨a, t, hp, ht, (entry_of_info hp).trans ht⟩

theorem Live.isSome_entry (hl : Live s) (k : ℕ) : (s.entry k).isSome = (s.info k).isSome := by
  cases h : s.info k with
  | none => simp [entry, h]
  | some p =>
    obtain ⟨a, t, -, -, ht⟩ := hl.exists_entry (k := k) (by simp [h])
    simp [ht]

theorem covered_incr {info : ℕ → Option (Option ℕ)} {cmp m n : ℕ}
    (hcov : ∀ k, cmp < k → k ≤ max m n → (info k).isSome) (hn : (info (incr n)).isSome) :
    ∀ k, cmp < k → k ≤ max m (incr n) → (info k).isSome := by
  intro k hk hle
  rcases eq_or_ne k (incr n) with rfl | hne
  · exact hn
  · have hinc : incr n ≤ n + 1 := Nat.mod_le _ _
    exact hcov k hk (by omega)

theorem covered_update_incr {info : ℕ → Option (Option ℕ)} {cmp m n : ℕ}
    (hcov : ∀ k, cmp < k → k ≤ max m n → (info k).isSome) (p : Option ℕ) :
    ∀ k, cmp < k → k ≤ max m (incr n) → (update info (incr n) (some p) k).isSome := by
  refine covered_incr (fun k hk hle => ?_) (by simp)
  rcases eq_or_ne k (incr n) with rfl | hne
  · simp
  · rw [update_of_ne hne]
    exact hcov k hk hle

theorem live_of_fresh (s' : NetworkTestServer) (hl : Live s) {k : ℕ} (m : MessageInfo)
    (hheap : s'.heap = (s.heap.alloc m).2)
    (hinfo : s'.info = update s.info k (some (some s.heap.next)))
    (hcov : ∀ k, s'.cmp < k → k ≤ max s'.seq s'.recv_seq → (s'.info k).isSome)
    (hseq : s'.seq < 2 ^ 32) (hrecv : s'.recv_seq < 2 ^ 32) :
    Live s' ∧ s'.entry = update s.entry k (some m) := by
  have hfresh : ∀ k' a, s.info k' = some (some a) → a ≠ s.heap.next := by
    rintro k' a ha rfl
    obtain ⟨b, t, hb, ht⟩ := hl.live k' _ ha
    cases hb
    exact absurd (hl.bounded s.heap.next (by simp [ht])) (lt_irrefl _)
  have hcells : s'.heap.cells = update s.heap.cells s.heap.next (some m) := by rw [hheap]; rfl
  refine ⟨⟨hheap ▸ hl.bounded.alloc m, ?_, ?_, hcov, hseq, hrecv⟩, ?_⟩
  · intro k' p hp
    rw [hinfo] at hp
    rcases eq_or_ne k' k with rfl | hne
    · rw [update_self] at hp
      cases hp
      exact ⟨_, m, rfl, by simp [hcells]⟩
    · rw [update_of_ne hne] at hp
      obtain ⟨a, t, rfl, ht⟩ := hl.live k' p hp
      exact ⟨a, t, rfl, by rw [hcells, update_of_ne (hfresh k' a hp), ht]⟩
  · intro k₁ k₂ a h₁ h₂
    rw [hinfo] at h₁ h₂
    rcases eq_or_ne k₁ k with rfl | hne₁ <;> rcases eq_or_ne k₂ k₁ with rfl | hne₂
    · rfl
    · rw [update_self] at h₁
      rw [update_of_ne hne₂] at h₂
      cases h₁
      exact absurd rfl (hfresh _ _ h₂)
    · rfl
    · rw [update_of_ne hne₁] at h₁
      rcases eq_or_ne k₂ k with rfl | hne₃
      · rw [update_self] at h₂
        cases h₂
        exact absurd rfl (hfresh _ _ h₁)
      · rw [update_of_ne hne₃] at h₂
        exact hl.inj _ _ _ h₁ h₂
  · funext k'
    rcases eq_or_ne k' k with rfl | hne
    · rw [update_self]
      simp [entry, hinfo, hcells]
    · rw [update_of_ne hne]
      refine entry_congr (by rw [hinfo, update_of_ne hne]) fun a ha => ?_
      rw [hcells, update_of_ne (hfresh k' a ha)]

theorem live_of_store (s' : NetworkTestServer) (hl : Live s) {k a : ℕ}
    (hk : s.info k = some (some a)) (m : MessageInfo)
    (hcells : s'.heap.cells = update s.heap.cells a (some m)) (hnext : s'.heap.next = s.heap.next)
    (hinfo : s'.info = s.info)
    (hcov : ∀ k, s'.cmp < k → k ≤ max s'.seq s'.recv_seq → (s'.info k).isSome)
    (hseq : s'.seq < 2 ^ 32) (hrecv : s'.recv_seq < 2 ^ 32) :
    Live s' ∧ s'.entry = update s.entry k (some m) := by
  obtain ⟨_, t, ha, ht, -⟩ := hl.exists_entry (k := k) (by simp [hk])
  rw [hk] at ha
  cases ha
  refine ⟨⟨hl.bounded.of_update ht hcells hnext, ?_, hinfo ▸ hl.inj, hcov, hseq, hrecv⟩, ?_⟩
  · intro k' p hp
    rw [hinfo] at hp
    obtain ⟨b, u, rfl, hu⟩ := hl.live k' p hp
    rcases eq_or_ne b a with rfl | hne
    · exact ⟨b, m, rfl, by simp [hcells]⟩
    · exact ⟨b, u, rfl, by rw [hcells, update_of_ne hne, hu]⟩
  · funext k'
    rcases eq_or_ne k' k with rfl | hne
    · rw [update_self, entry_of_info (hinfo ▸ hk), hcells, update_self]
    · rw [update_of_ne hne]
      refine entry_congr (by rw [hinfo]) fun b hb => ?_
      have hba : b ≠ a := by
        rintro rfl
        exact hne (hl.inj _ _ _ hb hk)
      rw [hcells, update_of_ne hba]

theorem live_of_erase (s' : NetworkTestServer) (hl : Live s) {k a : ℕ}
    (hk : s.info k = some (some a)) (hcells : s'.heap.cells = update s.heap.cells a none)
    (hnext : s'.heap.next = s.heap.next) (hinfo : s'.info = update s.info k none)
    (hcov : ∀ k, s'.cmp < k → k ≤ max s'.seq s'.recv_seq → (s'.info k).isSome)
    (hseq : s'.seq < 2 ^ 32) (hrecv : s'.recv_seq < 2 ^ 32) :
    Live s' ∧ s'.entry = update s.entry k none := by
  obtain ⟨_, t, ha, ht, -⟩ := hl.exists_entry (k := k) (by simp [hk])
  rw [hk] at ha
  cases ha
  have hother : ∀ k' b, k' ≠ k → s.info k' = some (some b) → b ≠ a := by
    rintro k' b hne hb rfl
    exact hne (hl.inj _ _ _ hb hk)
  have hpresent : ∀ k' p, s'.info k' = some p → k' ≠ k ∧ s.info k' = some p := by
    intro k' p hp
    rw [hinfo] at hp
    rcases eq_or_ne k' k with rfl | hne
    · rw [update_self] at hp
      cases hp
    · exact ⟨hne, by rwa [update_of_ne hne] at hp⟩
  refine ⟨⟨hl.bounded.of_update ht hcells hnext, ?_, ?_, hcov, hseq, hrecv⟩, ?_⟩
  · intro k' p hp
    obtain ⟨hne, hp⟩ := hpresent k' p hp
    obtain ⟨b, u, rfl, hu⟩ := hl.live k' p hp
    exact ⟨b, u, rfl, by rw [hcells, update_of_ne (hother k' b hne hp), hu]⟩
  · intro k₁ k₂ b h₁ h₂
    exact hl.inj _ _ _ (hpresent _ _ h₁).2 (hpresent _ _ h₂).2
  · funext k'
    rcases eq_or_ne k' k with rfl | hne
    · simp [entry, hinfo]
    · rw [update_of_ne hne]
      refine entry_congr (by rw [hinfo, update_of_ne hne]) fun b hb => ?_
      rw [hcells, update_of_ne (hother k' b hne hb)]

theorem lookup_of_some {info : ℕ → Option (Option ℕ)} {k : ℕ} {p : Option ℕ}
    (h : info k = some p) : lookup info k = (p, info) := by
  simp [lookup, h, update_eq_self_iff]

theorem lookup_of_none {info : ℕ → Option (Option ℕ)} {k : ℕ} (h : info k = none) :
    lookup info k = (none, update info k (some none)) := by
  simp [lookup, h]

/-! ## The three operations while the status is `Success` -/

/-- `AnswerRegister` puts the answer alone under the next key. -/
theorem AnswerRegister_spec (hl : Live s) (hst : s.status = .Success) (content : Bytes) :
    ∃ s', s.AnswerRegister content = .ok (s', ⟨s.cmp, .Success⟩) ∧ Live s' ∧
      s'.status = .Success ∧ s'.seq = incr s.seq ∧ s'.recv_seq = s.recv_seq ∧ s'.cmp = s.cmp ∧
      s'.entry = update s.entry (incr s.seq) (some ⟨content, []⟩) := by
  have hcov := covered_update_incr (fun k hk hle => hl.covered k hk (max_comm s.seq _ ▸ hle))
    (some s.heap.next)
  obtain ⟨hlive, hentry⟩ := live_of_fresh { s with
      heap := (s.heap.alloc ⟨content, []⟩).2, seq := incr s.seq
      info := update s.info (incr s.seq) (some (some s.heap.next)) }
    hl ⟨content, []⟩ rfl rfl (fun k hk hle => hcov k hk (by rwa [max_comm])) (incr_lt _) hl.recv_lt
  exact ⟨_, by simp only [AnswerRegister, hst]; rfl, hlive, hst, rfl, rfl, rfl, hentry⟩

/-- `commit` stores the message beside the answer already under its key, or
beside an empty one. -/
theorem commit_spec (hl : Live s) (hst : s.status = .Success) (msg : Bytes) :
    ∃ s', s.commit msg = .ok s' ∧ Live s' ∧
      s'.status = .Success ∧ s'.seq = s.seq ∧ s'.recv_seq = incr s.recv_seq ∧ s'.cmp = s.cmp ∧
      s'.entry = update s.entry (incr s.recv_seq)
        (some ⟨((s.entry (incr s.recv_seq)).getD {}).answer, msg⟩) := by
  cases hk : s.info (incr s.recv_seq) with
  | none =>
    -- the key is new: a null pointer is inserted, then replaced by a fresh object
    have hnone : s.entry (incr s.recv_seq) = none := by simp [entry, hk]
    have hcov := covered_update_incr hl.covered (some s.heap.next)
    obtain ⟨hlive, hentry⟩ := live_of_fresh { s with
        heap := (s.heap.alloc ⟨[], msg⟩).2, recv_seq := incr s.recv_seq
        info := update s.info (incr s.recv_seq) (some (some s.heap.next)) }
      hl ⟨[], msg⟩ rfl rfl hcov hl.seq_lt (incr_lt _)
    refine ⟨_, ?_, hlive, hst, rfl, rfl, rfl, by rw [hentry, hnone]; rfl⟩
    have hnew : lookup (update s.info (incr s.recv_seq) (some (some s.heap.next)))
        (incr s.recv_seq) =
        (some s.heap.next, update s.info (incr s.recv_seq) (some (some s.heap.next))) :=
      lookup_of_some (by simp)
    simp only [commit, hst, ne_eq, not_true_eq_false, if_false, lookup_of_none hk, Heap.alloc,
      update_idem, hnew, Heap.load, update_self, Heap.store, bind, Except.bind]
  | some p =>
    obtain ⟨a, t, ha, ht, hentry⟩ := hl.exists_entry (k := incr s.recv_seq) (by simp [hk])
    have hcov := covered_incr (m := s.seq) (n := s.recv_seq) hl.covered (by simp [hk])
    obtain ⟨hlive, hentry'⟩ := live_of_store { s with
        heap := { s.heap with cells := update s.heap.cells a (some { t with msg := msg }) }
        recv_seq := incr s.recv_seq }
      hl ha { t with msg := msg } rfl rfl rfl hcov hl.seq_lt (incr_lt _)
    refine ⟨_, ?_, hlive, hst, rfl, rfl, rfl, by rw [hentry', hentry]; rfl⟩
    simp only [commit, hst, ne_eq, not_true_eq_false, if_false, lookup_of_some ha,
      Heap.load_live ht, Heap.store_live ht, bind, Except.bind]

/-! ## The comparison loop -/

/-- The two strings stored under a key are equal. -/
def EqualAt (s : NetworkTestServer) (k : ℕ) : Prop := ∃ t, s.entry k = some t ∧ t.answer = t.msg

theorem equalAt_iff {k : ℕ} {t : MessageInfo} (h : s.entry k = some t) :
    EqualAt s k ↔ t.answer = t.msg := by
  simp [EqualAt, h]

theorem equalAt_congr {s' : NetworkTestServer} {k : ℕ} (h : s'.entry k = s.entry k) :
    EqualAt s' k ↔ EqualAt s k := by
  rw [EqualAt, EqualAt, h]

/-- What a run of the comparison loop up to `avail` leaves behind. It stops with
`Diff` at the first key whose two strings are equal, and otherwise erases every
key it has passed. -/
inductive Compared (s : NetworkTestServer) (avail : ℕ) (s' : NetworkTestServer) : Prop where
  | diff (j : ℕ) (lo : s.cmp < j) (hi : j ≤ avail) (eq : EqualAt s j)
      (first : ∀ i, s.cmp < i → i < j → ¬ EqualAt s i) (status : s'.status = .Diff)
      (cmp : s'.cmp = j)
  | success (none_equal : ∀ i, s.cmp < i → i ≤ avail → ¬ EqualAt s i) (live : Live s')
      (status : s'.status = .Success) (cmp : s'.cmp = avail)
      (entry : ∀ k, s'.entry k = if s.cmp < k ∧ k ≤ avail then none else s.entry k)

theorem updateLoop_succ {avail rounds a : ℕ} {t : MessageInfo} (hcmp : s.cmp < avail)
    (ha : s.info (incr s.cmp) = some (some a)) (ht : s.heap.cells a = some t) :
    updateLoop avail (rounds + 1) s =
      if t.answer = t.msg then
        .ok { s with
          cmp := incr s.cmp, status := .Diff
          heap := { s.heap with cells := update s.heap.cells a none } }
      else updateLoop avail rounds { s with
        cmp := incr s.cmp, info := update s.info (incr s.cmp) none
        heap := { s.heap with cells := update s.heap.cells a none } } := by
  simp only [updateLoop, hcmp, if_true, lookup_of_some ha, Heap.load_live ht, Heap.delete_live ht,
    bind, Except.bind]

theorem Compared.step {s₁ s' : NetworkTestServer} {avail : ℕ} (hcmp : s₁.cmp = s.cmp + 1)
    (hle : s.cmp + 1 ≤ avail) (hentry : s₁.entry = update s.entry (s.cmp + 1) none)
    (hne : ¬ EqualAt s (s.cmp + 1)) (h : Compared s₁ avail s') : Compared s avail s' := by
  have hsame : ∀ i, i ≠ s.cmp + 1 → s₁.entry i = s.entry i := fun i hi => by
    rw [hentry, update_of_ne hi]
  cases h with
  | diff j lo hi eq first status cmp =>
    refine .diff j (by omega) hi ((equalAt_congr (hsame j (by omega))).mp eq) ?_ status cmp
    intro i hlo hhi
    rcases eq_or_ne i (s.cmp + 1) with rfl | hi'
    · exact hne
    · exact fun he => first i (by omega) hhi ((equalAt_congr (hsame i hi')).mpr he)
  | success none_equal live status cmp entry =>
    refine .success ?_ live status cmp ?_
    · intro i hlo hhi
      rcases eq_or_ne i (s.cmp + 1) with rfl | hi'
      · exact hne
      · exact fun he => none_equal i (by omega) hhi ((equalAt_congr (hsame i hi')).mpr he)
    · intro k
      rw [entry k]
      rcases eq_or_ne k (s.cmp + 1) with rfl | hk
      · rw [if_neg (by omega), if_pos (by omega), hentry, update_self]
      · rw [hsame k hk]
        by_cases hin : s.cmp < k ∧ k ≤ avail
        · rw [if_pos (by omega), if_pos hin]
        · rw [if_neg (by omega), if_neg hin]

theorem Compared.stops {s' : NetworkTestServer} (h : Compared s (min s.seq s.recv_seq) s')
    (hseq : s'.seq = s.seq) (hrecv : s'.recv_seq = s.recv_seq) (hst : s'.status = .Success) :
    s'.cmp = s'.recv_seq ∨ s'.cmp = s'.seq := by
  cases h with
  | diff j lo hi eq first status cmp =>
    rw [status] at hst
    cases hst
  | success none_equal live status cmp entry => omega

theorem updateLoop_spec (avail : ℕ) (havail : avail < 2 ^ 32) (rounds : ℕ) :
    ∀ {s : NetworkTestServer}, Live s → s.status = .Success → avail ≤ max s.seq s.recv_seq →
      s.cmp + rounds = avail →
      ∃ s', updateLoop avail rounds s = .ok s' ∧ s'.seq = s.seq ∧ s'.recv_seq = s.recv_seq ∧
        Compared s avail s' := by
  induction rounds with
  | zero =>
    intro s hl hst _ hcmp
    refine ⟨s, rfl, rfl, rfl, .success (fun i _ _ => by omega) hl hst (by omega) fun k => ?_⟩
    rw [if_neg (by omega)]
  | succ rounds ih =>
    intro s hl hst hmax hcmp
    have hinc : incr s.cmp = s.cmp + 1 := incr_of_lt (by omega)
    obtain ⟨a, t, ha, ht, hentry⟩ :=
      hl.exists_entry (hl.covered (incr s.cmp) (by omega) (by omega))
    rw [updateLoop_succ (by omega) ha ht]
    split_ifs with heq
    · exact ⟨_, rfl, rfl, rfl, .diff (incr s.cmp) (by omega) (by omega) ⟨t, hentry, heq⟩
        (fun i _ _ => by omega) rfl rfl⟩
    · -- the key is erased and the loop goes on from the next one
      obtain ⟨hlive, hentry'⟩ := live_of_erase { s with
          cmp := incr s.cmp, info := update s.info (incr s.cmp) none
          heap := { s.heap with cells := update s.heap.cells a none } }
        hl ha rfl rfl rfl
        (fun k hk hle => by
          simp only at hk hle ⊢
          rw [update_of_ne (by omega)]
          exact hl.covered k (by omega) hle) hl.seq_lt hl.recv_lt
      obtain ⟨s', hrun, hseq, hrecv, hcompared⟩ := ih hlive hst hmax (by simp only; omega)
      refine ⟨s', hrun, hseq, hrecv, hcompared.step hinc (by omega) (hinc ▸ hentry') ?_⟩
      rw [← hinc, equalAt_iff hentry]
      exact heq

/-- A judge that has not stopped and has not compared more than it has received
runs `Update` as a comparison up to the smaller counter. -/
theorem Update_spec (hl : Live s) (hst : s.status = .Success)
    (hcmp : s.cmp ≤ min s.seq s.recv_seq) :
    ∃ s', s.Update = .ok s' ∧ s'.seq = s.seq ∧ s'.recv_seq = s.recv_seq ∧
      Compared s (min s.seq s.recv_seq) s' := by
  have hlt := hl.seq_lt
  obtain ⟨s', hrun, h⟩ := updateLoop_spec (min s.seq s.recv_seq) (by omega)
    (min s.seq s.recv_seq - s.cmp) hl hst (by omega) (by omega)
  refine ⟨s', ?_, h⟩
  have hguard : ¬ s.cmp > min s.recv_seq s.seq := by omega
  simp only [Update, hst, ne_eq, not_true_eq_false, if_false, hguard]
  rwa [min_comm]

theorem Update_of_lt (hst : s.status = .Success) (hcmp : min s.seq s.recv_seq < s.cmp) :
    s.Update = .ok { s with status := .TestError } := by
  have hguard : s.cmp > min s.recv_seq s.seq := by omega
  simp [Update, hst, hguard]

theorem Update_stopped (hst : s.status ≠ .Success) : s.Update = .ok s := by
  simp [Update, hst]

/-- All that a query can do while the status is `Success`. -/
inductive Queried (s : NetworkTestServer) (id : ℕ) (s' : NetworkTestServer) (r : Result) :
    Prop where
  | known (old : id ≤ s.cmp) (server : s' = s) (reply : r = ⟨s.cmp, .Success⟩)
  | wrapped (new : s.cmp < id) (below : min s.seq s.recv_seq < s.cmp)
      (server : s' = { s with status := .TestError }) (reply : r = ⟨s.cmp, .TestError⟩)
  | compared (new : s.cmp < id) (le : s.cmp ≤ min s.seq s.recv_seq)
      (run : Compared s (min s.seq s.recv_seq) s') (reply : r = ⟨s'.cmp,
        if id ≤ s'.cmp then .Success else if s'.status ≠ .Success then s'.status
        else if s'.cmp = s'.recv_seq then .Wait else .WaitRPC⟩)

theorem ResultQuery_spec (hl : Live s) (hst : s.status = .Success) (id : ℕ) :
    ∃ s' r, s.ResultQuery id = .ok (s', r) ∧ s'.seq = s.seq ∧ s'.recv_seq = s.recv_seq ∧
      Queried s id s' r := by
  by_cases hid : id ≤ s.cmp
  · exact ⟨s, _, by simp [ResultQuery, hst, hid], rfl, rfl, .known hid rfl rfl⟩
  · by_cases hle : s.cmp ≤ min s.seq s.recv_seq
    · obtain ⟨s', hupd, hseq, hrecv, hcompared⟩ := Update_spec hl hst hle
      refine ⟨s', _, ?_, hseq, hrecv, .compared (by omega) hle hcompared rfl⟩
      have hstop : s'.status = .Success → s'.cmp = s'.recv_seq ∨ s'.cmp = s'.seq :=
        hcompared.stops hseq hrecv
      simp only [ResultQuery, hst, ne_eq, not_true_eq_false, if_false, hid, hupd, bind,
        Except.bind, ge_iff_le]
      split_ifs with h1 h2 h3 h4
      · rfl
      · rfl
      · rfl
      · exact absurd (hstop h2) (not_or.mpr ⟨h3, h4⟩)
      · rfl
    · have hupd := Update_of_lt hst (show min s.seq s.recv_seq < s.cmp by omega)
      refine ⟨{ s with status := .TestError }, _, ?_, rfl, rfl,
        .wrapped (by omega) (by omega) rfl rfl⟩
      simp [ResultQuery, hst, hid, hupd, bind, Except.bind]

/-! ## A stopped judge -/

theorem AnswerRegister_stopped (hst : s.status ≠ .Success) (content : Bytes) :
    s.AnswerRegister content = .ok (s, ⟨0, s.status⟩) := by
  simp [AnswerRegister, hst]

theorem commit_stopped (hst : s.status ≠ .Success) (msg : Bytes) : s.commit msg = .ok s := by
  simp [commit, hst]

theorem ResultQuery_stopped (hst : s.status ≠ .Success) (id : ℕ) :
    s.ResultQuery id = .ok (s, ⟨s.cmp, s.status⟩) := by
  simp [ResultQuery, hst]

end NetworkTestServer
end NetworkPrograms.Judge
