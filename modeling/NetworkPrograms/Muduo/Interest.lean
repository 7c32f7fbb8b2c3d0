import NetworkPrograms.Muduo.Registration

/-!
# What the kernel watches

The events of an entry are written when its channel is registered and never
again. They are those of the first call on the channel, so the kernel watches
what the channel asks for exactly when no channel asks for both kinds.
-/
namespace NetworkPrograms.Muduo

open Function

/-- The call asks for the events of a mask on a channel. -/
inductive Op.Asks : Op → ℕ → ℕ → Prop where
  | reading (ch : ℕ) : Asks (.enableReading ch) kReadEvent ch
  | writing (ch : ℕ) : Asks (.enableWriting ch) kWriteEvent ch

/-- One of the calls asks for the events of the mask on the channel. -/
def Asked (ops : List Op) (mask ch : ℕ) : Prop := ∃ op ∈ ops, op.Asks mask ch

theorem asked_iff {ops : List Op} {mask ch : ℕ} :
    Asked ops mask ch ↔ (mask = kReadEvent ∧ .enableReading ch ∈ ops) ∨
      (mask = kWriteEvent ∧ .enableWriting ch ∈ ops) := by
  constructor
  · rintro ⟨op, hop, ⟨⟩ | ⟨⟩⟩
    · exact .inl ⟨rfl, hop⟩
    · exact .inr ⟨rfl, hop⟩
  · rintro (⟨rfl, hop⟩ | ⟨rfl, hop⟩)
    · exact ⟨_, hop, .reading ch⟩
    · exact ⟨_, hop, .writing ch⟩

theorem Asked.append {ops more : List Op} {mask ch : ℕ} (h : Asked ops mask ch) :
    Asked (ops ++ more) mask ch := by
  obtain ⟨op, hop, hasks⟩ := h
  exact ⟨op, List.mem_append_left more hop, hasks⟩

theorem Asked.last {ops : List Op} {op : Op} {mask ch : ℕ} (h : op.Asks mask ch) :
    Asked (ops ++ [op]) mask ch :=
  ⟨op, by simp, h⟩

theorem asked_append_singleton {ops : List Op} {op : Op} {mask ch : ℕ} (hop : op.Asks mask ch)
    (m c : ℕ) : Asked (ops ++ [op]) m c ↔ Asked ops m c ∨ (m = mask ∧ c = ch) := by
  constructor
  · rintro ⟨op', hmem, hasks⟩
    rcases List.mem_append.mp hmem with hmem | hmem
    · exact .inl ⟨op', hmem, hasks⟩
    · rw [List.mem_singleton.mp hmem] at hasks
      cases hop <;> cases hasks <;> exact .inr ⟨rfl, rfl⟩
  · rintro (h | ⟨rfl, rfl⟩)
    · exact h.append
    · exact .last hop

theorem Op.Asks.toShort {op : Op} {mask ch : ℕ} (h : op.Asks mask ch) :
    mask ≠ 0 ∧ Muduo.toShort mask = mask := by
  cases h <;> decide

namespace EventLoop

variable {fd : ℕ → ℤ} {s : EventLoop} {order : List ℕ} {ops : List Op}

/-- The entry of every registered channel that asks for some event has the
descriptor of the channel and the events it asks for. -/
def Synced (s : EventLoop) : Prop :=
  ∀ ch, 0 ≤ (s.channel ch).index_ → (s.channel ch).events_ ≠ 0 →
    ∃ pfd, s.pollfds_[(s.channel ch).index_.toNat]? = some pfd ∧
      pfd.fd = (s.channel ch).fd_ ∧ pfd.events = (s.channel ch).events_

/-- The state after some calls. A channel holds all the events it was asked for,
its entry those of one of the calls. -/
structure After (fd : ℕ → ℤ) (ops : List Op) (s : EventLoop) (order : List ℕ) : Prop
    extends s.Represents fd order where
  listed : ∀ ch, ch ∈ order ↔ ∃ mask, Asked ops mask ch
  events : ∀ ch b, (s.channel ch).events_.testBit b = true ↔
    ∃ mask, Asked ops mask ch ∧ mask.testBit b = true
  watched : ∀ (ch i : ℕ) (pfd : PollFd), order[i]? = some ch → s.pollfds_[i]? = some pfd →
    ∃ mask : ℕ, pfd.events = mask ∧ Asked ops mask ch

theorem after_init (fd : ℕ → ℤ) : After fd [] (init fd) [] where
  toRepresents := represents_init fd
  listed := by simp [Asked]
  events := by simp [Asked, init]
  watched := by simp

theorem After.events_eq_zero (h : After fd ops s order) {ch : ℕ} (hch : ch ∉ order) :
    (s.channel ch).events_ = 0 := by
  apply Nat.eq_of_testBit_eq
  intro b
  rw [Nat.zero_testBit, Bool.eq_false_iff]
  intro hb
  obtain ⟨mask, hmask, -⟩ := (h.events ch b).mp hb
  exact hch ((h.listed ch).mpr ⟨mask, hmask⟩)

theorem After.events_enabled (h : After fd ops s order) {op : Op} {mask ch : ℕ}
    (hop : op.Asks mask ch) (c b : ℕ) :
    ((update s.channel ch { s.channel ch with
        events_ := (s.channel ch).events_ ||| mask }) c).events_.testBit b = true ↔
      ∃ m, Asked (ops ++ [op]) m c ∧ m.testBit b = true := by
  simp only [asked_append_singleton hop, or_and_right, exists_or, ← h.events]
  by_cases hc : c = ch
  · subst hc
    simp
  · simp [hc]

theorem mem_enlist (order : List ℕ) (ch c : ℕ) : c ∈ enlist order ch ↔ c ∈ order ∨ c = ch := by
  rw [enlist]
  split_ifs with hch
  · constructor
    · exact .inl
    · rintro (hc | rfl)
      · exact hc
      · exact hch
  · simp

theorem After.watched_enabled (h : After fd ops s order) {op : Op} {mask ch : ℕ}
    (hop : op.Asks mask ch) {s' : EventLoop} (hs' : Enabled fd s order mask ch s') {c j : ℕ}
    {pfd' : PollFd} (hj : (enlist order ch)[j]? = some c) (hpfd' : s'.pollfds_[j]? = some pfd') :
    ∃ m : ℕ, pfd'.events = m ∧ Asked (ops ++ [op]) m c := by
  have hkept : ∀ pfd, order[j]? = some c → s.pollfds_[j]? = some pfd →
      ∃ m : ℕ, pfd.events = m ∧ Asked (ops ++ [op]) m c := by
    intro pfd hc hpfd
    obtain ⟨m, hm, hasked⟩ := h.watched c j pfd hc hpfd
    exact ⟨m, hm, hasked.append⟩
  cases hs' with
  | registered new eq =>
    subst eq
    rw [enlist, if_neg new, List.getElem?_append] at hj
    rw [List.getElem?_append, h.length] at hpfd'
    split_ifs at hj hpfd' with hlt
    · exact hkept pfd' hj hpfd'
    · -- the new entry holds the events of this call alone
      rw [List.getElem?_singleton] at hj hpfd'
      split_ifs at hj hpfd'
      cases hj
      cases hpfd'
      rw [h.events_eq_zero new, Nat.zero_or, hop.toShort.2]
      exact ⟨mask, rfl, .last hop⟩
  | known i pfd listed entry eq =>
    subst eq
    rw [enlist, if_pos (List.mem_of_getElem? listed)] at hj
    rw [List.getElem?_set] at hpfd'
    split_ifs at hpfd' with hij hlt
    · -- the entry of the channel keeps its events
      subst hij
      cases hpfd'
      exact hkept pfd hj entry
    · exact hkept pfd' hj hpfd'

theorem After.enabled (hfd : Injective fd) (h : After fd ops s order) {op : Op} {mask ch : ℕ}
    (hop : op.Asks mask ch) {s' : EventLoop} (hs' : Enabled fd s order mask ch s') :
    After fd (ops ++ [op]) s' (enlist order ch) := by
  refine ⟨h.toRepresents.enabled hfd hs', ?_, ?_, ?_⟩
  · intro c
    simp only [mem_enlist, asked_append_singleton hop, exists_or, ← h.listed]
    simp
  · intro c b
    rw [← h.events_enabled hop]
    cases hs' with
    | registered new eq =>
      subst eq
      by_cases hc : c = ch
      · subst hc
        simp
      · simp [hc]
    | known i pfd listed entry eq =>
      subst eq
      rfl
  · intro c j pfd' hj hpfd'
    exact h.watched_enabled hop hs' hj hpfd'

theorem After.perform (hfd : Injective fd) (h : After fd ops s order) (op : Op) :
    ∃ s', s.perform op = .ok s' ∧ ∃ order', After fd (ops ++ [op]) s' order' := by
  cases op with
  | enableReading ch =>
    have hop : (Op.enableReading ch).Asks kReadEvent ch := .reading ch
    obtain ⟨s', hrun, hs'⟩ := h.toRepresents.enable hop.toShort.1 ch
    exact ⟨s', hrun, _, h.enabled hfd hop hs'⟩
  | enableWriting ch =>
    have hop : (Op.enableWriting ch).Asks kWriteEvent ch := .writing ch
    obtain ⟨s', hrun, hs'⟩ := h.toRepresents.enable hop.toShort.1 ch
    exact ⟨s', hrun, _, h.enabled hfd hop hs'⟩
  | quit =>
    have hsame : ∀ m c, Asked (ops ++ [.quit]) m c ↔ Asked ops m c := by simp [asked_iff]
    refine ⟨_, rfl, order, h.toRepresents.congr rfl rfl fun _ => ⟨rfl, rfl⟩, ?_, ?_, ?_⟩
    · simpa only [hsame] using h.listed
    · simpa only [hsame] using h.events
    · simpa only [hsame] using h.watched

theorem After.run (hfd : Injective fd) (h : After fd ops s order) (more : List Op) :
    ∃ s', Runs.run EventLoop.perform s more = .ok s' ∧
      ∃ order', After fd (ops ++ more) s' order' := by
  induction more generalizing s ops order with
  | nil => exact ⟨s, rfl, order, by simpa using h⟩
  | cons op more ih =>
    obtain ⟨s₁, hrun₁, order₁, h₁⟩ := h.perform hfd op
    rw [Runs.run_cons hrun₁, List.append_cons]
    exact ih h₁

theorem After.events_eq (h : After fd ops s order) {mask ch : ℕ} (hmask : Asked ops mask ch)
    (honly : ∀ m, Asked ops m ch → m = mask) : (s.channel ch).events_ = mask := by
  apply Nat.eq_of_testBit_eq
  intro b
  rw [Bool.eq_iff_iff, h.events]
  constructor
  · rintro ⟨m, hm, hb⟩
    rwa [← honly m hm]
  · intro hb
    exact ⟨mask, hmask, hb⟩

theorem After.not_synced (h : After fd ops s order) {ch : ℕ}
    (hread : Asked ops kReadEvent ch) (hwrite : Asked ops kWriteEvent ch) : ¬ s.Synced := by
  intro hsync
  have hlisted : ch ∈ order := (h.listed ch).mpr ⟨_, hread⟩
  obtain ⟨i, pfd, hi, hidx, hentry, -⟩ := h.exists_index hlisted
  have hr : (s.channel ch).events_.testBit 0 = true := (h.events ch 0).mpr ⟨_, hread, rfl⟩
  have hw : (s.channel ch).events_.testBit 2 = true := (h.events ch 2).mpr ⟨_, hwrite, rfl⟩
  obtain ⟨pfd', hpfd', -, hevents⟩ := hsync ch (by omega) (by
    intro hzero
    rw [hzero] at hr
    cases hr)
  rw [hidx, Int.toNat_natCast, hentry] at hpfd'
  cases hpfd'
  obtain ⟨m, hm, hasked⟩ := h.watched ch i pfd hi hentry
  have hsame : (s.channel ch).events_ = m := by exact_mod_cast hevents.symm.trans hm
  rw [hsame] at hr hw
  rcases asked_iff.mp hasked with ⟨rfl, -⟩ | ⟨rfl, -⟩
  · cases hw
  · cases hr

/-- The kernel watches what the channels ask for exactly when no channel asks for
both reading and writing. -/
theorem synced_iff (hfd : Injective fd) (ops : List Op) :
    ∃ s, Runs.run EventLoop.perform (init fd) ops = .ok s ∧
      (s.Synced ↔ ∀ ch, ¬ (.enableReading ch ∈ ops ∧ .enableWriting ch ∈ ops)) := by
  obtain ⟨s, hrun, order, h⟩ := (after_init fd).run hfd ops
  rw [List.nil_append] at h
  refine ⟨s, hrun, ?_, ?_⟩
  · rintro hsync ch ⟨hread, hwrite⟩
    exact h.not_synced ⟨_, hread, .reading ch⟩ ⟨_, hwrite, .writing ch⟩ hsync
  · intro hone ch hidx _
    obtain ⟨i, pfd, hi, hidx, hentry, hpfd⟩ := h.exists_index ((h.mem_iff ch).mpr hidx)
    obtain ⟨mask, hmask, hasked⟩ := h.watched ch i pfd hi hentry
    have honly : ∀ m, Asked ops m ch → m = mask := by
      intro m hm
      rcases asked_iff.mp hm with ⟨rfl, hread⟩ | ⟨rfl, hwrite⟩ <;>
        rcases asked_iff.mp hasked with ⟨rfl, hread'⟩ | ⟨rfl, hwrite'⟩
      · rfl
      · exact absurd ⟨hread, hwrite'⟩ (hone ch)
      · exact absurd ⟨hread', hwrite⟩ (hone ch)
      · rfl
    refine ⟨pfd, ?_, hpfd.trans (h.descriptor ch).symm, ?_⟩
    · rw [hidx, Int.toNat_natCast, hentry]
    · rw [hmask, h.events_eq hasked honly]

/-- A channel that reads and another that writes. -/
theorem synced_iff_separate :
    ∃ s, Runs.run EventLoop.perform (init fun ch => ch) [.enableReading 3, .enableWriting 5] =
      .ok s ∧ s.Synced := by
  obtain ⟨s, hrun, hiff⟩ := synced_iff Nat.cast_injective [.enableReading 3, .enableWriting 5]
  exact ⟨s, hrun, hiff.mpr (by simp)⟩

/-- One channel that reads first and is then asked to write as well: its entry
still has the events of reading alone. -/
theorem write_interest_lost :
    ∃ s, Runs.run EventLoop.perform (init fun ch => ch) [.enableReading 3, .enableWriting 3] =
      .ok s ∧ (s.channel 3).events_ = 7 ∧ s.pollfds_ = [⟨3, 3, 0⟩] ∧ ¬ s.Synced := by
  refine ⟨_, rfl, rfl, rfl, ?_⟩
  intro hsync
  obtain ⟨pfd, hpfd, -, hevents⟩ := hsync 3 (by decide) (by decide)
  cases hpfd
  exact absurd hevents (by decide)

end EventLoop
end NetworkPrograms.Muduo
