import NetworkPrograms.Muduo.Poller

/-!
# Registered channels

The vector `pollfds_`, the map `Channels_` and the indices kept in the channels
all represent one thing: the list of the registered channels in the order of
their registration. Every operation keeps the representation, so none of the
assertions can fail.
-/
namespace NetworkPrograms.Muduo

open Function

/-- The state represents the list `order` of registered channels, when the
channels have been constructed with the descriptors `fd`. -/
structure EventLoop.Represents (fd : ℕ → ℤ) (s : EventLoop) (order : List ℕ) : Prop where
  descriptor : ∀ ch, (s.channel ch).fd_ = fd ch
  entries : s.pollfds_.map PollFd.fd = order.map fd
  index : ∀ ch i : ℕ, order[i]? = some ch ↔ (s.channel ch).index_ = i
  unlisted : ∀ ch, ch ∉ order → (s.channel ch).index_ < 0
  found : ∀ f ch, s.Channels_ f = some ch ↔ ch ∈ order ∧ fd ch = f

namespace EventLoop

variable {fd : ℕ → ℤ} {s : EventLoop} {order : List ℕ}

theorem represents_init (fd : ℕ → ℤ) : (init fd).Represents fd [] where
  descriptor := fun _ => rfl
  entries := rfl
  index := by
    intro ch i
    simp [init]
  unlisted := by
    intro ch _
    simp [init]
  found := by simp [init]

theorem Represents.length (h : s.Represents fd order) : s.pollfds_.length = order.length := by
  have := congrArg List.length h.entries
  simpa using this

theorem Represents.nodup (h : s.Represents fd order) : order.Nodup := by
  rw [List.nodup_iff_injective_get]
  intro i j hij
  have hi := (h.index (order.get i) i).mp (by simp)
  have hj := (h.index (order.get j) j).mp (by simp)
  rw [hij, hj] at hi
  exact Fin.ext (by exact_mod_cast hi.symm)

theorem Represents.exists_index (h : s.Represents fd order) {ch : ℕ} (hch : ch ∈ order) :
    ∃ (i : ℕ) (pfd : PollFd), order[i]? = some ch ∧ (s.channel ch).index_ = i ∧
      s.pollfds_[i]? = some pfd ∧ pfd.fd = fd ch := by
  obtain ⟨i, hi⟩ := List.mem_iff_getElem?.mp hch
  have hentry : (s.pollfds_.map PollFd.fd)[i]? = some (fd ch) := by
    rw [h.entries, List.getElem?_map, hi]
    rfl
  rw [List.getElem?_map] at hentry
  obtain ⟨pfd, hpfd, hfd⟩ := Option.map_eq_some_iff.mp hentry
  exact ⟨i, pfd, hi, (h.index ch i).mp hi, hpfd, hfd⟩

theorem Represents.mem_iff (h : s.Represents fd order) (ch : ℕ) :
    ch ∈ order ↔ 0 ≤ (s.channel ch).index_ := by
  constructor
  · intro hch
    obtain ⟨i, -, -, hi, -⟩ := h.exists_index hch
    omega
  · intro hi
    by_contra hch
    have := h.unlisted ch hch
    omega

/-- The representation rests on the descriptors of the entries, the map, and the
descriptor and index of every channel. -/
theorem Represents.congr (h : s.Represents fd order) {s' : EventLoop}
    (hfds : s'.pollfds_.map PollFd.fd = s.pollfds_.map PollFd.fd)
    (hmap : s'.Channels_ = s.Channels_)
    (hchan : ∀ ch, (s'.channel ch).fd_ = (s.channel ch).fd_ ∧
      (s'.channel ch).index_ = (s.channel ch).index_) : s'.Represents fd order where
  descriptor := fun ch => (hchan ch).1.trans (h.descriptor ch)
  entries := hfds.trans h.entries
  index := fun ch i => by rw [(hchan ch).2, h.index]
  unlisted := fun ch hch => by
    rw [(hchan ch).2]
    exact h.unlisted ch hch
  found := fun f ch => by rw [hmap, h.found]

/-- All that asking for events does. A new channel gets an entry at the end; the
entry of a known one is left as it is, but for `revents`. -/
inductive Enabled (fd : ℕ → ℤ) (s : EventLoop) (order : List ℕ) (mask ch : ℕ) (s' : EventLoop) :
    Prop where
  | registered (new : ch ∉ order)
      (eq : s' = { s with
        pollfds_ := s.pollfds_ ++ [⟨fd ch, toShort ((s.channel ch).events_ ||| mask), 0⟩]
        channel := update s.channel ch { s.channel ch with
          events_ := (s.channel ch).events_ ||| mask, index_ := (order.length : ℤ) }
        Channels_ := update s.Channels_ (fd ch) (some ch) })
  | known (i : ℕ) (pfd : PollFd) (listed : order[i]? = some ch)
      (entry : s.pollfds_[i]? = some pfd)
      (eq : s' = { s with
        pollfds_ := s.pollfds_.set i { pfd with revents := 0 }
        channel := update s.channel ch { s.channel ch with
          events_ := (s.channel ch).events_ ||| mask } })

theorem check_of {p : Prop} [Decidable p] {a : Assertion} (h : p) : check p a = .ok () := if_pos h

theorem Represents.enable (h : s.Represents fd order) {mask : ℕ} (hmask : mask ≠ 0) (ch : ℕ) :
    ∃ s', s.enable mask ch = .ok s' ∧ Enabled fd s order mask ch s' := by
  by_cases hch : ch ∈ order
  · obtain ⟨i, pfd, hi, hidx, hentry, hfd⟩ := h.exists_index hch
    have hfound : s.Channels_ (s.channel ch).fd_ = some ch :=
      (h.found _ _).mpr ⟨hch, (h.descriptor ch).symm⟩
    have hsome : (s.channel ch).events_ ||| mask ≠ kNoneEvent := by
      intro hzero
      exact hmask (Nat.or_eq_zero_iff.mp hzero).2
    refine ⟨_, ?_, .known i pfd hi hentry rfl⟩
    have hneg : ¬ (s.channel ch).index_ < 0 := by omega
    have hnat : (s.channel ch).index_.toNat = i := by omega
    simp only [EventLoop.enable, updateChannel, update_self]
    rw [if_neg hneg, check_of (by rw [hfound]; rfl), check_of hfound]
    simp only [hnat, hentry, bind, Except.bind]
    rw [check_of (.inl (hfd.trans (h.descriptor ch).symm)), if_neg hsome]
  · refine ⟨_, ?_, .registered hch rfl⟩
    simp only [EventLoop.enable, updateChannel, update_self]
    rw [if_pos (h.unlisted ch hch)]
    simp [h.descriptor, h.length]

/-- A channel that is listed is not listed again. -/
def enlist (order : List ℕ) (ch : ℕ) : List ℕ := if ch ∈ order then order else order ++ [ch]

theorem getElem?_concat_iff {α : Type*} {l : List α} {a b : α} {i : ℕ} :
    (l ++ [a])[i]? = some b ↔ l[i]? = some b ∨ (i = l.length ∧ a = b) := by
  rcases lt_trichotomy i l.length with hi | rfl | hi
  · simp [List.getElem?_append_left hi, hi.ne]
  · simp
  · simp [hi.le, hi, hi.ne']

theorem Represents.registered (hfd : Injective fd) (h : s.Represents fd order) {ch : ℕ}
    (new : ch ∉ order) (events : ℕ) (pfd : PollFd) (hpfd : pfd.fd = fd ch) :
    { s with
      pollfds_ := s.pollfds_ ++ [pfd]
      channel := update s.channel ch
        { s.channel ch with events_ := events, index_ := (order.length : ℤ) }
      Channels_ := update s.Channels_ (fd ch) (some ch) }.Represents fd (order ++ [ch]) where
  descriptor := by
    intro c
    by_cases hc : c = ch
    · subst hc
      simpa using h.descriptor c
    · simpa [hc] using h.descriptor c
  entries := by simp [h.entries, hpfd]
  index := by
    intro c i
    rw [getElem?_concat_iff]
    by_cases hc : c = ch
    · subst hc
      simp only [update_self]
      constructor
      · rintro (hi | ⟨rfl, -⟩)
        · exact absurd (List.mem_of_getElem? hi) new
        · rfl
      · intro hi
        exact .inr ⟨by omega, trivial⟩
    · simp [hc, Ne.symm hc, h.index]
  unlisted := by
    intro c hc
    simp only [List.mem_append, List.mem_singleton, not_or] at hc
    simp only [update_of_ne hc.2]
    exact h.unlisted c hc.1
  found := by
    intro f c
    simp only [List.mem_append, List.mem_singleton]
    by_cases hf : f = fd ch
    · subst hf
      simp only [update_self, Option.some.injEq]
      constructor
      · rintro rfl
        exact ⟨.inr rfl, rfl⟩
      · rintro ⟨-, hc⟩
        exact (hfd hc).symm
    · simp only [update_of_ne hf, h.found]
      constructor
      · rintro ⟨hc, hcf⟩
        exact ⟨.inl hc, hcf⟩
      · rintro ⟨hc | rfl, hcf⟩
        · exact ⟨hc, hcf⟩
        · exact absurd hcf.symm hf

theorem Represents.enabled (hfd : Injective fd) (h : s.Represents fd order) {mask ch : ℕ}
    {s' : EventLoop} (hs' : Enabled fd s order mask ch s') :
    s'.Represents fd (enlist order ch) := by
  cases hs' with
  | registered new eq =>
    subst eq
    rw [enlist, if_neg new]
    exact h.registered hfd new _ _ rfl
  | known i pfd listed entry eq =>
    subst eq
    rw [enlist, if_pos (List.mem_of_getElem? listed)]
    obtain ⟨hi, rfl⟩ := List.getElem?_eq_some_iff.mp entry
    apply h.congr
    · have hi' : i < (s.pollfds_.map PollFd.fd).length := by simpa using hi
      have hset := List.set_getElem_self hi'
      rw [List.getElem_map] at hset
      simpa only [List.map_set] using hset
    · rfl
    · intro c
      by_cases hc : c = ch
      · subst hc
        simp
      · simp [hc]

/-! ## Runs -/

/-- What a callback leaves behind: a representation, and the channels under
dispatch and their reported events as they were. -/
structure Worked (fd : ℕ → ℤ) (s s' : EventLoop) : Prop where
  represents : ∃ order, s'.Represents fd order
  handled : s'.handled = s.handled
  active : s'.activeChannels_ = s.activeChannels_
  revents : ∀ ch, (s'.channel ch).revents_ = (s.channel ch).revents_

theorem Worked.refl (h : s.Represents fd order) : Worked fd s s :=
  ⟨⟨order, h⟩, rfl, rfl, fun _ => rfl⟩

theorem Worked.trans {a b c : EventLoop} (hab : Worked fd a b) (hbc : Worked fd b c) :
    Worked fd a c where
  represents := hbc.represents
  handled := hbc.handled.trans hab.handled
  active := hbc.active.trans hab.active
  revents := fun ch => (hbc.revents ch).trans (hab.revents ch)

theorem Enabled.worked (hfd : Injective fd) (h : s.Represents fd order) {mask ch : ℕ}
    {s' : EventLoop} (hs' : Enabled fd s order mask ch s') : Worked fd s s' := by
  refine ⟨⟨_, h.enabled hfd hs'⟩, ?_, ?_, fun c => ?_⟩
  · cases hs' <;> subst_vars <;> rfl
  · cases hs' <;> subst_vars <;> rfl
  · have hcase : c = ch ∨ c ≠ ch := eq_or_ne c ch
    cases hs' <;> subst_vars <;> rcases hcase with rfl | hc
    · simp
    · simp [hc]
    · simp
    · simp [hc]

theorem perform_worked (hfd : Injective fd) (h : s.Represents fd order) (op : Op) :
    ∃ s', s.perform op = .ok s' ∧ Worked fd s s' := by
  cases op with
  | enableReading ch =>
    obtain ⟨s', hrun, hs'⟩ := h.enable (show kReadEvent ≠ 0 by decide) ch
    exact ⟨s', hrun, hs'.worked hfd h⟩
  | enableWriting ch =>
    obtain ⟨s', hrun, hs'⟩ := h.enable (show kWriteEvent ≠ 0 by decide) ch
    exact ⟨s', hrun, hs'.worked hfd h⟩
  | quit => exact ⟨_, rfl, ⟨order, h.congr rfl rfl fun _ => ⟨rfl, rfl⟩⟩, rfl, rfl, fun _ => rfl⟩

theorem callback_worked (hfd : Injective fd) (h : s.Represents fd order) (user : ℕ → List Op) :
    ∃ s', s.callback user = .ok s' ∧ Worked fd s s' := by
  apply Runs.run_invariant_of_forall (Worked fd s)
  · intro t op ht
    obtain ⟨order', ht'⟩ := ht.represents
    obtain ⟨t', hrun, hwork⟩ := perform_worked hfd ht' op
    exact ⟨t', hrun, ht.trans hwork⟩
  · exact ⟨⟨order, h.congr rfl rfl fun _ => ⟨rfl, rfl⟩⟩, rfl, rfl, fun _ => rfl⟩

theorem callbackOn_worked (hfd : Injective fd) (h : s.Represents fd order) (user : ℕ → List Op)
    (ch mask : ℕ) : ∃ s', s.callbackOn user ch mask = .ok s' ∧ Worked fd s s' := by
  rw [callbackOn]
  split_ifs
  · exact callback_worked hfd h user
  · exact ⟨s, rfl, .refl h⟩

theorem handleEvent_worked (hfd : Injective fd) (h : s.Represents fd order)
    (user : ℕ → List Op) (ch : ℕ) :
    ∃ s', s.handleEvent user ch = .ok s' ∧
      Worked fd { s with handled := s.handled ++ [(ch, (s.channel ch).revents_)] } s' := by
  have h₀ : { s with
      handled := s.handled ++ [(ch, (s.channel ch).revents_)] }.Represents fd order :=
    h.congr rfl rfl fun _ => ⟨rfl, rfl⟩
  obtain ⟨s₁, hrun₁, hwork₁⟩ := callbackOn_worked hfd h₀ user ch (POLLERR ||| POLLNVAL)
  obtain ⟨_, h₁⟩ := hwork₁.represents
  obtain ⟨s₂, hrun₂, hwork₂⟩ :=
    callbackOn_worked hfd h₁ user ch (POLLIN ||| POLLPRI ||| POLLRDHUP)
  obtain ⟨_, h₂⟩ := hwork₂.represents
  obtain ⟨s₃, hrun₃, hwork₃⟩ := callbackOn_worked hfd h₂ user ch POLLOUT
  refine ⟨s₃, ?_, (hwork₁.trans hwork₂).trans hwork₃⟩
  simp only [handleEvent, hrun₁, hrun₂, hrun₃, bind, Except.bind]

theorem Represents.report (h : s.Represents fd order) (ch : ℕ) (revents : ℤ) :
    (s.report ch revents).Represents fd order := by
  refine h.congr rfl rfl fun c => ?_
  by_cases hc : c = ch
  · subst hc
    simp [EventLoop.report]
  · simp [EventLoop.report, hc]

/-- The channels that a scan of the entries puts on the active list, with the
events reported for them. -/
def reported (pfds : List PollFd) (chs : List ℕ) (numEvents : ℤ) : List (ℕ × ℤ) :=
  ((chs.zip (pfds.map PollFd.revents)).filter fun p => 0 < p.2).take numEvents.toNat

theorem Represents.fillActiveChannels (h : s.Represents fd order) {pfds : List PollFd}
    {chs : List ℕ} (hchs : ∀ ch ∈ chs, ch ∈ order) (hpfds : pfds.map PollFd.fd = chs.map fd)
    (numEvents : ℤ) :
    EventLoop.fillActiveChannels pfds numEvents s =
      .ok ((reported pfds chs numEvents).foldl (fun s p => s.report p.1 p.2) s) := by
  induction pfds generalizing s chs numEvents with
  | nil => simp [EventLoop.fillActiveChannels, reported]
  | cons pfd pfds ih =>
    cases chs with
    | nil => simp at hpfds
    | cons ch chs =>
      simp only [List.map_cons, List.cons.injEq] at hpfds
      have hrest : ∀ c ∈ chs, c ∈ order := fun c hc => hchs c (by simp [hc])
      rw [EventLoop.fillActiveChannels]
      split_ifs with hnum hpos
      · have hfound : s.Channels_ pfd.fd = some ch :=
          (h.found _ _).mpr ⟨hchs ch (by simp), hpfds.1.symm⟩
        have hfd : (s.channel ch).fd_ = pfd.fd := (h.descriptor ch).trans hpfds.1.symm
        have hcount : numEvents.toNat = (numEvents - 1).toNat + 1 := by omega
        simp only [hfound, check_of hfd, bind, Except.bind]
        rw [ih (h.report ch pfd.revents) hrest hpfds.2]
        simp only [reported, hcount, hpos, List.map_cons, List.zip_cons_cons, decide_true,
          List.filter_cons_of_pos, List.take_succ_cons, List.foldl_cons]
      · rw [ih h hrest hpfds.2]
        simp [reported, hpos]
      · have hcount : numEvents.toNat = 0 := by omega
        simp [reported, hcount]

theorem Represents.foldl_report (h : s.Represents fd order) (ps : List (ℕ × ℤ)) :
    (ps.foldl (fun s p => s.report p.1 p.2) s).Represents fd order := by
  induction ps generalizing s with
  | nil => exact h
  | cons p ps ih => exact ih (h.report p.1 p.2)

theorem Represents.map_answer (h : s.Represents fd order) (r : Polled) :
    (s.answer r).pollfds_.map PollFd.fd = order.map fd := by
  rw [← h.entries]
  apply List.ext_getElem <;> simp [EventLoop.answer]

theorem Represents.answer (h : s.Represents fd order) (r : Polled) :
    (s.answer r).Represents fd order :=
  h.congr ((h.map_answer r).trans h.entries.symm) rfl fun _ => ⟨rfl, rfl⟩

theorem Represents.poll (h : s.Represents fd order) (r : Polled) :
    s.poll r = .ok ((reported (s.answer r).pollfds_ order r.numEvents).foldl
      (fun s p => s.report p.1 p.2) (s.answer r)) := by
  rw [EventLoop.poll]
  split_ifs with hnum
  · exact (h.answer r).fillActiveChannels (fun _ hch => hch) (h.map_answer r) r.numEvents
  · have hzero : r.numEvents.toNat = 0 := by omega
    simp [reported, hzero]

theorem Represents.iterate (hfd : Injective fd) (h : s.Represents fd order)
    (user : ℕ → List Op) (r : Polled) :
    ∃ s', s.iterate user r = .ok s' ∧ ∃ order', s'.Represents fd order' := by
  have h₀ : { s with activeChannels_ := [] }.Represents fd order :=
    h.congr rfl rfl fun _ => ⟨rfl, rfl⟩
  simp only [EventLoop.iterate, h₀.poll r, bind, Except.bind]
  apply Runs.run_invariant_of_forall (fun t : EventLoop => ∃ order', t.Represents fd order')
  · rintro t ch ⟨order', ht⟩
    obtain ⟨t', hrun, hwork⟩ := handleEvent_worked hfd ht user ch
    exact ⟨t', hrun, hwork.represents⟩
  · exact ⟨order, (h₀.answer r).foldl_report _⟩

theorem Represents.step (hfd : Injective fd) (h : s.Represents fd order) (user : ℕ → List Op)
    (t : Turn) : ∃ s', s.step user t = .ok s' ∧ ∃ order', s'.Represents fd order' := by
  cases t with
  | call op =>
    obtain ⟨s', hrun, hwork⟩ := perform_worked hfd h op
    exact ⟨s', hrun, hwork.represents⟩
  | loop =>
    refine ⟨_, rfl, order, ?_⟩
    split_ifs
    · exact h
    · exact h.congr rfl rfl fun _ => ⟨rfl, rfl⟩
  | round r =>
    rw [EventLoop.step]
    split_ifs
    · exact ⟨s, rfl, order, h⟩
    · exact ⟨_, rfl, order, h.congr rfl rfl fun _ => ⟨rfl, rfl⟩⟩
    · exact h.iterate hfd user r

theorem run_represents (hfd : Injective fd) (user : ℕ → List Op) (turns : List Turn) :
    ∃ s, EventLoop.run fd user turns = .ok s ∧ ∃ order, s.Represents fd order := by
  apply Runs.run_invariant_of_forall (fun s : EventLoop => ∃ order, s.Represents fd order)
  · rintro s t ⟨order, h⟩
    exact h.step hfd user t
  · exact ⟨[], represents_init fd⟩

/-- The registered channels are in bijection with the positions of `pollfds_`, each
position holds the descriptor of its channel, and the map holds the same channels. -/
structure Consistent (s : EventLoop) : Prop where
  position : ∀ ch, 0 ≤ (s.channel ch).index_ → (s.channel ch).index_ < s.pollfds_.length
  channelAt : ∀ i : ℕ, i < s.pollfds_.length → ∃! ch, (s.channel ch).index_ = i
  entry : ∀ ch, 0 ≤ (s.channel ch).index_ →
    s.pollfds_[(s.channel ch).index_.toNat]?.map PollFd.fd = some (s.channel ch).fd_
  map : ∀ f ch, s.Channels_ f = some ch ↔ 0 ≤ (s.channel ch).index_ ∧ (s.channel ch).fd_ = f

theorem Represents.consistent (h : s.Represents fd order) : s.Consistent where
  position := by
    intro ch hidx
    obtain ⟨i, pfd, -, hi, hentry, -⟩ := h.exists_index ((h.mem_iff ch).mpr hidx)
    have := (List.getElem?_eq_some_iff.mp hentry).1
    omega
  channelAt := by
    intro i hi
    rw [h.length] at hi
    refine ⟨order.get ⟨i, hi⟩, (h.index _ _).mp (by simp), ?_⟩
    intro ch hch
    have hlisted := (h.index ch i).mpr hch
    rw [List.getElem?_eq_getElem hi] at hlisted
    exact (Option.some.inj hlisted).symm
  entry := by
    intro ch hidx
    obtain ⟨i, pfd, -, hi, hentry, hfd⟩ := h.exists_index ((h.mem_iff ch).mpr hidx)
    rw [hi, Int.toNat_natCast, hentry, h.descriptor]
    simp [hfd]
  map := by
    intro f ch
    rw [h.found, h.mem_iff, h.descriptor]

/-- No assertion fails in any run, and every run ends in a consistent state. A state
inside a round is that of a run whose later callbacks do nothing. -/
theorem run_consistent (hfd : Injective fd) (user : ℕ → List Op) (turns : List Turn) :
    ∃ s, EventLoop.run fd user turns = .ok s ∧ s.Consistent := by
  obtain ⟨s, hrun, order, h⟩ := run_represents hfd user turns
  exact ⟨s, hrun, h.consistent⟩

/-- Two channels, the second registered by the read callback of the first. -/
theorem run_consistent_from_callback :
    ∃ s, EventLoop.run (fun ch => ch) (fun _ => [.enableReading 5, .enableWriting 3])
      [.call (.enableReading 3), .loop, .round ⟨1, fun _ => 1⟩] = .ok s ∧ s.Consistent :=
  run_consistent Nat.cast_injective _ _

end EventLoop
end NetworkPrograms.Muduo
