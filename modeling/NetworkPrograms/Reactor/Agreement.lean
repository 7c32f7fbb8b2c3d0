import NetworkPrograms.Reactor.Isolation

/-!
# The two reactor programs

`test.c` and `epoll反应堆.c` on the same answers of the kernel. They agree as long
as new clients are put into slot 0 only: in any other slot the second program
stores the address of slot 0 as the argument, and the two tables differ for good.
-/
namespace NetworkPrograms.Reactor

open Function

/-- How a program ties client slots to arguments: an argument is a client slot
that is its own argument. -/
def Program.Closed (P : Program) : Prop :=
  ∀ i, i < MAX_EVENTS → P.arg i < MAX_EVENTS ∧ P.arg (P.arg i) = P.arg i

theorem closed_test : test.Closed := fun _ hi => ⟨hi, rfl⟩

theorem closed_epollReactor (op : ℕ) : (epollReactor op).Closed :=
  fun _ _ => ⟨Nat.zero_lt_succ _, rfl⟩

/-- A client slot that was never used, or one that has a callback and the
argument of its program. -/
def MyEvent.Tied (P : Program) (e : MyEvent) (i : ℕ) : Prop :=
  e.arg = none ∧ e.call_back = none ∧ e.events = 0 ∨
    e.arg = some (P.arg i) ∧ (e.call_back = some .recvdata ∨ e.call_back = some .senddata)

/-- What either program keeps, whatever the kernel does. The slots in `used` are
known to have been used. -/
structure State.Tied (P : Program) (used : Set ℕ) (s : State) : Prop where
  listening : (s.g_events MAX_EVENTS).call_back = some .acceptconn
  mask : (s.g_events MAX_EVENTS).events = EPOLLIN
  client : ∀ i, i < MAX_EVENTS → (s.g_events i).Tied P i
  used : ∀ i ∈ used, (s.g_events i).arg ≠ none
  registered : ∀ fd r, s.interest fd = some r → r.1 ≤ MAX_EVENTS

section Tied

variable {P : Program} {used : Set ℕ} {s : State}

theorem State.Tied.congr (h : s.Tied P used) {s' : State}
    (harg : ∀ i, (s'.g_events i).arg = (s.g_events i).arg)
    (hcb : ∀ i, (s'.g_events i).call_back = (s.g_events i).call_back)
    (hev : ∀ i, (s'.g_events i).events = (s.g_events i).events)
    (hreg : ∀ fd r, s'.interest fd = some r → r.1 ≤ MAX_EVENTS) : s'.Tied P used where
  listening := (hcb _).trans h.listening
  mask := (hev _).trans h.mask
  client := fun i hi => by
    rw [MyEvent.Tied, harg, hcb, hev]
    exact h.client i hi
  used := fun i hi => harg i ▸ h.used i hi
  registered := hreg

theorem State.Tied.setSlot (h : s.Tied P used) (ev : ℕ) (e : MyEvent)
    (harg : e.arg = (s.g_events ev).arg) (hcb : e.call_back = (s.g_events ev).call_back)
    (hev : e.events = (s.g_events ev).events) (log : List SysCall) :
    State.Tied P used { s with g_events := update s.g_events ev e, log := log } := by
  refine h.congr (fun i => ?_) (fun i => ?_) (fun i => ?_) h.registered
  all_goals
    rcases eq_or_ne i ev with rfl | hne
    · simpa using ‹_›
    · simp [update_of_ne hne]

theorem State.Tied.epoll_ctl (h : s.Tied P used) (op fd : ℕ) (epv : Option (ℕ × ℕ))
    (hepv : ∀ r, epv = some r → r.1 ≤ MAX_EVENTS) : (s.epoll_ctl op fd epv).Tied P used := by
  have hput : ∀ o : Option (ℕ × ℕ), (∀ r, o = some r → r.1 ≤ MAX_EVENTS) →
      ∀ fd' r, update s.interest fd o fd' = some r → r.1 ≤ MAX_EVENTS := by
    intro o ho fd' r hr
    rcases eq_or_ne fd' fd with rfl | hne
    · rw [update_self] at hr
      exact ho r hr
    · rw [update_of_ne hne] at hr
      exact h.registered fd' r hr
  unfold State.epoll_ctl
  simp only
  split_ifs
  · exact h.congr (fun _ => rfl) (fun _ => rfl) (fun _ => rfl) (hput epv hepv)
  · exact h.congr (fun _ => rfl) (fun _ => rfl) (fun _ => rfl) (hput none (by simp))
  · exact h.congr (fun _ => rfl) (fun _ => rfl) (fun _ => rfl) h.registered

theorem State.Tied.eventdel (h : s.Tied P used) (ev : ℕ) : (s.eventdel ev).Tied P used := by
  unfold State.eventdel
  simp only
  split_ifs
  · exact h
  · exact (h.setSlot ev { s.g_events ev with status := 0 } rfl rfl rfl s.log).epoll_ctl
      EPOLL_CTL_DEL _ none (by simp)

theorem State.Tied.close (h : s.Tied P used) (fd : ℕ) : (s.close fd).Tied P used := by
  refine h.congr (fun _ => rfl) (fun _ => rfl) (fun _ => rfl) fun fd' r hr => ?_
  simp only [State.close] at hr
  rcases eq_or_ne fd' fd with rfl | hne
  · simp at hr
  · rw [update_of_ne hne] at hr
    exact h.registered fd' r hr

theorem State.Tied.arm (h : s.Tied P used) {ev : ℕ} (hev : ev < MAX_EVENTS) (fd : ℕ)
    {call_back : CallBack} (hcb : call_back = .recvdata ∨ call_back = .senddata) {arg : ℕ}
    (harg : arg = P.arg ev) (Q : Program) (events : ℕ) :
    ((s.eventset ev fd call_back arg).eventadd Q events ev).Tied P (insert ev used) := by
  have harmed : State.Tied P (insert ev used) { s with
      g_events := update s.g_events ev ((s.g_events ev).armed fd call_back arg events) } := by
    refine ⟨?_, ?_, fun i hi => ?_, fun i hi => ?_, h.registered⟩ <;> simp only
    · rw [update_of_ne (ne_of_gt hev)]
      exact h.listening
    · rw [update_of_ne (ne_of_gt hev)]
      exact h.mask
    · rcases eq_or_ne i ev with rfl | hne
      · rw [update_self]
        exact .inr ⟨congrArg some harg, by simpa [MyEvent.armed] using hcb⟩
      · rw [update_of_ne hne]
        exact h.client i hi
    · rcases eq_or_ne i ev with rfl | hne
      · simp [MyEvent.armed]
      · rw [update_of_ne hne]
        exact h.used i (Set.mem_of_mem_insert_of_ne hi hne)
  rw [eventadd_eventset]
  refine harmed.epoll_ctl _ _ _ fun r hr => ?_
  cases hr
  exact hev.le

theorem State.Tied.mono (h : s.Tied P used) {fewer : Set ℕ} (hsub : fewer ⊆ used) :
    s.Tied P fewer := ⟨h.listening, h.mask, h.client, fun i hi => h.used i (hsub hi), h.registered⟩

theorem State.Tied.recvdata (h : s.Tied P used) {ev : ℕ} (hev : ev < MAX_EVENTS)
    (hself : P.arg ev = ev) (Q : Program) (fd : ℕ) (a : Answers) :
    (s.recvdata Q fd ev a).Tied P used := by
  unfold State.recvdata
  simp only
  have hrecv := (h.setSlot ev { s.g_events ev with
    buf := fun i => ((a.received.getD [])[i]?).getD ((s.g_events ev).buf i) } rfl rfl rfl
    (.recv fd a.received :: s.log)).eventdel ev
  split_ifs
  · refine (State.Tied.arm ?_ hev fd (.inr rfl) hself.symm Q EPOLLOUT).mono (Set.subset_insert _ _)
    refine hrecv.setSlot ev _ ?_ ?_ ?_ _ <;> unfold MyEvent.storeNul <;> split_ifs <;> rfl
  · exact hrecv.close _

theorem State.Tied.senddata (h : s.Tied P used) {ev : ℕ} (hev : ev < MAX_EVENTS)
    (hself : P.arg ev = ev) (Q : Program) (fd : ℕ) (a : Answers) :
    (s.senddata Q fd ev a).Tied P used := by
  unfold State.senddata
  simp only
  have hsend : State.Tied P used
      { s with log := .send fd (s.g_events ev).contents (a.sent (s.g_events ev).len) :: s.log } :=
    h.congr (fun _ => rfl) (fun _ => rfl) (fun _ => rfl) h.registered
  split_ifs
  · exact ((hsend.eventdel ev).arm hev fd (.inl rfl) hself.symm Q EPOLLIN).mono
      (Set.subset_insert _ _)
  · exact (hsend.eventdel ev).close _

theorem State.Tied.acceptconn (h : s.Tied P used) (a : Answers) :
    (s.acceptconn P a).Tied P used := by
  unfold State.acceptconn
  split
  · exact h
  · rename_i cfd hcfd
    have hopen : State.Tied P used
        { s with opened := update s.opened cfd true, log := .accept cfd :: s.log } :=
      h.congr (fun _ => rfl) (fun _ => rfl) (fun _ => rfl) h.registered
    simp only
    split_ifs with hfull
    · exact hopen
    · exact hopen
    · have hlt := ((freeSlot_spec s.g_events).resolve_left hfull).1
      exact (hopen.arm hlt cfd (.inl rfl) rfl P EPOLLIN).mono (Set.subset_insert _ _)

theorem State.Tied.call (h : s.Tied P used) (hP : P.Closed) {p : ℕ} (hp : p ≤ MAX_EVENTS)
    (hm : (s.g_events p).events ≠ 0) (a : Answers) :
    ∃ s', s.call P p a = .ok s' ∧ s'.Tied P used := by
  rcases eq_or_lt_of_le hp with rfl | hlt
  · exact ⟨_, by simp [State.call, h.listening], h.acceptconn a⟩
  · obtain ⟨harg, hself⟩ := hP p hlt
    rcases h.client p hlt with ⟨-, -, h0⟩ | ⟨ha, hcb | hcb⟩
    · exact absurd h0 hm
    · exact ⟨_, by simp [State.call, hcb, ha], h.recvdata harg hself P (s.g_events p).fd a⟩
    · exact ⟨_, by simp [State.call, hcb, ha], h.senddata harg hself P (s.g_events p).fd a⟩

theorem events_ne_zero {e m : ℕ} (h : e &&& m ≠ 0) : e ≠ 0 := by
  rintro rfl
  exact h (Nat.zero_and m)

theorem State.Tied.trigger (h : s.Tied P used) (hP : P.Closed) {p : ℕ} (hp : p ≤ MAX_EVENTS)
    (events mask : ℕ) (a : Answers) :
    ∃ s', s.trigger P p events mask a = .ok s' ∧ s'.Tied P used := by
  unfold State.trigger
  split_ifs with hm
  · exact h.call hP hp (events_ne_zero hm.2) a
  · exact ⟨s, rfl, h⟩

theorem State.Tied.dispatch (h : s.Tied P used) (hP : P.Closed) {p : ℕ} (hp : p ≤ MAX_EVENTS)
    (events : ℕ) (a b : Answers) :
    ∃ s', s.dispatch P p events a b = .ok s' ∧ s'.Tied P used := by
  obtain ⟨s₁, hrun, h₁⟩ := h.trigger hP hp events EPOLLIN a
  rw [State.dispatch, hrun]
  exact h₁.trigger hP hp events EPOLLOUT b

theorem initlistensocket_tied (P : Program) (lfd : ℕ) : (initlistensocket P lfd).Tied P ∅ := by
  rw [initlistensocket_eq]
  refine ⟨by simp [MyEvent.armed], by simp [MyEvent.armed], fun i hi => ?_, by simp,
    fun fd r hr => ?_⟩
  · simp only [update_of_ne (ne_of_lt hi)]
    exact .inl ⟨rfl, rfl, rfl⟩
  · simp only at hr
    rcases eq_or_ne fd lfd with rfl | hne
    · rw [update_self] at hr
      cases hr
      exact le_rfl
    · simp [update_of_ne hne] at hr

end Tied

/-- The same between two callbacks. -/
structure Config.Tied (P : Program) (used : Set ℕ) (c : Config) : Prop where
  state : c.state.Tied P used
  pending : ∀ r ∈ c.pending, r.1 ≤ MAX_EVENTS

theorem Config.tied_init (P : Program) (lfd : ℕ) :
    Config.Tied P ∅ ⟨initlistensocket P lfd, []⟩ := ⟨initlistensocket_tied P lfd, by simp⟩

theorem Config.Tied.step {P : Program} (hP : P.Closed) {used : Set ℕ} {c : Config}
    (h : c.Tied P used) (inp : Input) : ∃ c', c.step P inp = .ok c' ∧ c'.Tied P used := by
  obtain ⟨s, pending⟩ := c
  cases inp with
  | wait ready =>
    cases pending with
    | nil =>
      refine ⟨_, rfl, h.state, fun q hq => ?_⟩
      obtain ⟨r, -, hmap⟩ := List.mem_filterMap.mp hq
      obtain ⟨e, he, rfl⟩ := Option.map_eq_some_iff.mp hmap
      exact h.state.registered r.1 e he
    | cons r rest => exact ⟨_, rfl, h⟩
  | dispatch a b =>
    cases pending with
    | nil => exact ⟨_, rfl, h⟩
    | cons r rest =>
      obtain ⟨s', hrun, hs'⟩ := h.state.dispatch hP (h.pending r (by simp)) r.2 a b
      refine ⟨⟨s', rest⟩, ?_, hs', fun q hq => h.pending q (by simp [hq])⟩
      simp only [Config.step, hrun, bind, Except.bind]

/-! ## Where the programs part -/

/-- A client that is accepted goes to slot 0, or finds no slot at all. -/
def Config.FirstSlot (c : Config) : Input → Prop
  | .wait _ => True
  | .dispatch a _ => match c.pending with
    | [] => True
    | (p, events) :: _ => p = MAX_EVENTS → events &&& EPOLLIN ≠ 0 → a.accept ≠ none →
        0 ≤ a.fcntl →
        freeSlot c.state.g_events = 0 ∨ freeSlot c.state.g_events = MAX_EVENTS

theorem recvdata_congr (P Q : Program) (s : State) (fd ev : ℕ) (a : Answers) :
    s.recvdata P fd ev a = s.recvdata Q fd ev a := by
  simp only [State.recvdata, eventadd_eventset]

theorem senddata_congr (P Q : Program) (s : State) (fd ev : ℕ) (a : Answers) :
    s.senddata P fd ev a = s.senddata Q fd ev a := by
  simp only [State.senddata, eventadd_eventset]

theorem acceptconn_congr (op : ℕ) (s : State) (a : Answers)
    (h : a.accept ≠ none → 0 ≤ a.fcntl →
      freeSlot s.g_events = 0 ∨ freeSlot s.g_events = MAX_EVENTS) :
    s.acceptconn (epollReactor op) a = s.acceptconn test a := by
  unfold State.acceptconn
  split
  · rfl
  · rename_i cfd hcfd
    simp only
    split_ifs with hfull hfcntl
    · rfl
    · rfl
    · have hzero := (h (by simp [hcfd]) (by omega)).resolve_right hfull
      simp only [eventadd_eventset, hzero]
      rfl

theorem trigger_client_congr {used : Set ℕ} {s : State} (h : s.Tied test used) {p : ℕ}
    (hp : p < MAX_EVENTS) (op events mask : ℕ) (a : Answers) :
    s.trigger (epollReactor op) p events mask a = s.trigger test p events mask a := by
  have hcall : s.call (epollReactor op) p a = s.call test p a := by
    rcases h.client p hp with ⟨-, hcb, -⟩ | ⟨harg, hcb | hcb⟩
    · simp [State.call, hcb]
    · simp [State.call, hcb, harg, recvdata_congr (epollReactor op) test]
    · simp [State.call, hcb, harg, senddata_congr (epollReactor op) test]
  rw [State.trigger, State.trigger, hcall]

theorem call_listening {P : Program} {used : Set ℕ} {s : State} (h : s.Tied P used) (Q : Program)
    (a : Answers) : s.call Q MAX_EVENTS a = .ok (s.acceptconn Q a) := by
  simp [State.call, h.listening]

theorem trigger_listening_out {P : Program} {used : Set ℕ} {s : State} (h : s.Tied P used)
    (Q : Program) (events : ℕ) (a : Answers) :
    s.trigger Q MAX_EVENTS events EPOLLOUT a = .ok s := by
  have hout : EPOLLIN &&& EPOLLOUT = 0 := by decide
  simp [State.trigger, h.mask, hout]

theorem Config.step_congr {used : Set ℕ} {c : Config} (h : c.Tied test used) {inp : Input}
    (hfirst : c.FirstSlot inp) (op : ℕ) : c.step (epollReactor op) inp = c.step test inp := by
  obtain ⟨s, pending⟩ := c
  cases inp with
  | wait ready => rfl
  | dispatch a b =>
    cases pending with
    | nil => rfl
    | cons r rest =>
      have hp := h.pending r (by simp)
      have hs : s.Tied test used := h.state
      obtain ⟨s₁, hrun, h₁⟩ := hs.trigger closed_test hp r.2 EPOLLIN a
      have heq : s.dispatch (epollReactor op) r.1 r.2 a b = s.dispatch test r.1 r.2 a b := by
        rcases eq_or_lt_of_le hp with hmax | hlt
        · have hin : s.trigger (epollReactor op) r.1 r.2 EPOLLIN a =
              s.trigger test r.1 r.2 EPOLLIN a := by
            unfold State.trigger
            split_ifs with hm
            · rw [hmax, call_listening hs, call_listening hs,
                acceptconn_congr op s a (hfirst hmax hm.1)]
            · rfl
          rw [State.dispatch, State.dispatch, hin, hrun, hmax]
          exact (trigger_listening_out h₁ _ _ b).trans (trigger_listening_out h₁ _ _ b).symm
        · rw [State.dispatch, State.dispatch, trigger_client_congr hs hlt, hrun]
          exact trigger_client_congr h₁ hlt op r.2 EPOLLOUT b
      simp only [Config.step, heq]

theorem Config.run_congr {c : Config} (h : c.Tied test ∅) (op : ℕ) {inputs : List Input}
    (hfirst : Runs.Admissible (Config.step test) Config.FirstSlot c inputs) :
    Runs.run (Config.step (epollReactor op)) c inputs = Runs.run (Config.step test) c inputs := by
  induction inputs generalizing c with
  | nil => rfl
  | cons inp inputs ih =>
    obtain ⟨c', hstep, h'⟩ := h.step closed_test inp
    rw [Runs.run_cons hstep, Runs.run_cons ((Config.step_congr h hfirst.1 op).trans hstep)]
    exact ih h' (hfirst.tail hstep)

theorem Config.Tied.other_slot {used : Set ℕ} {c : Config} (h : c.Tied test used) {inp : Input}
    (hother : ¬ c.FirstSlot inp) :
    ∃ i c', 0 < i ∧ i < MAX_EVENTS ∧ c.step test inp = .ok c' ∧ c'.Tied test {i} := by
  obtain ⟨s, pending⟩ := c
  cases inp with
  | wait ready => exact absurd trivial hother
  | dispatch a b =>
    cases pending with
    | nil => exact absurd trivial hother
    | cons r rest =>
      obtain ⟨p, events⟩ := r
      simp only [Config.FirstSlot, not_forall, not_or] at hother
      obtain ⟨rfl, hin, hacc, hfcntl, hzero, hfull⟩ := hother
      have hlt := ((freeSlot_spec s.g_events).resolve_left hfull).1
      obtain ⟨cfd, hcfd⟩ := Option.ne_none_iff_exists'.mp hacc
      have hs : s.Tied test used := h.state
      have hopen : State.Tied test used
          { s with opened := update s.opened cfd true, log := .accept cfd :: s.log } :=
        hs.congr (fun _ => rfl) (fun _ => rfl) (fun _ => rfl) hs.registered
      have harm := hopen.arm hlt cfd (.inl rfl) rfl test EPOLLIN
      have hcall : s.trigger test MAX_EVENTS events EPOLLIN a = .ok (s.acceptconn test a) := by
        have hmask : EPOLLIN &&& EPOLLIN ≠ 0 := by decide
        rw [State.trigger, hs.mask, if_pos ⟨hin, hmask⟩, call_listening hs]
      have hnew : s.acceptconn test a = (State.eventset
          { s with opened := update s.opened cfd true, log := .accept cfd :: s.log }
          (freeSlot s.g_events) cfd .recvdata
          (test.arg (freeSlot s.g_events))).eventadd test EPOLLIN
          (freeSlot s.g_events) := by
        simp only [State.acceptconn, hcfd]
        rw [if_neg hfull, if_neg (by omega)]
      refine ⟨freeSlot s.g_events, ⟨s.acceptconn test a, rest⟩, by omega, hlt, ?_, ?_, ?_⟩
      · simp only [Config.step, State.dispatch, hcall, bind, Except.bind]
        rw [hnew, trigger_listening_out harm]
      · rw [hnew]
        exact harm.mono (by simp)
      · exact fun q hq => h.pending q (by simp [hq])

theorem Config.Tied.run {P : Program} (hP : P.Closed) {used : Set ℕ} {c : Config}
    (h : c.Tied P used) (inputs : List Input) :
    ∃ c', Runs.run (Config.step P) c inputs = .ok c' ∧ c'.Tied P used :=
  Runs.run_invariant_of_forall (Config.Tied P used) (fun _ inp hc => hc.step hP inp) h inputs

theorem Config.run_parts {c : Config} (h : c.Tied test ∅) {inputs : List Input}
    (hother : ¬ Runs.Admissible (Config.step test) Config.FirstSlot c inputs) :
    ∃ c' i, Runs.run (Config.step test) c inputs = .ok c' ∧ 0 < i ∧ i < MAX_EVENTS ∧
      (c'.state.g_events i).arg = some i := by
  induction inputs generalizing c with
  | nil => exact absurd trivial hother
  | cons inp inputs ih =>
    by_cases hfirst : c.FirstSlot inp
    · obtain ⟨c₁, hstep, h₁⟩ := h.step closed_test inp
      rw [Runs.run_cons hstep]
      refine ih h₁ fun hrest => hother ⟨hfirst, ?_⟩
      rw [hstep]
      exact hrest
    · obtain ⟨i, c₁, hpos, hlt, hstep, h₁⟩ := h.other_slot hfirst
      obtain ⟨c', hrun, h'⟩ := h₁.run closed_test inputs
      refine ⟨c', i, by rw [Runs.run_cons hstep, hrun], hpos, hlt, ?_⟩
      rcases h'.state.client i hlt with ⟨hnone, -⟩ | ⟨harg, -⟩
      · exact absurd hnone (h'.state.used i rfl)
      · exact harg

/-- The two programs on the same answers of the kernel, whatever these are: they
make the same calls and end with the same table exactly when every client that
`test.c` takes in goes to slot 0. -/
theorem programs_agree_iff (op lfd : ℕ) (inputs : List Input) :
    ∃ c d, Config.run test lfd inputs = .ok c ∧ Config.run (epollReactor op) lfd inputs = .ok d ∧
      ((c.state.log = d.state.log ∧
          ∀ i, i ≤ MAX_EVENTS → c.state.g_events i = d.state.g_events i) ↔
        Runs.Admissible (Config.step test) Config.FirstSlot ⟨initlistensocket test lfd, []⟩
          inputs) := by
  have hinit : initlistensocket (epollReactor op) lfd = initlistensocket test lfd := by
    rw [initlistensocket_eq, initlistensocket_eq]
  obtain ⟨c, hc, -⟩ := (Config.tied_init test lfd).run closed_test inputs
  obtain ⟨d, hd, htied⟩ :=
    (Config.tied_init (epollReactor op) lfd).run (closed_epollReactor op) inputs
  refine ⟨c, d, hc, hd, ?_⟩
  constructor
  · rintro ⟨-, htable⟩
    by_contra hother
    obtain ⟨c', i, hc', hpos, hlt, harg⟩ := Config.run_parts (Config.tied_init test lfd) hother
    rw [hc] at hc'
    cases hc'
    rw [htable i hlt.le] at harg
    rcases htied.state.client i hlt with ⟨hnone, -⟩ | ⟨hzero, -⟩
    · rw [hnone] at harg
      cases harg
    · rw [hzero] at harg
      have hfirst : 0 = i := Option.some.inj harg
      omega
  · intro hfirst
    have hsame := Config.run_congr (Config.tied_init test lfd) op hfirst
    rw [hinit] at hd
    rw [hc, hd] at hsame
    cases hsame
    exact ⟨rfl, fun _ _ => rfl⟩

/-- Two clients connect and the second one writes: `test.c` takes the second
off the interest list, the other program the first. -/
theorem second_client_parts :
    ¬ ∀ (op lfd : ℕ) (inputs : List Input) (c d : Config),
      Runs.Admissible (Config.step test) Config.Legal ⟨initlistensocket test lfd, []⟩ inputs →
      Runs.Admissible (Config.step (epollReactor op)) Config.Legal
        ⟨initlistensocket (epollReactor op) lfd, []⟩ inputs →
      Config.run test lfd inputs = .ok c → Config.run (epollReactor op) lfd inputs = .ok d →
      c.state.log = d.state.log ∧
        ∀ i, i ≤ MAX_EVENTS → c.state.g_events i = d.state.g_events i := by
  intro h
  have hlog := (h 0 3 [.wait [(3, 1)], .dispatch { accept := some 5 } {}, .wait [(3, 1)],
    .dispatch { accept := some 6 } {}, .wait [(6, 1)], .dispatch { recv := some [104, 105] } {}]
    _ _ (by decide +kernel) (by decide +kernel) rfl rfl).1
  exact absurd hlog (by decide +kernel)

end NetworkPrograms.Reactor
