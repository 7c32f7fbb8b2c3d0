import NetworkPrograms.Reactor.Agreement
import NetworkPrograms.Reactor.Streams

/-!
# The buffers of the slots

Both programs let `recv` fill the whole buffer of a slot and then put a terminator
behind the bytes received. What a callback stores into a buffer is listed here by
index and compared with the size of the buffer; nothing else in a buffer is changed by
the callback. Nothing is assumed of the kernel.
-/
namespace NetworkPrograms.Reactor

open Function

/-! ## The indices stored to -/

/-- The `memset` in `eventset`. -/
def MyEvent.cleared (e : MyEvent) : List ℕ := if e.len ≤ 0 then List.range BUFLEN else []

namespace State

variable (s : State)

def acceptconnStores (a : Answers) : List ℕ :=
  if a.accept = none ∨ s.Refuses a then [] else (s.g_events (freeSlot s.g_events)).cleared

/-- The bytes received, the terminator and `eventset`. -/
def recvdataStores (ev : ℕ) (a : Answers) : List ℕ :=
  let bytes := a.received.getD []
  List.range bytes.length ++
    if 0 < bytes.length then bytes.length :: ((s.g_events ev).filled bytes).cleared else []

def senddataStores (ev : ℕ) (a : Answers) : List ℕ :=
  if 0 < a.sent (s.g_events ev).len then (s.g_events ev).cleared else []

def callStores (ev : ℕ) (a : Answers) : List ℕ :=
  match (s.g_events ev).call_back, (s.g_events ev).arg with
  | some .acceptconn, _ => s.acceptconnStores a
  | some .recvdata, some arg => s.recvdataStores arg a
  | some .senddata, some arg => s.senddataStores arg a
  | _, _ => []

def triggerStores (ev events mask : ℕ) (a : Answers) : List ℕ :=
  if events &&& mask ≠ 0 ∧ (s.g_events ev).events &&& mask ≠ 0 then s.callStores ev a else []

def dispatchStores (P : Program) (ev events : ℕ) (a b : Answers) : List ℕ :=
  s.triggerStores ev events EPOLLIN a ++
    match s.trigger P ev events EPOLLIN a with
    | .ok s => s.triggerStores ev events EPOLLOUT b
    | .error _ => []

end State

def Config.stores (P : Program) (c : Config) : Input → List ℕ
  | .wait _ => []
  | .dispatch a b => match c.pending with
    | [] => []
    | (ev, events) :: _ => c.state.dispatchStores P ev events a b

def Config.StoresInside (P : Program) (c : Config) (inp : Input) : Prop :=
  ∀ i ∈ c.stores P inp, i < BUFLEN

instance (P : Program) (c : Config) : DecidablePred (c.StoresInside P) := fun _ =>
  inferInstanceAs (Decidable (∀ i ∈ _, _))

/-- A slot that waits to send holds a string that ends inside the buffer. -/
def MyEvent.Terminated (e : MyEvent) : Prop :=
  e.events = EPOLLOUT → 1 ≤ e.len ∧ e.len < BUFLEN ∧ e.buf e.len = 0

def State.Terminated (s : State) : Prop := ∀ i, (s.g_events i).Terminated

/-- No `recv` has filled a buffer. -/
def ShortRecvs (log : List SysCall) : Prop := ∀ c ∈ log, c.incoming.length < BUFLEN

instance (log : List SysCall) : Decidable (ShortRecvs log) :=
  inferInstanceAs (Decidable (∀ c ∈ log, _))

/-! ## What the callbacks store -/

theorem shortRecvs_cons {c : SysCall} {log : List SysCall} :
    ShortRecvs (c :: log) ↔ c.incoming.length < BUFLEN ∧ ShortRecvs log :=
  List.forall_mem_cons

theorem shortRecvs_cons_of_nil {c : SysCall} {log : List SysCall} (h : c.incoming = []) :
    ShortRecvs (c :: log) ↔ ShortRecvs log := by
  rw [shortRecvs_cons, h]
  exact and_iff_right (Nat.zero_lt_succ _)

section Fields

variable {s : State}

@[simp] theorem epoll_ctl_g_events (op fd : ℕ) (epv : Option (ℕ × ℕ)) :
    (s.epoll_ctl op fd epv).g_events = s.g_events := by
  unfold State.epoll_ctl
  dsimp only
  split_ifs <;> rfl

@[simp] theorem epoll_ctl_shortRecvs (op fd : ℕ) (epv : Option (ℕ × ℕ)) :
    ShortRecvs (s.epoll_ctl op fd epv).log ↔ ShortRecvs s.log := by
  unfold State.epoll_ctl
  dsimp only
  split_ifs <;> exact shortRecvs_cons_of_nil rfl

@[simp] theorem close_shortRecvs (fd : ℕ) : ShortRecvs (s.close fd).log ↔ ShortRecvs s.log :=
  shortRecvs_cons_of_nil rfl

@[simp] theorem eventdel_g_events (ev : ℕ) :
    (s.eventdel ev).g_events = update s.g_events ev
      { s.g_events ev with
        status := if (s.g_events ev).status = 1 then 0 else (s.g_events ev).status } := by
  by_cases h : (s.g_events ev).status = 1
  · simp [State.eventdel, h]
  · simp [State.eventdel, h]

@[simp] theorem eventdel_shortRecvs (ev : ℕ) :
    ShortRecvs (s.eventdel ev).log ↔ ShortRecvs s.log := by
  unfold State.eventdel
  dsimp only
  split_ifs <;> simp

end Fields

/-- What holds of the stores of a piece of code between two states: no byte of a buffer has
changed at another index, and as long as no `recv` has filled a buffer, they are inside exactly
when none has done so by the end. -/
structure State.Stores (s s' : State) (indices : List ℕ) : Prop where
  frame : ∀ ev, ∀ i < BUFLEN, i ∉ indices → (s'.g_events ev).buf i = (s.g_events ev).buf i
  inside : ShortRecvs s.log → ((∀ i ∈ indices, i < BUFLEN) ↔ ShortRecvs s'.log)
  terminated : s.Terminated → ShortRecvs s'.log → s'.Terminated
  earlier : ShortRecvs s'.log → ShortRecvs s.log

section Stores

variable {s s' : State}

theorem State.Stores.refl (s : State) : s.Stores s [] where
  frame := fun _ _ _ _ => rfl
  inside := by simp
  terminated := fun h _ => h
  earlier := id

theorem State.Stores.trans {s'' : State} {first second : List ℕ} (h : s.Stores s' first)
    (h' : s'.Stores s'' second) : s.Stores s'' (first ++ second) where
  frame := by
    intro ev i hi hnot
    obtain ⟨hfirst, hsecond⟩ := not_or.mp (mt List.mem_append.mpr hnot)
    rw [h'.frame ev i hi hsecond, h.frame ev i hi hfirst]
  inside := by
    intro hs
    rw [List.forall_mem_append, h.inside hs]
    constructor
    · rintro ⟨hmid, hsecond⟩
      exact (h'.inside hmid).mp hsecond
    · intro hend
      have hmid := h'.earlier hend
      exact ⟨hmid, (h'.inside hmid).mpr hend⟩
  terminated := fun hs hend => h'.terminated (h.terminated hs (h'.earlier hend)) hend
  earlier := fun hend => h.earlier (h'.earlier hend)

theorem State.Stores.of_slot {ev : ℕ} {e : MyEvent} {indices : List ℕ}
    (hg : s'.g_events = update s.g_events ev e)
    (hbuf : ∀ i < BUFLEN, i ∉ indices → e.buf i = (s.g_events ev).buf i)
    (he : (s.g_events ev).Terminated → e.Terminated)
    (hlog : ShortRecvs s'.log ↔ ShortRecvs s.log) (hin : ∀ i ∈ indices, i < BUFLEN) :
    s.Stores s' indices where
  frame := by
    intro j
    rw [hg]
    rcases eq_or_ne j ev with rfl | hne
    · rw [update_self]
      exact hbuf
    · rw [update_of_ne hne]
      exact fun _ _ _ => rfl
  inside := fun hs => iff_of_true hin (hlog.mpr hs)
  terminated := by
    intro hs _ i
    rw [hg]
    rcases eq_or_ne i ev with rfl | hne
    · rw [update_self]
      exact he (hs i)
    · rw [update_of_ne hne]
      exact hs i
  earlier := hlog.mp

theorem armed_terminated (e : MyEvent) (fd : ℕ) (call_back : CallBack) (arg : ℕ) :
    (e.armed fd call_back arg EPOLLIN).Terminated := by
  intro hout
  have hne : EPOLLIN ≠ EPOLLOUT := by decide
  exact absurd hout hne

theorem armed_buf (e : MyEvent) (fd : ℕ) (call_back : CallBack) (arg events : ℕ) {i : ℕ}
    (hi : i < BUFLEN) (hnot : i ∉ e.cleared) :
    (e.armed fd call_back arg events).buf i = e.buf i := by
  unfold MyEvent.cleared at hnot
  unfold MyEvent.armed
  split_ifs at hnot ⊢ with hlen
  · exact absurd (List.mem_range.mpr hi) hnot
  · rfl

theorem filled_buf (e : MyEvent) {bytes : Bytes} {i : ℕ} (hi : i ∉ List.range bytes.length)
    (hnul : i ≠ bytes.length) : (e.filled bytes).buf i = e.buf i := by
  have hnone : bytes[i]? = none := by simpa using hi
  unfold MyEvent.filled MyEvent.storeNul
  split_ifs
  · simp [hnul, hnone]
  · simp [hnone]

theorem cleared_inside (e : MyEvent) : ∀ i ∈ e.cleared, i < BUFLEN := by
  intro i hi
  unfold MyEvent.cleared at hi
  split_ifs at hi
  · exact List.mem_range.mp hi
  · cases hi

theorem acceptconn_stores (P : Program) (a : Answers) :
    s.Stores (s.acceptconn P a) (s.acceptconnStores a) := by
  unfold State.acceptconnStores
  cases ha : a.accept with
  | none =>
    rw [if_pos (.inl rfl)]
    simpa [State.acceptconn, ha] using State.Stores.refl s
  | some cfd =>
    by_cases hrefuses : s.Refuses a
    · rw [if_pos (.inr hrefuses), acceptconn_refused P ha hrefuses]
      have hlog : ShortRecvs (.accept cfd :: s.log) ↔ ShortRecvs s.log :=
        shortRecvs_cons_of_nil rfl
      exact ⟨fun _ _ _ _ => rfl, fun hs => iff_of_true (by simp) (hlog.mpr hs), fun hs _ => hs,
        hlog.mp⟩
    · rw [if_neg (by simp [hrefuses])]
      obtain ⟨hfull, hfcntl⟩ := not_or.mp hrefuses
      simp only [State.acceptconn, ha, if_neg hfull, if_neg hfcntl, eventadd_eventset]
      refine .of_slot (epoll_ctl_g_events ..) (fun _ => armed_buf _ _ _ _ _)
        (fun _ => armed_terminated _ _ _ _) ?_ (cleared_inside _)
      rw [epoll_ctl_shortRecvs]
      exact shortRecvs_cons_of_nil rfl

theorem senddata_stores (P : Program) (fd ev : ℕ) (a : Answers) :
    s.Stores (s.senddata P fd ev a) (s.senddataStores ev a) := by
  have hlog : ShortRecvs (s.senddata P fd ev a).log ↔ ShortRecvs s.log := by
    unfold State.senddata
    dsimp only
    split_ifs <;> simp [eventadd_eventset, shortRecvs_cons, SysCall.incoming, BUFLEN]
  by_cases hpos : 0 < a.sent (s.g_events ev).len
  · have hg : (s.senddata P fd ev a).g_events =
        update s.g_events ev ((s.g_events ev).armed fd .recvdata ev EPOLLIN) := by
      simp [State.senddata, hpos, eventadd_eventset, MyEvent.armed]
    rw [State.senddataStores, if_pos hpos]
    exact .of_slot hg (fun _ => armed_buf _ _ _ _ _) (fun _ => armed_terminated _ _ _ _) hlog
      (cleared_inside _)
  · have hg : (s.senddata P fd ev a).g_events = (s.eventdel ev).g_events := by
      simp [State.senddata, hpos, State.close]
    rw [State.senddataStores, if_neg hpos]
    exact .of_slot (hg.trans (eventdel_g_events ev)) (fun _ _ _ => rfl) id hlog (by simp)

theorem filled_terminated (e : MyEvent) {bytes : Bytes} (hpos : 0 < bytes.length)
    (hlen : bytes.length < BUFLEN) (fd : ℕ) (call_back : CallBack) (arg events : ℕ) :
    ((e.filled bytes).armed fd call_back arg events).Terminated := by
  have hle : ¬ bytes.length ≤ 0 := by omega
  intro _
  simp only [MyEvent.armed, MyEvent.filled, MyEvent.storeNul, if_pos hlen, if_neg hle, update_self]
  exact ⟨hpos, hlen, trivial⟩

theorem recvdata_log (P : Program) (fd ev : ℕ) (a : Answers) :
    ShortRecvs (s.recvdata P fd ev a).log ↔
      (a.received.getD []).length < BUFLEN ∧ ShortRecvs s.log := by
  unfold State.recvdata
  dsimp only
  split_ifs <;> simp [eventadd_eventset, shortRecvs_cons, SysCall.incoming]

theorem recvdata_stores (P : Program) (fd ev : ℕ) (a : Answers) :
    s.Stores (s.recvdata P fd ev a) (s.recvdataStores ev a) := by
  have hlog := recvdata_log (s := s) P fd ev a
  by_cases hpos : 0 < (a.received.getD []).length
  · have hle : (a.received.getD []).length ≤ BUFLEN := by
      rw [Answers.received]
      cases a.recv <;> simp
    have hg : (s.recvdata P fd ev a).g_events = update s.g_events ev
        (((s.g_events ev).filled (a.received.getD [])).armed fd .senddata ev EPOLLOUT) := by
      simp only [State.recvdata, if_pos hpos, eventadd_eventset, epoll_ctl_g_events,
        eventdel_g_events, update_self, update_idem, MyEvent.filled, MyEvent.storeNul]
      split_ifs <;> rfl
    refine ⟨?_, ?_, ?_, fun hend => (hlog.mp hend).2⟩
    · intro j i hi hnot
      rw [State.recvdataStores, if_pos hpos, List.mem_append, List.mem_cons, not_or, not_or] at hnot
      obtain ⟨hbytes, hnul, hcleared⟩ := hnot
      rw [hg]
      rcases eq_or_ne j ev with rfl | hne
      · rw [update_self, armed_buf _ _ _ _ _ hi hcleared, filled_buf _ hbytes hnul]
      · rw [update_of_ne hne]
    · intro hs
      rw [hlog, State.recvdataStores, if_pos hpos]
      simp only [List.forall_mem_append, List.forall_mem_cons, List.mem_range]
      constructor
      · rintro ⟨-, hlen, -⟩
        exact ⟨hlen, hs⟩
      · rintro ⟨hlen, -⟩
        exact ⟨fun i hi => hi.trans hlen, hlen, cleared_inside _⟩
    · intro hs hend i
      rw [hg]
      rcases eq_or_ne i ev with rfl | hne
      · rw [update_self]
        exact filled_terminated _ hpos (hlog.mp hend).1 _ _ _ _
      · rw [update_of_ne hne]
        exact hs i
  · have hnil : a.received.getD [] = [] := by
      simpa using hpos
    have hg : (s.recvdata P fd ev a).g_events = (s.eventdel ev).g_events := by
      simp [State.recvdata, hnil, State.close]
    rw [State.recvdataStores, hnil]
    refine .of_slot (hg.trans (eventdel_g_events ev)) (fun _ _ _ => rfl) id (hlog.trans ?_)
      (by simp)
    simp [hnil, BUFLEN]

theorem call_stores {P : Program} {ev : ℕ} {a : Answers} (h : s.call P ev a = .ok s') :
    s.Stores s' (s.callStores ev a) := by
  unfold State.call at h
  unfold State.callStores
  dsimp only at h
  split at h
  · cases h
  · rename_i hcb
    rw [hcb]
    cases h
    exact acceptconn_stores P a
  · rename_i arg hcb harg
    rw [hcb, harg]
    cases h
    exact recvdata_stores P _ arg a
  · rename_i arg hcb harg
    rw [hcb, harg]
    cases h
    exact senddata_stores P _ arg a
  · cases h

theorem trigger_stores {P : Program} {ev events mask : ℕ} {a : Answers}
    (h : s.trigger P ev events mask a = .ok s') :
    s.Stores s' (s.triggerStores ev events mask a) := by
  unfold State.trigger at h
  unfold State.triggerStores
  split_ifs at h ⊢
  · exact call_stores h
  · cases h
    exact .refl s

theorem dispatch_stores {P : Program} {ev events : ℕ} {a b : Answers}
    (h : s.dispatch P ev events a b = .ok s') :
    s.Stores s' (s.dispatchStores P ev events a b) := by
  unfold State.dispatch at h
  unfold State.dispatchStores
  cases hin : s.trigger P ev events EPOLLIN a with
  | error f =>
    rw [hin] at h
    cases h
  | ok mid =>
    rw [hin] at h
    exact (trigger_stores hin).trans (trigger_stores h)

theorem Config.step_stores {P : Program} {c c' : Config} {inp : Input}
    (h : c.step P inp = .ok c') : c.state.Stores c'.state (c.stores P inp) := by
  obtain ⟨s, pending⟩ := c
  cases inp with
  | wait ready =>
    cases pending with
    | nil =>
      cases h
      exact .refl s
    | cons r rest =>
      cases h
      exact .refl s
  | dispatch a b =>
    cases pending with
    | nil =>
      cases h
      exact .refl s
    | cons r rest =>
      simp only [Config.step] at h
      cases hdisp : s.dispatch P r.1 r.2 a b with
      | error f =>
        rw [hdisp] at h
        cases h
      | ok t =>
        rw [hdisp] at h
        cases h
        exact dispatch_stores hdisp

end Stores

/-! ## Runs -/

theorem initlistensocket_terminated (P : Program) (lfd : ℕ) :
    (initlistensocket P lfd).Terminated := by
  intro i hmask
  rw [initlistensocket_eq] at hmask
  simp only at hmask
  rcases eq_or_ne i MAX_EVENTS with rfl | hne
  · rw [update_self] at hmask
    cases hmask
  · rw [update_of_ne hne] at hmask
    cases hmask

theorem initlistensocket_shortRecvs (P : Program) (lfd : ℕ) :
    ShortRecvs (initlistensocket P lfd).log := by
  rw [initlistensocket_eq]
  exact (shortRecvs_cons_of_nil rfl).mpr (by simp [ShortRecvs])

theorem admissible_storesInside_iff {P : Program} (hP : P.Closed) {c : Config} (hc : c.Tied P ∅)
    (hshort : ShortRecvs c.state.log) (inputs : List Input) :
    Runs.Admissible (Config.step P) (Config.StoresInside P) c inputs ↔
      Runs.Admissible (Config.step P)
        (fun c inp => ∀ c', c.step P inp = .ok c' → ShortRecvs c'.state.log) c inputs := by
  apply Runs.admissible_congr (fun c => c.Tied P ∅ ∧ ShortRecvs c.state.log) _ _ ⟨hc, hshort⟩
    (Runs.Admissible.of_forall (fun _ _ => trivial) c inputs)
  · rintro c inp ⟨hc, hs⟩ -
    obtain ⟨c', hstep, -⟩ := hc.step hP inp
    rw [Config.StoresInside, (Config.step_stores hstep).inside hs]
    constructor
    · intro hs' d hd
      rw [hstep] at hd
      cases hd
      exact hs'
    · intro hall
      exact hall c' hstep
  · rintro c inp c' ⟨hc, hs⟩ - hnext hstep
    obtain ⟨d, hd, htied⟩ := hc.step hP inp
    rw [hstep] at hd
    cases hd
    exact ⟨htied, hnext c' hstep⟩

/-- The two reactor programs, whatever the kernel answers. Every store is inside its
buffer and every slot that waits to send holds a string that ends inside it, exactly when
no `recv` returns as many bytes as it was asked for. -/
theorem buffers_iff (P : Program) (hP : P = test ∨ ∃ op, P = epollReactor op) (lfd : ℕ)
    (inputs : List Input) :
    ∃ c, Config.run P lfd inputs = .ok c ∧
      ((Runs.Admissible (Config.step P) (Config.StoresInside P) ⟨initlistensocket P lfd, []⟩
          inputs ∧
        ∀ pre, pre <+: inputs → ∃ d, Config.run P lfd pre = .ok d ∧ d.state.Terminated) ↔
      ShortRecvs c.state.log) := by
  have hclosed : P.Closed := by
    rcases hP with rfl | ⟨op, rfl⟩
    · exact closed_test
    · exact closed_epollReactor op
  have htied := Config.tied_init P lfd
  have hshort := initlistensocket_shortRecvs P lfd
  obtain ⟨c, hrun, -⟩ := htied.run hclosed inputs
  have hstores := admissible_storesInside_iff hclosed htied hshort inputs
  have hend : (∀ pre d, pre <+: inputs → Config.run P lfd pre = .ok d → ShortRecvs d.state.log) ↔
      ShortRecvs c.state.log :=
    Runs.forall_isPrefix_iff_of_stable (fun c : Config => ShortRecvs c.state.log)
      (fun _ _ _ hstep hs => (Config.step_stores hstep).earlier hs) hrun
  have hall := (Runs.forall_isPrefix_iff fun c : Config => ShortRecvs c.state.log).symm.trans hend
  refine ⟨c, hrun, ?_⟩
  constructor
  · rintro ⟨hin, -⟩
    exact hall.mp ⟨hshort, hstores.mp hin⟩
  · intro hc
    have hadm := (hall.mpr hc).2
    refine ⟨hstores.mpr hadm, ?_⟩
    intro pre hpre
    obtain ⟨d, hd, -, hterm⟩ := Runs.run_invariant
      (fun c => c.Tied P ∅ ∧ c.state.Terminated)
      (fun c inp hc hnext => by
        obtain ⟨c', hstep, ht⟩ := hc.1.step hclosed inp
        exact ⟨c', hstep, ht, (Config.step_stores hstep).terminated hc.2 (hnext c' hstep)⟩)
      ⟨htied, initlistensocket_terminated P lfd⟩ (hadm.of_isPrefix hpre)
    exact ⟨d, hd, hterm⟩

/-- Two clients of `epoll反应堆.c` whose bytes go into one buffer. -/
theorem buffers_iff_two_clients :
    ∃ d, Config.run (epollReactor 7) 3 [.wait [(3, 1)], .dispatch { accept := some 5 } {},
        .wait [(3, 1)], .dispatch { accept := some 6 } {}, .wait [(6, 1)],
        .dispatch { recv := some [104, 105] } {}] = .ok d ∧ d.state.Terminated := by
  obtain ⟨c, hrun, hiff⟩ := buffers_iff (epollReactor 7) (.inr ⟨7, rfl⟩) 3 [.wait [(3, 1)],
    .dispatch { accept := some 5 } {}, .wait [(3, 1)], .dispatch { accept := some 6 } {},
    .wait [(6, 1)], .dispatch { recv := some [104, 105] } {}]
  cases hrun
  exact (hiff.mpr (by decide +kernel)).2 _ List.prefix_rfl

/-- A client fills the buffer, and either program puts the terminator behind it. -/
theorem full_buffer_overruns :
    ¬ ∀ P : Program, P = test ∨ (∃ op, P = epollReactor op) → ∀ (lfd : ℕ) (inputs : List Input),
      Runs.Admissible (Config.step P) Config.Legal ⟨initlistensocket P lfd, []⟩ inputs →
      Runs.Admissible (Config.step P) (Config.StoresInside P) ⟨initlistensocket P lfd, []⟩
        inputs := by
  intro h
  have hin := h test (.inl rfl) 3 [.wait [(3, 1)], .dispatch { accept := some 5 } {},
    .wait [(5, 1)], .dispatch { recv := some (List.replicate BUFLEN 65) } {}] (by decide +kernel)
  have hlast : ∀ i ∈ State.recvdataStores _ 0 { recv := some (List.replicate BUFLEN 65) } ++ [],
    i < BUFLEN := hin.2.2.2.1
  have hpos : 0 < BUFLEN := by decide
  exact lt_irrefl BUFLEN (hlast BUFLEN (by simp [State.recvdataStores, Answers.received, hpos]))

end NetworkPrograms.Reactor
