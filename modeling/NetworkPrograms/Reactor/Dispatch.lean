import NetworkPrograms.Reactor.Machine

/-!
# What the handling of one event does

The callbacks of the reactor on a live slot, in terms of the slot's new contents,
its registration and the calls made. `Dispatched` says once what the handling
of one event can do, and the invariants are derived from it.
-/
namespace NetworkPrograms.Reactor

open Function

/-! ## The operations on a slot -/

/-- The slot after `eventset` and `eventadd`. -/
def MyEvent.armed (e : MyEvent) (fd : ℕ) (call_back : CallBack) (arg events : ℕ) : MyEvent where
  fd := fd
  events := events
  arg := some arg
  call_back := some call_back
  status := 1
  buf := if e.len ≤ 0 then fun _ => 0 else e.buf
  len := e.len

/-- `eventset` clears the status, so `eventadd` always adds: the initial value
of `op` plays no part. -/
theorem eventadd_eventset (P : Program) (s : State) (ev fd : ℕ) (call_back : CallBack)
    (arg events : ℕ) :
    (s.eventset ev fd call_back arg).eventadd P events ev =
      { s with
        g_events := update s.g_events ev
          ((s.g_events ev).armed fd call_back arg events) }.epoll_ctl
        EPOLL_CTL_ADD fd (some (ev, events)) := by
  by_cases hlen : (s.g_events ev).len ≤ 0
  · have h0 : (s.g_events ev).len = 0 := by omega
    simp [State.eventset, State.eventadd, MyEvent.armed, h0]
  · simp [State.eventset, State.eventadd, MyEvent.armed, hlen]

theorem epoll_ctl_add {s : State} {fd : ℕ} (hopen : s.opened fd = true)
    (hfree : s.interest fd = none) (epv : Option (ℕ × ℕ)) :
    s.epoll_ctl EPOLL_CTL_ADD fd epv = { s with
      interest := update s.interest fd epv
      log := .epoll_ctl EPOLL_CTL_ADD fd epv :: s.log } := by
  simp [State.epoll_ctl, hopen, hfree]

theorem epoll_ctl_del (s : State) (fd : ℕ) :
    s.epoll_ctl EPOLL_CTL_DEL fd none = { s with
      interest := update s.interest fd none
      log := .epoll_ctl EPOLL_CTL_DEL fd none :: s.log } := by
  simp [State.epoll_ctl, EPOLL_CTL_DEL, EPOLL_CTL_ADD, EPOLL_CTL_MOD]

theorem eventdel_live {s : State} {ev : ℕ} (h : (s.g_events ev).status = 1) :
    s.eventdel ev = { s with
      g_events := update s.g_events ev { s.g_events ev with status := 0 }
      interest := update s.interest (s.g_events ev).fd none
      log := .epoll_ctl EPOLL_CTL_DEL (s.g_events ev).fd none :: s.log } := by
  simp [State.eventdel, h, epoll_ctl_del]

/-- The end of the buffer's contents is not one of them, and clearing the low
byte of a full length changes nothing. -/
theorem contents_storeNul (e : MyEvent) (hlen : e.len ≤ BUFLEN) :
    (e.storeNul e.len).contents = e.contents ∧ (e.storeNul e.len).len = e.len := by
  unfold MyEvent.storeNul
  split_ifs with h
  · refine ⟨?_, rfl⟩
    simp only [MyEvent.contents]
    refine List.map_congr_left fun i hi => ?_
    exact update_of_ne (ne_of_lt (List.mem_range.mp hi)) _ _
  · have hfull : e.len = 4096 := by unfold BUFLEN at *; omega
    simp [MyEvent.contents, hfull]

theorem contents_received (e : MyEvent) (bytes : Bytes) :
    MyEvent.contents { e with buf := fun i => (bytes[i]?).getD (e.buf i), len := bytes.length } =
      bytes := by
  refine List.ext_getElem (by simp [MyEvent.contents]) fun i h₁ h₂ => ?_
  simp [MyEvent.contents, h₂]

theorem contents_armed {e : MyEvent} (h : e.len ≠ 0) (fd : ℕ) (call_back : CallBack)
    (arg events : ℕ) : (e.armed fd call_back arg events).contents = e.contents := by
  have hpos : ¬ e.len ≤ 0 := by omega
  simp [MyEvent.contents, MyEvent.armed, hpos]

/-! ## What the handling of one event can do -/

/-- A slot that is registered for itself with the callback its mask asks for. -/
structure MyEvent.Armed (e : MyEvent) (i f m : ℕ) : Prop where
  fd : e.fd = f
  events : e.events = m
  status : e.status = 1
  arg : e.arg = some i
  call_back : e.call_back = some (if m = EPOLLIN then .recvdata else .senddata)

theorem armed_recvdata (e : MyEvent) (i fd : ℕ) :
    (e.armed fd .recvdata i EPOLLIN).Armed i fd EPOLLIN := ⟨rfl, rfl, rfl, rfl, rfl⟩

theorem armed_senddata (e : MyEvent) (i fd : ℕ) :
    (e.armed fd .senddata i EPOLLOUT).Armed i fd EPOLLOUT := ⟨rfl, rfl, rfl, rfl, rfl⟩

/-- The state in which slot `i` has been armed for its descriptor `f` by a
callback that first took it off the interest list and then put it back. -/
def State.rearm (s : State) (i f : ℕ) (e : MyEvent) (call : SysCall) : State :=
  { s with
    g_events := update s.g_events i e
    interest := update s.interest f (some (i, e.events))
    log := .epoll_ctl EPOLL_CTL_ADD f (some (i, e.events)) ::
      .epoll_ctl EPOLL_CTL_DEL f none :: call :: s.log }

/-- The state in which slot `i` has been taken off the interest list and its
descriptor `f` closed. -/
def State.drop (s : State) (i f : ℕ) (e : MyEvent) (call : SysCall) : State :=
  { s with
    g_events := update s.g_events i e
    interest := update s.interest f none
    opened := update s.opened f false
    log := .close f :: .epoll_ctl EPOLL_CTL_DEL f none :: call :: s.log }

/-! ## The callbacks on a live slot -/

/-- The slot with the bytes that `recv` has stored and the terminator behind them, off
the interest list. -/
def MyEvent.filled (e : MyEvent) (bytes : Bytes) : MyEvent :=
  MyEvent.storeNul { e with
    buf := fun i => (bytes[i]?).getD (e.buf i), len := bytes.length, status := 0 } bytes.length

theorem received_length_le {a : Answers} {bytes : Bytes} (h : a.received = some bytes) :
    bytes.length ≤ BUFLEN := by
  obtain ⟨got, -, rfl⟩ := Option.map_eq_some_iff.mp h
  exact List.length_take_le _ _

theorem filled_contents (e : MyEvent) {bytes : Bytes} (h : bytes.length ≤ BUFLEN) :
    (e.filled bytes).contents = bytes ∧ (e.filled bytes).len = bytes.length := by
  have hstore := contents_storeNul { e with
    buf := fun i => (bytes[i]?).getD (e.buf i), len := bytes.length, status := 0 } h
  exact ⟨hstore.1.trans (contents_received _ bytes), hstore.2⟩

section Callbacks

variable {s : State} {p : ℕ} (P : Program) {a : Answers}

theorem recvdata_received (hst : (s.g_events p).status = 1)
    (hopen : s.opened (s.g_events p).fd = true) {bytes : Bytes} (hgot : a.received = some bytes)
    (hpos : 0 < bytes.length) :
    s.recvdata P (s.g_events p).fd p a = s.rearm p (s.g_events p).fd
      (((s.g_events p).filled bytes).armed (s.g_events p).fd .senddata p EPOLLOUT)
      (.recv (s.g_events p).fd (some bytes)) := by
  simp only [State.recvdata, hgot, Option.getD_some, if_pos hpos, eventadd_eventset]
  rw [eventdel_live (by simpa using hst), epoll_ctl_add (by simpa using hopen) (by simp)]
  simp [State.rearm, MyEvent.filled, MyEvent.armed]

theorem recvdata_closed (hst : (s.g_events p).status = 1)
    (hnone : (a.received.getD []).length = 0) :
    s.recvdata P (s.g_events p).fd p a = s.drop p (s.g_events p).fd
      { s.g_events p with status := 0 } (.recv (s.g_events p).fd a.received) := by
  have hnil : a.received.getD [] = [] := List.eq_nil_of_length_eq_zero hnone
  simp only [State.recvdata, hnil, List.length_nil, lt_irrefl, if_false]
  rw [eventdel_live (by simpa using hst)]
  simp [State.drop, State.close]

theorem senddata_sent (hst : (s.g_events p).status = 1)
    (hopen : s.opened (s.g_events p).fd = true) (hpos : 0 < a.sent (s.g_events p).len) :
    s.senddata P (s.g_events p).fd p a = s.rearm p (s.g_events p).fd
      (MyEvent.armed { s.g_events p with status := 0 } (s.g_events p).fd .recvdata p EPOLLIN)
      (.send (s.g_events p).fd (s.g_events p).contents (a.sent (s.g_events p).len)) := by
  simp only [State.senddata, gt_iff_lt, if_pos hpos, eventadd_eventset]
  rw [eventdel_live (by simpa using hst), epoll_ctl_add (by simpa using hopen) (by simp)]
  simp [State.rearm, MyEvent.armed]

theorem senddata_failed (hst : (s.g_events p).status = 1)
    (hneg : ¬ 0 < a.sent (s.g_events p).len) :
    s.senddata P (s.g_events p).fd p a = s.drop p (s.g_events p).fd
      { s.g_events p with status := 0 }
      (.send (s.g_events p).fd (s.g_events p).contents (a.sent (s.g_events p).len)) := by
  simp only [State.senddata, gt_iff_lt, if_neg hneg]
  rw [eventdel_live (by simpa using hst)]
  simp [State.drop, State.close]

/-- A connection that `acceptconn` does not take in: there is no slot, or `fcntl` fails. -/
def State.Refuses (s : State) (a : Answers) : Prop :=
  freeSlot s.g_events = MAX_EVENTS ∨ a.fcntl < 0

instance (s : State) (a : Answers) : Decidable (s.Refuses a) := inferInstanceAs (Decidable (_ ∨ _))

theorem acceptconn_refused {cfd : ℕ} (hcfd : a.accept = some cfd) (h : s.Refuses a) :
    s.acceptconn P a =
      { s with opened := update s.opened cfd true, log := .accept cfd :: s.log } := by
  simp only [State.acceptconn, hcfd]
  split_ifs with hfull hfcntl
  · rfl
  · rfl
  · exact absurd h (not_or.mpr ⟨hfull, hfcntl⟩)

theorem acceptconn_accepted {cfd : ℕ} (hcfd : a.accept = some cfd) (h : ¬ s.Refuses a)
    (hfree : s.interest cfd = none) :
    s.acceptconn P a = { s with
      g_events := update s.g_events (freeSlot s.g_events)
        ((s.g_events (freeSlot s.g_events)).armed cfd .recvdata (P.arg (freeSlot s.g_events))
          EPOLLIN)
      interest := update s.interest cfd (some (freeSlot s.g_events, EPOLLIN))
      opened := update s.opened cfd true
      log := .epoll_ctl EPOLL_CTL_ADD cfd (some (freeSlot s.g_events, EPOLLIN)) ::
        .accept cfd :: s.log } := by
  obtain ⟨hfull, hfcntl⟩ := not_or.mp h
  simp only [State.acceptconn, hcfd]
  rw [if_neg hfull, if_neg hfcntl, eventadd_eventset,
    epoll_ctl_add (by simp) (by simpa using hfree)]

end Callbacks

theorem freeSlot_spec (g_events : ℕ → MyEvent) :
    freeSlot g_events = MAX_EVENTS ∨
      freeSlot g_events < MAX_EVENTS ∧ (g_events (freeSlot g_events)).status = 0 := by
  have h := (Slots.search_spec (fun i => (g_events i).status = 0) MAX_EVENTS 0).1
  rwa [zero_add, decide_eq_true_eq] at h

/-- All that the handling of an event of slot `p` can do. -/
inductive State.Dispatched (s : State) (p : ℕ) : State → Prop where
  | idle : Dispatched s p s
  | received (client : p < MAX_EVENTS) (e : MyEvent)
      (armed : e.Armed p (s.g_events p).fd EPOLLOUT) :
      Dispatched s p (s.rearm p (s.g_events p).fd e (.recv (s.g_events p).fd (some e.contents)))
  | sent (client : p < MAX_EVENTS) (mask : (s.g_events p).events = EPOLLOUT) (e : MyEvent) (ret : ℤ)
      (armed : e.Armed p (s.g_events p).fd EPOLLIN) :
      Dispatched s p (s.rearm p (s.g_events p).fd e
        (.send (s.g_events p).fd (s.g_events p).contents ret))
  | closed (client : p < MAX_EVENTS) (buf : ℕ → UInt8) (bytes : Option Bytes) :
      Dispatched s p (s.drop p (s.g_events p).fd { s.g_events p with status := 0, buf := buf }
        (.recv (s.g_events p).fd bytes))
  | failed (client : p < MAX_EVENTS) (mask : (s.g_events p).events = EPOLLOUT) (ret : ℤ) :
      Dispatched s p (s.drop p (s.g_events p).fd { s.g_events p with status := 0 }
        (.send (s.g_events p).fd (s.g_events p).contents ret))
  | refused (listening : p = MAX_EVENTS) (cfd : ℕ) (fresh : s.opened cfd = false) :
      Dispatched s p { s with opened := update s.opened cfd true, log := .accept cfd :: s.log }
  | accepted (listening : p = MAX_EVENTS) (cfd : ℕ) (fresh : s.opened cfd = false) (i : ℕ)
      (lt : i < MAX_EVENTS) (free : (s.g_events i).status = 0) (e : MyEvent)
      (armed : e.Armed i cfd EPOLLIN) :
      Dispatched s p { s with
        g_events := update s.g_events i e
        interest := update s.interest cfd (some (i, EPOLLIN))
        opened := update s.opened cfd true
        log := .epoll_ctl EPOLL_CTL_ADD cfd (some (i, EPOLLIN)) :: .accept cfd :: s.log }

theorem recvdata_dispatched {s : State} {p : ℕ} (hp : p < MAX_EVENTS)
    (hst : (s.g_events p).status = 1) (hopen : s.opened (s.g_events p).fd = true) (P : Program)
    (a : Answers) : s.Dispatched p (s.recvdata P (s.g_events p).fd p a) := by
  by_cases hpos : 0 < (a.received.getD []).length
  · obtain ⟨bytes, hgot⟩ : ∃ bytes, a.received = some bytes := by
      cases h : a.received with
      | none => simp [h] at hpos
      | some bytes => exact ⟨bytes, rfl⟩
    rw [hgot, Option.getD_some] at hpos
    obtain ⟨hcontents, hlen⟩ := filled_contents (s.g_events p) (received_length_le hgot)
    have hrec := State.Dispatched.received (s := s) hp _
      (armed_senddata ((s.g_events p).filled bytes) p (s.g_events p).fd)
    rw [recvdata_received P hst hopen hgot hpos]
    rwa [contents_armed (by omega), hcontents] at hrec
  · rw [recvdata_closed P hst (by omega)]
    exact .closed hp _ a.received

theorem senddata_dispatched {s : State} {p : ℕ} (hp : p < MAX_EVENTS)
    (hst : (s.g_events p).status = 1) (hmask : (s.g_events p).events = EPOLLOUT)
    (hopen : s.opened (s.g_events p).fd = true) (P : Program) (a : Answers) :
    s.Dispatched p (s.senddata P (s.g_events p).fd p a) := by
  by_cases hpos : 0 < a.sent (s.g_events p).len
  · rw [senddata_sent P hst hopen hpos]
    exact .sent hp hmask _ _ (armed_recvdata _ p _)
  · rw [senddata_failed P hst hpos]
    exact .failed hp hmask _

theorem acceptconn_dispatched {s : State} {a : Answers}
    (hfresh : ∀ cfd, a.accept = some cfd → s.opened cfd = false ∧ s.interest cfd = none) :
    s.Dispatched MAX_EVENTS (s.acceptconn test a) := by
  cases ha : a.accept with
  | none => simpa [State.acceptconn, ha] using State.Dispatched.idle
  | some cfd =>
    obtain ⟨hclosed, hfree⟩ := hfresh cfd ha
    by_cases hrefuses : s.Refuses a
    · rw [acceptconn_refused test ha hrefuses]
      exact .refused rfl cfd hclosed
    · obtain ⟨hlt, hst⟩ := (freeSlot_spec s.g_events).resolve_left (not_or.mp hrefuses).1
      rw [acceptconn_accepted test ha hrefuses hfree]
      exact .accepted rfl cfd hclosed _ hlt hst _ (armed_recvdata _ _ cfd)

end NetworkPrograms.Reactor
