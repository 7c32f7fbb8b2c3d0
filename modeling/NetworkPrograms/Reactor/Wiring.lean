import NetworkPrograms.Foundations.Registry
import NetworkPrograms.Reactor.Dispatch

/-!
# Slots and registrations

Between any two callbacks of `test.c` the slot table and the interest list are
two readings of one relation, and every client slot is wired to itself with the
callback its mask asks for. An event that may be reported for a live slot is
handled without a fault and keeps this.
-/
namespace NetworkPrograms.Reactor

open Function

/-- What a slot says about itself: its descriptor and mask, if it is listed. -/
def State.view (s : State) (i : ℕ) : Option (ℕ × ℕ) :=
  if (s.g_events i).status = 1 then some ((s.g_events i).fd, (s.g_events i).events) else none

/-- A client slot has never been used, or has the callback its mask asks for and
itself as argument. -/
def MyEvent.Wired (e : MyEvent) (i : ℕ) : Prop :=
  e.status = 0 ∧ e.events = 0 ∨
    (e.events = EPOLLIN ∧ e.call_back = some .recvdata ∨
      e.events = EPOLLOUT ∧ e.call_back = some .senddata) ∧ e.arg = some i

structure State.Wiring (lfd : ℕ) (s : State) : Prop where
  agrees : Registry.Agrees s.view s.interest
  status : ∀ i, (s.g_events i).status = 0 ∨ (s.g_events i).status = 1
  bound : ∀ i, MAX_EVENTS < i → (s.g_events i).status = 0
  listening : s.view MAX_EVENTS = some (lfd, EPOLLIN)
  acceptconn : (s.g_events MAX_EVENTS).call_back = some .acceptconn
  client : ∀ i, i < MAX_EVENTS → (s.g_events i).Wired i
  opened : ∀ fd, (s.interest fd).isSome → s.opened fd = true

theorem view_eq_some {s : State} {i : ℕ} {r : ℕ × ℕ} (h : s.view i = some r) :
    (s.g_events i).status = 1 ∧ r = ((s.g_events i).fd, (s.g_events i).events) := by
  unfold State.view at h
  split_ifs at h with hst
  cases h
  exact ⟨hst, rfl⟩

theorem view_of_status {s : State} {i : ℕ} (h : (s.g_events i).status = 1) :
    s.view i = some ((s.g_events i).fd, (s.g_events i).events) := if_pos h

theorem view_update {s s' : State} {i : ℕ} {e : MyEvent}
    (h : s'.g_events = update s.g_events i e) :
    s'.view = update s.view i (if e.status = 1 then some (e.fd, e.events) else none) := by
  funext j
  rcases eq_or_ne j i with rfl | hne
  · simp [State.view, h]
  · rw [update_of_ne hne, State.view, State.view, h, update_of_ne hne]

theorem initlistensocket_eq (P : Program) (lfd : ℕ) :
    initlistensocket P lfd =
      { g_events := update (fun _ => {}) MAX_EVENTS
          (MyEvent.armed {} lfd .acceptconn MAX_EVENTS EPOLLIN)
        interest := update (fun _ => none) lfd (some (MAX_EVENTS, EPOLLIN))
        opened := fun fd => fd = lfd
        log := [.epoll_ctl EPOLL_CTL_ADD lfd (some (MAX_EVENTS, EPOLLIN))] } := by
  simp only [initlistensocket, eventadd_eventset]
  rw [epoll_ctl_add (by simp) rfl]

theorem initlistensocket_wiring (P : Program) (lfd : ℕ) :
    (initlistensocket P lfd).Wiring lfd := by
  have heq := initlistensocket_eq P lfd
  have hview : (initlistensocket P lfd).view =
      update (fun _ => none) MAX_EVENTS (some (lfd, EPOLLIN)) := by
    rw [heq]
    funext i
    rcases eq_or_ne i MAX_EVENTS with rfl | hne
    · simp [State.view, MyEvent.armed]
    · simp [State.view, update_of_ne hne]
  have hempty : Registry.Agrees (fun _ : ℕ => (none : Option (ℕ × ℕ)))
      (fun _ : ℕ => (none : Option (ℕ × ℕ))) := fun i k m => by simp
  refine ⟨?_, ?_, ?_, ?_, ?_, ?_, ?_⟩
  · rw [hview, heq]
    exact hempty.bind EPOLLIN (by simp) (by simp)
  · intro i
    rw [heq]
    rcases eq_or_ne i MAX_EVENTS with rfl | hne
    · simp [MyEvent.armed]
    · simp [update_of_ne hne]
  · intro i hi
    rw [heq]
    simp [update_of_ne (ne_of_gt hi)]
  · rw [hview, update_self]
  · rw [heq]
    simp [MyEvent.armed]
  · intro i hi
    rw [heq]
    simp [update_of_ne (ne_of_lt hi), MyEvent.Wired]
  · intro fd hfd
    rw [heq] at hfd ⊢
    rcases eq_or_ne fd lfd with rfl | hne
    · simp
    · simp [update_of_ne hne] at hfd

theorem State.Wiring.le_max {lfd : ℕ} {s : State} (hw : s.Wiring lfd) {p : ℕ} {r : ℕ × ℕ}
    (hp : s.view p = some r) : p ≤ MAX_EVENTS := by
  by_contra hlt
  have h0 := hw.bound p (by omega)
  rw [(view_eq_some hp).1] at h0
  cases h0

theorem State.Wiring.interest_none {lfd : ℕ} {s : State} (hw : s.Wiring lfd) {fd : ℕ}
    (h : s.opened fd = false) : s.interest fd = none := by
  by_contra hne
  have hopen := hw.opened fd (Option.isSome_iff_ne_none.mpr hne)
  rw [h] at hopen
  cases hopen

theorem State.Wiring.opened_of_view {lfd : ℕ} {s : State} (hw : s.Wiring lfd) {p : ℕ} {r : ℕ × ℕ}
    (hp : s.view p = some r) : s.opened r.1 = true :=
  hw.opened r.1 (by rw [(hw.agrees p r.1 r.2).mp hp]; rfl)

theorem State.Wiring.status_eq_one_iff {lfd : ℕ} {s : State} (hw : s.Wiring lfd) (i : ℕ) :
    (s.g_events i).status = 1 ↔
      s.interest (s.g_events i).fd = some (i, (s.g_events i).events) := by
  rw [← hw.agrees]
  exact ⟨view_of_status, fun hv => (view_eq_some hv).1⟩

theorem State.Wiring.fd_ne {lfd : ℕ} {s : State} (hw : s.Wiring lfd) {i j : ℕ}
    (hi : (s.g_events i).status = 1) (hj : (s.g_events j).status = 1) (hne : i ≠ j) :
    (s.g_events i).fd ≠ (s.g_events j).fd := by
  intro hfd
  have hview := view_of_status hi
  rw [hfd] at hview
  exact hne (hw.agrees.slot_unique hview (view_of_status hj))

theorem State.Wiring.fd_ne_of_closed {lfd : ℕ} {s : State} (hw : s.Wiring lfd) {j cfd : ℕ}
    (hclosed : s.opened cfd = false) (hj : (s.g_events j).status = 1) :
    (s.g_events j).fd ≠ cfd := by
  rintro rfl
  have hopen := hw.opened_of_view (view_of_status hj)
  rw [hclosed] at hopen
  cases hopen

theorem State.Wiring.call_back_of_events {lfd : ℕ} {s : State} (hw : s.Wiring lfd) {i : ℕ}
    (hi : i < MAX_EVENTS) :
    ((s.g_events i).events = EPOLLIN →
      (s.g_events i).call_back = some .recvdata ∧ (s.g_events i).arg = some i) ∧
    ((s.g_events i).events = EPOLLOUT →
      (s.g_events i).call_back = some .senddata ∧ (s.g_events i).arg = some i) := by
  rcases hw.client i hi with ⟨-, h0⟩ | ⟨⟨hm, hcb⟩ | ⟨hm, hcb⟩, harg⟩
  · rw [h0]
    exact ⟨fun h => absurd h (by decide), fun h => absurd h (by decide)⟩
  · rw [hm]
    exact ⟨fun _ => ⟨hcb, harg⟩, fun h => absurd h (by decide)⟩
  · rw [hm]
    exact ⟨fun h => absurd h (by decide), fun _ => ⟨hcb, harg⟩⟩

theorem State.Wiring.owner {lfd : ℕ} {s : State} (hw : s.Wiring lfd) {fd p m : ℕ}
    (hreg : s.interest fd = some (p, m)) :
    fd = lfd ∧ p = MAX_EVENTS ∧ m = EPOLLIN ∨
      ∃! i, i < MAX_EVENTS ∧ (s.g_events i).status = 1 ∧ (s.g_events i).fd = fd ∧
        p = i ∧ (s.g_events i).events = m := by
  have hview := (hw.agrees p fd m).mpr hreg
  rcases eq_or_lt_of_le (hw.le_max hview) with rfl | hlt
  · have heq := hview.symm.trans hw.listening
    simp only [Option.some.injEq, Prod.mk.injEq] at heq
    exact .inl ⟨heq.1, rfl, heq.2⟩
  · obtain ⟨hst, heq⟩ := view_eq_some hview
    simp only [Prod.mk.injEq] at heq
    exact .inr ⟨p, ⟨hlt, hst, heq.1.symm, rfl, heq.2.symm⟩, fun j hj => hj.2.2.2.1.symm⟩

/-- The events that may be reported for a mask. -/
def Reported (events mask : ℕ) : Prop := events &&& (mask ||| EPOLLERR ||| EPOLLHUP) = events

instance (events mask : ℕ) : Decidable (Reported events mask) := inferInstanceAs (Decidable (_ = _))

theorem Reported.not_out {events : ℕ} (h : Reported events EPOLLIN) : events &&& EPOLLOUT = 0 := by
  rw [← h, Nat.and_assoc]
  exact Nat.and_zero events

theorem Reported.not_in {events : ℕ} (h : Reported events EPOLLOUT) : events &&& EPOLLIN = 0 := by
  rw [← h, Nat.and_assoc]
  exact Nat.and_zero events

theorem trigger_of_not_reported (P : Program) (s : State) (ev : ℕ) {events mask : ℕ}
    (h : events &&& mask = 0) (a : Answers) : s.trigger P ev events mask a = .ok s := by
  simp [State.trigger, h]

theorem dispatch_in (P : Program) (s : State) (ev : ℕ) {events : ℕ} (h : Reported events EPOLLIN)
    (a b : Answers) : s.dispatch P ev events a b = s.trigger P ev events EPOLLIN a := by
  rw [State.dispatch]
  cases s.trigger P ev events EPOLLIN a with
  | error f => rfl
  | ok t => exact trigger_of_not_reported P t ev h.not_out b

theorem dispatch_out (P : Program) (s : State) (ev : ℕ) {events : ℕ} (h : Reported events EPOLLOUT)
    (a b : Answers) : s.dispatch P ev events a b = s.trigger P ev events EPOLLOUT b := by
  rw [State.dispatch, trigger_of_not_reported P s ev h.not_in a]
  rfl

/-- Which callback the handling of an event of slot `p` runs. -/
inductive State.Handled (s : State) (p events : ℕ) (a b : Answers) : State → Prop where
  | idle (unset : events &&& (s.g_events p).events = 0) : Handled s p events a b s
  | acceptconn (listening : p = MAX_EVENTS) (reported : events &&& EPOLLIN ≠ 0) :
      Handled s p events a b (s.acceptconn test a)
  | recvdata (client : p < MAX_EVENTS) (mask : (s.g_events p).events = EPOLLIN)
      (reported : events &&& EPOLLIN ≠ 0) :
      Handled s p events a b (s.recvdata test (s.g_events p).fd p a)
  | senddata (client : p < MAX_EVENTS) (mask : (s.g_events p).events = EPOLLOUT)
      (reported : events &&& EPOLLOUT ≠ 0) :
      Handled s p events a b (s.senddata test (s.g_events p).fd p b)

theorem trigger_eq (P : Program) {s : State} {p mask : ℕ} (hm : (s.g_events p).events = mask)
    (hbit : mask &&& mask ≠ 0) (events : ℕ) (a : Answers) :
    s.trigger P p events mask a = if events &&& mask ≠ 0 then s.call P p a else .ok s := by
  simp only [State.trigger, hm, hbit, ne_eq, not_false_eq_true, and_true]

theorem dispatch_handled {lfd : ℕ} {s : State} (hw : s.Wiring lfd) {p events : ℕ} {r : ℕ × ℕ}
    (hp : s.view p = some r) (hr : Reported events r.2) (a b : Answers) :
    ∃ s', s.dispatch test p events a b = .ok s' ∧ s.Handled p events a b s' := by
  have hle := hw.le_max hp
  obtain ⟨hst, rfl⟩ := view_eq_some hp
  simp only at hr
  have hin : ∀ {t}, (s.g_events p).events = EPOLLIN → s.call test p a = .ok t →
      (events &&& EPOLLIN ≠ 0 → s.Handled p events a b t) →
      ∃ s', s.dispatch test p events a b = .ok s' ∧ s.Handled p events a b s' := by
    intro t hm hcall hreported
    rw [hm] at hr
    rw [dispatch_in test s p hr, trigger_eq test hm (by decide), hcall]
    split_ifs with hbit
    · exact ⟨t, rfl, hreported hbit⟩
    · exact ⟨s, rfl, .idle (by rw [hm]; exact not_not.mp hbit)⟩
  rcases eq_or_lt_of_le hle with rfl | hlt
  · have hlisten := hp.symm.trans hw.listening
    simp only [Option.some.injEq, Prod.mk.injEq] at hlisten
    exact hin hlisten.2 (by simp [State.call, hw.acceptconn]) fun h => .acceptconn rfl h
  · rcases hw.client p hlt with ⟨h0, -⟩ | ⟨⟨hm, hcb⟩ | ⟨hm, hcb⟩, harg⟩
    · rw [hst] at h0
      cases h0
    · exact hin hm (by simp [State.call, hcb, harg]) fun h => .recvdata hlt hm h
    · rw [hm] at hr
      rw [dispatch_out test s p hr, trigger_eq test hm (by decide)]
      split_ifs with hbit
      · exact ⟨_, by simp [State.call, hcb, harg], .senddata hlt hm hbit⟩
      · exact ⟨s, rfl, .idle (by rw [hm]; exact not_not.mp hbit)⟩

theorem State.Handled.dispatched {lfd : ℕ} {s s' : State} {p events : ℕ} {a b : Answers}
    (h : s.Handled p events a b s') (hw : s.Wiring lfd) (hp : (s.g_events p).status = 1)
    (ha : ∀ cfd, a.accept = some cfd → s.opened cfd = false) : s.Dispatched p s' := by
  have hopen := hw.opened_of_view (view_of_status hp)
  cases h with
  | idle unset => exact .idle
  | acceptconn listening reported =>
    rw [listening]
    exact acceptconn_dispatched fun cfd hcfd => ⟨ha cfd hcfd, hw.interest_none (ha cfd hcfd)⟩
  | recvdata client mask reported => exact recvdata_dispatched client hp hopen test a
  | senddata client mask reported => exact senddata_dispatched client hp mask hopen test b

/-! ## The wiring is kept -/

theorem MyEvent.Armed.wired {e : MyEvent} {i f m : ℕ} (h : e.Armed i f m)
    (hm : m = EPOLLIN ∨ m = EPOLLOUT) : e.Wired i := by
  refine .inr ⟨?_, h.arg⟩
  rcases hm with rfl | rfl
  · exact .inl ⟨h.events, h.call_back⟩
  · exact .inr ⟨h.events, h.call_back⟩

/-- Replacing one client slot by a wired one: the listening slot and the other
clients are as before, so only the two readings of the table are left to compare. -/
theorem State.Wiring.setSlot {lfd : ℕ} {s s' : State} (hw : s.Wiring lfd) {i : ℕ}
    (hi : i < MAX_EVENTS) {e : MyEvent} (hst : e.status = 0 ∨ e.status = 1) (he : e.Wired i)
    (hg : s'.g_events = update s.g_events i e) (hagrees : Registry.Agrees s'.view s'.interest)
    (hopened : ∀ fd, (s'.interest fd).isSome → s'.opened fd = true) : s'.Wiring lfd := by
  have hother : ∀ j, j ≠ i → s'.g_events j = s.g_events j := fun j hj => by
    rw [hg, update_of_ne hj]
  have hself : s'.g_events i = e := by rw [hg, update_self]
  refine ⟨hagrees, fun j => ?_, fun j hj => ?_, ?_, ?_, fun j hj => ?_, hopened⟩
  · rcases eq_or_ne j i with rfl | hne
    · rwa [hself]
    · rw [hother j hne]
      exact hw.status j
  · rw [hother j (by omega)]
    exact hw.bound j hj
  · rw [view_update hg, update_of_ne (by omega)]
    exact hw.listening
  · rw [hother _ (by omega)]
    exact hw.acceptconn
  · rcases eq_or_ne j i with rfl | hne
    · rwa [hself]
    · rw [hother j hne]
      exact hw.client j hj

theorem State.Wiring.install {lfd : ℕ} {s s' : State} (hw : s.Wiring lfd) {i f m : ℕ}
    (hi : i < MAX_EVENTS) {e : MyEvent} (he : e.Armed i f m) (hm : m = EPOLLIN ∨ m = EPOLLOUT)
    (hslot : ∀ l n, s.view i = some (l, n) → l = f)
    (hkey : ∀ j n, s.interest f = some (j, n) → j = i)
    (hg : s'.g_events = update s.g_events i e)
    (hint : s'.interest = update s.interest f (some (i, m)))
    (hopen : ∀ fd, s.opened fd = true ∨ fd = f → s'.opened fd = true) : s'.Wiring lfd := by
  have hview : s'.view = update s.view i (some (f, m)) := by
    rw [view_update hg, if_pos he.status, he.fd, he.events]
  refine hw.setSlot hi (.inr he.status) (he.wired hm) hg ?_ fun fd hfd => ?_
  · rw [hview, hint]
    exact hw.agrees.bind m hslot hkey
  · rcases eq_or_ne fd f with rfl | hne
    · exact hopen fd (.inr rfl)
    · rw [hint, update_of_ne hne] at hfd
      exact hopen fd (.inl (hw.opened fd hfd))

theorem State.Wiring.drop {lfd : ℕ} {s : State} (hw : s.Wiring lfd) {i : ℕ} {r : ℕ × ℕ}
    (hi : i < MAX_EVENTS) (hr : s.view i = some r) {e : MyEvent} (hst : e.status = 0)
    (he : e.Wired i) (call : SysCall) : (s.drop i r.1 e call).Wiring lfd := by
  have hview : (s.drop i r.1 e call).view = update s.view i none := by
    rw [view_update (show _ = update s.g_events i e from rfl), if_neg (by simp [hst])]
  refine hw.setSlot hi (.inl hst) he rfl ?_ fun fd hfd => ?_
  · rw [hview]
    exact hw.agrees.release hr
  · simp only [State.drop] at hfd ⊢
    rcases eq_or_ne fd r.1 with rfl | hne
    · simp at hfd
    · rw [update_of_ne hne] at hfd ⊢
      exact hw.opened fd hfd

theorem State.Wiring.dispatched {lfd : ℕ} {s s' : State} (hw : s.Wiring lfd) {p : ℕ}
    (hp : (s.g_events p).status = 1) (h : s.Dispatched p s') : s'.Wiring lfd := by
  have hview := view_of_status hp
  have hslot : ∀ l n, s.view p = some (l, n) → l = (s.g_events p).fd := by
    intro l n hl
    rw [hview] at hl
    cases hl
    rfl
  have hkey : ∀ j n, s.interest (s.g_events p).fd = some (j, n) → j = p := fun j n hj =>
    hw.agrees.slot_unique ((hw.agrees _ _ _).mpr hj) hview
  have hopen : ∀ fd, s.opened fd = true ∨ fd = (s.g_events p).fd → s.opened fd = true := by
    rintro fd (hfd | rfl)
    · exact hfd
    · exact hw.opened_of_view hview
  have hgiveup : ∀ buf, p < MAX_EVENTS →
      MyEvent.Wired { s.g_events p with status := 0, buf := buf } p := by
    intro buf hlt
    rcases hw.client p hlt with ⟨h0, -⟩ | hwired
    · rw [hp] at h0
      cases h0
    · exact .inr hwired
  cases h with
  | idle => exact hw
  | received client e armed =>
    refine hw.install client armed (.inr rfl) hslot hkey rfl ?_ hopen
    rw [State.rearm, armed.events]
  | sent client mask e ret armed =>
    refine hw.install client armed (.inl rfl) hslot hkey rfl ?_ hopen
    rw [State.rearm, armed.events]
  | closed client buf bytes => exact hw.drop client hview rfl (hgiveup buf client) _
  | failed client mask ret => exact hw.drop client hview rfl (hgiveup _ client) _
  | refused listening cfd fresh =>
    refine ⟨hw.agrees, hw.status, hw.bound, hw.listening, hw.acceptconn, hw.client, ?_⟩
    intro fd hfd
    rcases eq_or_ne fd cfd with rfl | hne
    · exact update_self _ _ _
    · exact (update_of_ne hne _ _).trans (hw.opened fd hfd)
  | accepted listening cfd fresh i lt free e armed =>
    have hnone := hw.interest_none fresh
    refine hw.install lt armed (.inl rfl) (fun l n hl => ?_) (fun j n hj => ?_) rfl rfl ?_
    · have hlive := (view_eq_some hl).1
      rw [free] at hlive
      cases hlive
    · rw [hnone] at hj
      cases hj
    · rintro fd (hfd | rfl)
      · rcases eq_or_ne fd cfd with rfl | hne
        · exact update_self _ _ _
        · exact (update_of_ne hne _ _).trans hfd
      · exact update_self _ _ _

theorem State.Dispatched.frame {s s' : State} {p : ℕ} (h : s.Dispatched p s') {j : ℕ}
    (hj : (s.g_events j).status = 1) (hne : j ≠ p) : s'.g_events j = s.g_events j := by
  cases h with
  | idle => rfl
  | received client e armed => exact update_of_ne hne _ _
  | sent client mask e ret armed => exact update_of_ne hne _ _
  | closed client buf bytes => exact update_of_ne hne _ _
  | failed client mask ret => exact update_of_ne hne _ _
  | refused listening cfd fresh => rfl
  | accepted listening cfd fresh i lt free e armed =>
    refine update_of_ne ?_ _ _
    rintro rfl
    rw [hj] at free
    cases free

end NetworkPrograms.Reactor
