import NetworkPrograms.Reactor.Wiring

/-!
# Isolation of the reactor's clients

Over whole runs of `test.c`: the slot table and the interest list agree, a batch
of events that has been collected stays valid while it is worked off, accepting
a connection touches no live one, and a `send` passes on exactly the bytes of
the last `recv` on its own connection.
-/
namespace NetworkPrograms.Reactor

open Function

/-! ## Whose bytes are sent -/

def SysCall.fd : SysCall → ℕ
  | .accept fd => fd
  | .recv fd _ => fd
  | .send fd _ _ => fd
  | .close fd => fd
  | .epoll_ctl _ fd _ => fd

/-- What the last `recv` on a connection got, in a log with the latest call
first. A connection starts with the `accept` that returned its descriptor. -/
def lastRecv (fd : ℕ) : List SysCall → Option Bytes
  | [] => none
  | .recv fd' bytes :: log => if fd' = fd then bytes else lastRecv fd log
  | .accept fd' :: log => if fd' = fd then none else lastRecv fd log
  | _ :: log => lastRecv fd log

/-- What calls on other connections do not change, one by one, they do not change
together. -/
theorem ignores_append {α : Type*} {f : List SysCall → α} {fd : ℕ}
    (hf : ∀ c log, c.fd ≠ fd → f (c :: log) = f log) (calls log : List SysCall)
    (h : ∀ c ∈ calls, c.fd ≠ fd) : f (calls ++ log) = f log := by
  induction calls with
  | nil => rfl
  | cons c calls ih =>
    rw [List.cons_append, hf c _ (h c List.mem_cons_self)]
    apply ih
    intro d hd
    exact h d (List.mem_cons_of_mem c hd)

theorem lastRecv_append {fd : ℕ} (calls log : List SysCall) (h : ∀ c ∈ calls, c.fd ≠ fd) :
    lastRecv fd (calls ++ log) = lastRecv fd log := by
  apply ignores_append _ calls log h
  intro c log hc
  cases c with
  | accept fd' => exact if_neg hc
  | recv fd' bytes => exact if_neg hc
  | send fd' data ret => rfl
  | close fd' => rfl
  | epoll_ctl op fd' epv => rfl

/-- Every `send` was given exactly what the last `recv` on its connection got. -/
def OwnSends (log : List SysCall) : Prop :=
  ∀ later earlier fd data ret, log = later ++ .send fd data ret :: earlier →
    lastRecv fd earlier = some data

theorem ownSends_nil : OwnSends [] := by
  intro later earlier fd data ret h
  simp at h

theorem OwnSends.cons {c : SysCall} {log : List SysCall} (h : OwnSends log)
    (hc : ∀ fd data ret, c = .send fd data ret → lastRecv fd log = some data) :
    OwnSends (c :: log) := by
  intro later earlier fd data ret heq
  cases later with
  | nil =>
    rw [List.nil_append, List.cons.injEq] at heq
    exact heq.2 ▸ hc fd data ret heq.1
  | cons d later =>
    rw [List.cons_append, List.cons.injEq] at heq
    exact h later earlier fd data ret heq.2

/-- A slot that waits to send holds what the last `recv` on its connection got. -/
structure State.Echo (s : State) : Prop where
  holds : ∀ i, i < MAX_EVENTS → (s.g_events i).status = 1 → (s.g_events i).events = EPOLLOUT →
    lastRecv (s.g_events i).fd s.log = some (s.g_events i).contents
  sends : OwnSends s.log

/-- A statement about a listed slot and the calls on its descriptor. Calls on one
descriptor only touch the slot that holds it. -/
theorem slots_step {Q : MyEvent → List SysCall → Prop}
    (hQ : ∀ e calls log, (∀ c ∈ calls, SysCall.fd c ≠ e.fd) → Q e log → Q e (calls ++ log))
    {s s' : State} (hs : ∀ i, i < MAX_EVENTS → (s.g_events i).status = 1 → Q (s.g_events i) s.log)
    {i f : ℕ} {e : MyEvent} (calls : List SysCall) (hg : s'.g_events = update s.g_events i e)
    (hlog : s'.log = calls ++ s.log) (hcalls : ∀ c ∈ calls, c.fd = f)
    (hother : ∀ j, j ≠ i → (s.g_events j).status = 1 → (s.g_events j).fd ≠ f)
    (he : e.status = 1 → Q e s'.log) :
    ∀ j, j < MAX_EVENTS → (s'.g_events j).status = 1 → Q (s'.g_events j) s'.log := by
  intro j hj hst
  rcases eq_or_ne j i with rfl | hne
  · rw [hg, update_self] at hst ⊢
    exact he hst
  · rw [hg, update_of_ne hne] at hst ⊢
    rw [hlog]
    apply hQ
    · intro c hc
      rw [hcalls c hc]
      exact (hother j hne hst).symm
    · exact hs j hj hst

theorem State.Echo.step {s s' : State} (hs : s.Echo) {i f : ℕ} {e : MyEvent}
    (calls : List SysCall) (hg : s'.g_events = update s.g_events i e)
    (hlog : s'.log = calls ++ s.log) (hcalls : ∀ c ∈ calls, c.fd = f)
    (hother : ∀ j, j ≠ i → (s.g_events j).status = 1 → (s.g_events j).fd ≠ f)
    (he : e.status = 1 → e.events = EPOLLOUT → lastRecv e.fd s'.log = some e.contents)
    (hsends : OwnSends s'.log) : s'.Echo := by
  have hQ : ∀ (e : MyEvent) (calls log : List SysCall), (∀ c ∈ calls, c.fd ≠ e.fd) →
      (e.events = EPOLLOUT → lastRecv e.fd log = some e.contents) →
      e.events = EPOLLOUT → lastRecv e.fd (calls ++ log) = some e.contents := by
    intro e calls log hne h hm
    rw [lastRecv_append calls log hne]
    exact h hm
  exact ⟨slots_step (Q := fun e log => e.events = EPOLLOUT → lastRecv e.fd log = some e.contents)
    hQ hs.holds calls hg hlog hcalls hother he, hsends⟩

theorem State.Echo.dispatched {lfd : ℕ} {s s' : State} (hs : s.Echo) (hw : s.Wiring lfd) {p : ℕ}
    (hp : (s.g_events p).status = 1) (h : s.Dispatched p s') : s'.Echo := by
  have hother : ∀ j, j ≠ p → (s.g_events j).status = 1 →
      (s.g_events j).fd ≠ (s.g_events p).fd := fun j hne hj => hw.fd_ne hj hp hne
  cases h with
  | idle => exact hs
  | received client e armed =>
    refine hs.step [_, _, _] rfl rfl (by simp [SysCall.fd]) hother (fun _ _ => ?_) ?_
    · rw [armed.fd]
      simp [State.rearm, lastRecv]
    · exact ((hs.sends.cons (by simp)).cons (by simp)).cons (by simp)
  | sent client mask e ret armed =>
    refine hs.step [_, _, _] rfl rfl (by simp [SysCall.fd]) hother (fun _ hm => ?_) ?_
    · rw [armed.events] at hm
      cases hm
    · refine ((hs.sends.cons fun fd data ret' heq => ?_).cons (by simp)).cons (by simp)
      cases heq
      exact hs.holds p client hp mask
  | closed client buf bytes =>
    refine hs.step [_, _, _] rfl rfl (by simp [SysCall.fd]) hother (by simp) ?_
    exact ((hs.sends.cons (by simp)).cons (by simp)).cons (by simp)
  | failed client mask ret =>
    refine hs.step [_, _, _] rfl rfl (by simp [SysCall.fd]) hother (by simp) ?_
    refine ((hs.sends.cons fun fd data ret' heq => ?_).cons (by simp)).cons (by simp)
    cases heq
    exact hs.holds p client hp mask
  | refused listening cfd fresh =>
    refine ⟨fun j hj hst hm => ?_, hs.sends.cons (by simp)⟩
    have hne := hw.fd_ne_of_closed fresh hst
    exact (lastRecv_append [.accept cfd] s.log (by simpa [SysCall.fd] using hne.symm)).trans
      (hs.holds j hj hst hm)
  | accepted listening cfd fresh i lt free e armed =>
    refine hs.step [_, _] rfl rfl (by simp [SysCall.fd])
      (fun j _ hst => hw.fd_ne_of_closed fresh hst) (fun _ hm => ?_) ?_
    · rw [armed.events] at hm
      cases hm
    · exact (hs.sends.cons (by simp)).cons (by simp)

theorem initlistensocket_echo (P : Program) (lfd : ℕ) : (initlistensocket P lfd).Echo := by
  rw [initlistensocket_eq]
  refine ⟨fun i hi hst _ => ?_, ownSends_nil.cons (by simp)⟩
  simp only [update_of_ne (ne_of_lt hi)] at hst
  cases hst

/-! ## Runs -/

/-- What the kernel may do: report registered descriptors, each once, with bits
of their mask or an error or hang-up; and return a descriptor from `accept` that
is not open. -/
def Config.Legal (c : Config) : Input → Prop
  | .wait ready => c.pending = [] ∧ (ready.map Prod.fst).Nodup ∧
      ∀ r ∈ ready, ∃ e ∈ c.state.interest r.1, Reported r.2 e.2
  | .dispatch a _ => c.pending ≠ [] ∧ ∀ cfd ∈ a.accept, c.state.opened cfd = false

instance (c : Config) : DecidablePred c.Legal
  | .wait _ => inferInstanceAs (Decidable (_ ∧ _ ∧ _))
  | .dispatch _ _ => inferInstanceAs (Decidable (_ ∧ _))

structure Config.Inv (lfd : ℕ) (c : Config) : Prop where
  wiring : c.state.Wiring lfd
  echo : c.state.Echo
  pending : ∀ r ∈ c.pending, ∃ e, c.state.view r.1 = some e ∧ Reported r.2 e.2
  once : (c.pending.map Prod.fst).Nodup

theorem Config.inv_init (P : Program) (lfd : ℕ) : Config.Inv lfd ⟨initlistensocket P lfd, []⟩ where
  wiring := initlistensocket_wiring P lfd
  echo := initlistensocket_echo P lfd
  pending := by simp
  once := by simp

theorem Config.Inv.wait {lfd : ℕ} {c : Config} (hc : c.Inv lfd) {ready : List (ℕ × ℕ)}
    (hone : (ready.map Prod.fst).Nodup)
    (hready : ∀ r ∈ ready, ∃ e ∈ c.state.interest r.1, Reported r.2 e.2) :
    Config.Inv lfd { c with
      pending := ready.filterMap fun r => (c.state.interest r.1).map fun e => (e.1, r.2) } := by
  have hag := hc.wiring.agrees
  refine ⟨hc.wiring, hc.echo, fun q hq => ?_, ?_⟩
  · obtain ⟨r, hr, hmap⟩ := List.mem_filterMap.mp hq
    obtain ⟨e, he, hrep⟩ := hready r hr
    rw [Option.mem_def.mp he] at hmap
    cases hmap
    exact ⟨(r.1, e.2), (hag _ _ _).mpr he, hrep⟩
  · -- different descriptors are registered for different slots
    rw [List.Nodup, List.pairwise_map] at hone ⊢
    rw [List.pairwise_filterMap]
    refine hone.imp fun {r r'} hne q hq q' hq' heq => hne ?_
    obtain ⟨e, he, rfl⟩ := Option.map_eq_some_iff.mp hq
    obtain ⟨e', he', rfl⟩ := Option.map_eq_some_iff.mp hq'
    have hslot : e = (e'.1, e.2) := Prod.ext heq rfl
    rw [hslot] at he
    exact hag.key_unique he he'

theorem Config.Inv.dispatch {lfd : ℕ} {s : State} {p events : ℕ} {rest : List (ℕ × ℕ)}
    (hc : Config.Inv lfd ⟨s, (p, events) :: rest⟩) {a : Answers} (b : Answers)
    (ha : ∀ cfd, a.accept = some cfd → s.opened cfd = false) :
    ∃ s', s.dispatch test p events a b = .ok s' ∧ (s.g_events p).status = 1 ∧
      s.Handled p events a b s' ∧ s.Dispatched p s' ∧ Config.Inv lfd ⟨s', rest⟩ := by
  obtain ⟨e, hview, hrep⟩ := hc.pending (p, events) (by simp)
  obtain ⟨s', hrun, hhandled⟩ := dispatch_handled hc.wiring hview hrep a b
  have hst := (view_eq_some hview).1
  have hstep := hhandled.dispatched hc.wiring hst ha
  have honce := hc.once
  rw [List.map_cons, List.nodup_cons] at honce
  refine ⟨s', hrun, hst, hhandled, hstep, hc.wiring.dispatched hst hstep,
    hc.echo.dispatched hc.wiring hst hstep, fun r hr => ?_, honce.2⟩
  -- the other events of the batch belong to other live slots
  obtain ⟨e', hview', hrep'⟩ := hc.pending r (by simp [hr])
  have hmem : r.1 ∈ rest.map Prod.fst := List.mem_map_of_mem hr
  have hne : r.1 ≠ p := fun he => honce.1 (he ▸ hmem)
  refine ⟨e', ?_, hrep'⟩
  rw [State.view, hstep.frame (view_eq_some hview').1 hne]
  exact hview'

/-- All that a step of a legal run can do: collect a batch, or handle the next event of
one that has been collected. -/
inductive Config.Stepped (c : Config) : Input → Config → Prop where
  | wait (ready pending : List (ℕ × ℕ)) : Stepped c (.wait ready) { c with pending := pending }
  | dispatch (a b : Answers) (p events : ℕ) (rest : List (ℕ × ℕ)) (s' : State)
      (next : c.pending = (p, events) :: rest) (live : (c.state.g_events p).status = 1)
      (fresh : ∀ cfd, a.accept = some cfd → c.state.opened cfd = false)
      (handled : c.state.Handled p events a b s') (dispatched : c.state.Dispatched p s') :
      Stepped c (.dispatch a b) ⟨s', rest⟩

theorem Config.Inv.stepped {lfd : ℕ} {c : Config} (hc : c.Inv lfd) {inp : Input}
    (h : c.Legal inp) : ∃ c', c.step test inp = .ok c' ∧ c'.Inv lfd ∧ c.Stepped inp c' := by
  obtain ⟨s, pending⟩ := c
  cases inp with
  | wait ready =>
    obtain ⟨hnil, hone, hready⟩ := h
    simp only at hnil
    subst hnil
    exact ⟨_, rfl, hc.wait hone hready, .wait ready _⟩
  | dispatch a b =>
    obtain ⟨hne, ha⟩ := h
    cases pending with
    | nil => exact absurd rfl hne
    | cons r rest =>
      obtain ⟨s', hrun, hst, hhandled, hdisp, hinv⟩ := hc.dispatch b ha
      have hstep : Config.step test ⟨s, r :: rest⟩ (.dispatch a b) = .ok ⟨s', rest⟩ := by
        simp [Config.step, hrun, bind, Except.bind]
      exact ⟨⟨s', rest⟩, hstep, hinv, .dispatch a b r.1 r.2 rest s' rfl hst ha hhandled hdisp⟩

theorem Config.step_inv {lfd : ℕ} {c : Config} (hc : c.Inv lfd) {inp : Input} (h : c.Legal inp) :
    ∃ c', c.step test inp = .ok c' ∧ c'.Inv lfd := by
  obtain ⟨c', hstep, hinv, -⟩ := hc.stepped h
  exact ⟨c', hstep, hinv⟩

/-- Every legal run of `test.c` is free of faults. In every state between two
callbacks a client slot is listed exactly when its descriptor is registered for
it with its mask, listed slots have different descriptors, the callback and the
argument of a slot are those its mask asks for, and every registration belongs
to one listed slot or to the listening one. Accepting a connection changes no
listed client slot, and every `send` was given the bytes of the last `recv` on
its own connection. -/
theorem reactor_isolation (lfd : ℕ) (inputs : List Input)
    (h : Runs.Admissible (Config.step test) Config.Legal ⟨initlistensocket test lfd, []⟩ inputs) :
    ∃ c, Config.run test lfd inputs = .ok c ∧
      (∀ i, i < MAX_EVENTS → ((c.state.g_events i).status = 1 ↔
        c.state.interest (c.state.g_events i).fd = some (i, (c.state.g_events i).events))) ∧
      (∀ i j, i < MAX_EVENTS → j < MAX_EVENTS → (c.state.g_events i).status = 1 →
        (c.state.g_events j).status = 1 → i ≠ j →
        (c.state.g_events i).fd ≠ (c.state.g_events j).fd) ∧
      (∀ i, i < MAX_EVENTS →
        ((c.state.g_events i).events = EPOLLIN →
          (c.state.g_events i).call_back = some .recvdata ∧ (c.state.g_events i).arg = some i) ∧
        ((c.state.g_events i).events = EPOLLOUT →
          (c.state.g_events i).call_back = some .senddata ∧ (c.state.g_events i).arg = some i)) ∧
      (∀ fd p m, c.state.interest fd = some (p, m) →
        fd = lfd ∧ p = MAX_EVENTS ∧ m = EPOLLIN ∨
        ∃! i, i < MAX_EVENTS ∧ (c.state.g_events i).status = 1 ∧ (c.state.g_events i).fd = fd ∧
          p = i ∧ (c.state.g_events i).events = m) ∧
      (∀ a b events rest c', c.pending = (MAX_EVENTS, events) :: rest → c.Legal (.dispatch a b) →
        c.step test (.dispatch a b) = .ok c' →
        ∀ i, i < MAX_EVENTS → (c.state.g_events i).status = 1 →
          c'.state.g_events i = c.state.g_events i ∧
          c'.state.interest (c.state.g_events i).fd = c.state.interest (c.state.g_events i).fd) ∧
      OwnSends c.state.log := by
  obtain ⟨c, hrun, hc⟩ := Runs.run_invariant (Config.Inv lfd)
    (fun _ _ hc hl => Config.step_inv hc hl) (Config.inv_init test lfd) h
  refine ⟨c, hrun, ?_, ?_, ?_, ?_, ?_, hc.echo.sends⟩
  · intro i _
    exact hc.wiring.status_eq_one_iff i
  · intro i j _ _ hi hj hne
    exact hc.wiring.fd_ne hi hj hne
  · intro i hi
    exact hc.wiring.call_back_of_events hi
  · intro fd p m hreg
    exact hc.wiring.owner hreg
  · intro a b events rest c' hpend hlegal hstep i hi hst
    obtain ⟨s, pending⟩ := c
    simp only at hpend
    subst hpend
    obtain ⟨s', hdisp, -, -, hd, hinv⟩ := hc.dispatch b hlegal.2
    simp only [Config.step, hdisp, bind, Except.bind] at hstep
    cases hstep
    have hsame := hd.frame hst (ne_of_lt hi)
    refine ⟨hsame, ?_⟩
    have hreg := (hinv.wiring.status_eq_one_iff i).mp (hsame ▸ hst)
    rw [hsame] at hreg
    rw [(hc.wiring.status_eq_one_iff i).mp hst]
    exact hreg

/-- A second client is accepted in the same batch in which the first one's bytes
are read; these are then sent back to it. -/
theorem reactor_isolation_two_clients :
    ∃ c, Config.run test 3 [.wait [(3, 1)], .dispatch { accept := some 5 } {},
        .wait [(3, 1), (5, 17)], .dispatch { accept := some 6 } {},
        .dispatch { recv := some [104, 105] } {}, .wait [(6, 8), (5, 4)], .dispatch {} {},
        .dispatch {} { send := some 2 }] = .ok c ∧ OwnSends c.state.log := by
  obtain ⟨c, hrun, -, -, -, -, -, hsends⟩ := reactor_isolation 3 [.wait [(3, 1)],
    .dispatch { accept := some 5 } {}, .wait [(3, 1), (5, 17)], .dispatch { accept := some 6 } {},
    .dispatch { recv := some [104, 105] } {}, .wait [(6, 8), (5, 4)], .dispatch {} {},
    .dispatch {} { send := some 2 }] (by decide)
  exact ⟨c, hrun, hsends⟩

end NetworkPrograms.Reactor
