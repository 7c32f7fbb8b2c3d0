import NetworkPrograms.Reactor.Isolation

/-!
# What a client gets back

`test.c` echoes: the bytes that `send` has taken on a connection should be the first
of those that `recv` has returned on it. `senddata` forgets what a short `send` leaves
over, and the connection goes on with the next bytes received.
-/
namespace NetworkPrograms.Reactor

open Function

/-! ## The two streams of a connection -/

/-- The bytes that a `recv` returned. -/
def SysCall.incoming : SysCall → Bytes
  | .recv _ bytes => bytes.getD []
  | _ => []

/-- The bytes that a `send` took. -/
def SysCall.outgoing : SysCall → Bytes
  | .send _ data ret => data.take ret.toNat
  | _ => []

/-- The bytes of a connection, in a log with the latest call first. A connection starts
with the `accept` that returned its descriptor. -/
def stream (part : SysCall → Bytes) (fd : ℕ) : List SysCall → Bytes
  | [] => []
  | .accept fd' :: log => if fd' = fd then [] else stream part fd log
  | c :: log => if c.fd = fd then stream part fd log ++ part c else stream part fd log

/-- The client has got back the first of its own bytes, in order. -/
def Echoes (fd : ℕ) (log : List SysCall) : Prop :=
  stream SysCall.outgoing fd log <+: stream SysCall.incoming fd log

instance (fd : ℕ) (log : List SysCall) : Decidable (Echoes fd log) :=
  inferInstanceAs (Decidable (_ <+: _))

/-- The bytes that `recv` has returned on a connection and that no `send` has taken yet, from
the kernel's answers alone: what the program gave to `send` is not looked at. -/
def owed (fd : ℕ) : List SysCall → Bytes
  | [] => []
  | .accept fd' :: log => if fd' = fd then [] else owed fd log
  | .recv fd' bytes :: log => if fd' = fd then owed fd log ++ bytes.getD [] else owed fd log
  | .send fd' _ ret :: log => if fd' = fd then (owed fd log).drop ret.toNat else owed fd log
  | .close _ :: log => owed fd log
  | .epoll_ctl _ _ _ :: log => owed fd log

/-- What has come in is what went out and what is owed. -/
def Balanced (fd : ℕ) (log : List SysCall) : Prop :=
  stream SysCall.incoming fd log = stream SysCall.outgoing fd log ++ owed fd log

variable {part : SysCall → Bytes} {fd : ℕ} {log : List SysCall}

theorem stream_cons {c : SysCall} (hc : ∀ fd', c ≠ .accept fd') :
    stream part fd (c :: log) =
      if c.fd = fd then stream part fd log ++ part c else stream part fd log := by
  cases c with
  | accept fd' => exact absurd rfl (hc fd')
  | recv fd' bytes => rfl
  | send fd' data ret => rfl
  | close fd' => rfl
  | epoll_ctl op fd' epv => rfl

theorem stream_cons_self {c : SysCall} (hc : ∀ fd', c ≠ .accept fd') (hfd : c.fd = fd) :
    stream part fd (c :: log) = stream part fd log ++ part c := by
  rw [stream_cons hc, if_pos hfd]

theorem stream_cons_other {c : SysCall} (hc : ∀ fd', c ≠ .accept fd') (hfd : c.fd ≠ fd) :
    stream part fd (c :: log) = stream part fd log := by
  rw [stream_cons hc, if_neg hfd]

theorem stream_cons_of_nil {c : SysCall} (hc : ∀ fd', c ≠ .accept fd') (hpart : part c = []) :
    stream part fd (c :: log) = stream part fd log := by
  rw [stream_cons hc, hpart, List.append_nil, ite_self]

@[simp] theorem balanced_epoll_ctl {op fd' : ℕ} {epv : Option (ℕ × ℕ)} :
    Balanced fd (.epoll_ctl op fd' epv :: log) ↔ Balanced fd log := by
  rw [Balanced, stream_cons_of_nil (by simp) rfl, stream_cons_of_nil (by simp) rfl, owed, Balanced]

@[simp] theorem balanced_close {fd' : ℕ} : Balanced fd (.close fd' :: log) ↔ Balanced fd log := by
  rw [Balanced, stream_cons_of_nil (by simp) rfl, stream_cons_of_nil (by simp) rfl, owed, Balanced]

@[simp] theorem echoes_epoll_ctl {op fd' : ℕ} {epv : Option (ℕ × ℕ)} :
    Echoes fd (.epoll_ctl op fd' epv :: log) ↔ Echoes fd log := by
  rw [Echoes, stream_cons_of_nil (by simp) rfl, stream_cons_of_nil (by simp) rfl, Echoes]

@[simp] theorem echoes_close {fd' : ℕ} : Echoes fd (.close fd' :: log) ↔ Echoes fd log := by
  rw [Echoes, stream_cons_of_nil (by simp) rfl, stream_cons_of_nil (by simp) rfl, Echoes]

namespace Balanced

theorem echoes (h : Balanced fd log) : Echoes fd log := ⟨_, h.symm⟩

theorem accept (h : Balanced fd log) (fd' : ℕ) : Balanced fd (.accept fd' :: log) := by
  unfold Balanced stream owed
  split_ifs
  · rfl
  · exact h

theorem recv (h : Balanced fd log) (fd' : ℕ) (bytes : Option Bytes) :
    Balanced fd (.recv fd' bytes :: log) := by
  by_cases hfd : fd' = fd
  · rw [Balanced, stream_cons_self (c := .recv fd' bytes) (by simp) hfd,
      stream_cons_of_nil (by simp) rfl, owed, if_pos hfd, h, List.append_assoc]
    rfl
  · rw [Balanced, stream_cons_other (c := .recv fd' bytes) (by simp) hfd,
      stream_cons_of_nil (by simp) rfl, owed, if_neg hfd]
    exact h

theorem send (h : Balanced fd log) {fd' : ℕ} {data : Bytes} {ret : ℤ}
    (hret : ret.toNat ≤ data.length) (hnext : fd' = fd → data.take ret.toNat <+: owed fd log) :
    Balanced fd (.send fd' data ret :: log) := by
  have hin : stream SysCall.incoming fd (.send fd' data ret :: log) =
      stream SysCall.incoming fd log := stream_cons_of_nil (by simp) rfl
  by_cases hfd : fd' = fd
  · obtain ⟨rest, hrest⟩ := hnext hfd
    rw [Balanced, hin, stream_cons_self (c := .send fd' data ret) (by simp) hfd, owed,
      if_pos hfd, h, ← hrest, List.drop_left' (List.length_take_of_le hret), List.append_assoc]
    rfl
  · rw [Balanced, hin, stream_cons_other (c := .send fd' data ret) (by simp) hfd, owed,
      if_neg hfd]
    exact h

theorem echoes_send_iff (h : Balanced fd log) (fd' : ℕ) (data : Bytes) (ret : ℤ) :
    Echoes fd (.send fd' data ret :: log) ↔
      (fd' = fd → data.take ret.toNat <+: owed fd log) := by
  rw [Echoes, stream_cons (by simp), stream_cons_of_nil (by simp) rfl, h]
  split_ifs with hfd
  · rw [List.prefix_append_right_inj]
    exact ⟨fun hsent _ => hsent, fun hsent => hsent hfd⟩
  · exact ⟨fun _ heq => absurd heq hfd, fun _ => List.prefix_append _ _⟩

end Balanced

/-! ## What a callback does to them -/

theorem sent_le (b : Answers) (e : MyEvent) : (b.sent e.len).toNat ≤ e.contents.length := by
  have hlen : e.contents.length = e.len := by simp [MyEvent.contents]
  rw [hlen, Answers.sent]
  cases b.send with
  | none => simp
  | some n =>
    simp only
    omega

theorem senddata_log {lfd : ℕ} {s : State} (hw : s.Wiring lfd) {p : ℕ}
    (hp : (s.g_events p).status = 1) (P : Program) (b : Answers) (Q : List SysCall → Prop)
    (hctl : ∀ op fd epv log, Q (.epoll_ctl op fd epv :: log) ↔ Q log)
    (hclose : ∀ fd log, Q (.close fd :: log) ↔ Q log) :
    Q (s.senddata P (s.g_events p).fd p b).log ↔
      Q (.send (s.g_events p).fd (s.g_events p).contents (b.sent (s.g_events p).len) :: s.log) := by
  by_cases hpos : 0 < b.sent (s.g_events p).len
  · rw [senddata_sent P hp (hw.opened_of_view (view_of_status hp)) hpos]
    simp only [State.rearm, hctl]
  · rw [senddata_failed P hp hpos]
    simp only [State.drop, hctl, hclose]

theorem State.Dispatched.balanced {s s' : State} {p : ℕ} (h : s.Dispatched p s')
    (hmask : p < MAX_EVENTS → (s.g_events p).events ≠ EPOLLOUT) (hs : ∀ fd, Balanced fd s.log)
    (fd : ℕ) : Balanced fd s'.log := by
  cases h with
  | idle => exact hs fd
  | received client e armed => simpa [State.rearm] using (hs fd).recv _ _
  | sent client mask e ret armed => exact absurd mask (hmask client)
  | closed client buf bytes => simpa [State.drop] using (hs fd).recv _ _
  | failed client mask ret => exact absurd mask (hmask client)
  | refused listening cfd fresh => exact (hs fd).accept cfd
  | accepted listening cfd fresh i lt free e armed => simpa using (hs fd).accept cfd

/-- The bytes of a connection's last `recv`. -/
def lastBytes (fd : ℕ) (log : List SysCall) : Bytes := (lastRecv fd log).getD []

/-- If `send` takes any bytes of the last message, they are the same as those that are owed:
the message itself when every `send` before has taken all, otherwise what was left over. -/
def Answers.Repeats (b : Answers) (fd : ℕ) (log : List SysCall) : Prop :=
  (lastBytes fd log).take (b.sent (lastBytes fd log).length).toNat <+: owed fd log

/-- `send` takes all that the last `recv` has returned, or fails. -/
def Answers.Whole (b : Answers) (fd : ℕ) (log : List SysCall) : Prop :=
  0 < b.sent (lastBytes fd log).length →
    b.sent (lastBytes fd log).length = (lastBytes fd log).length

/-- A condition on the kernel's answers so far and on its answer to `send`, for a client that
is reported as ready for it. -/
def Config.OnSend (ok : Answers → ℕ → List SysCall → Prop) (c : Config) : Input → Prop
  | .wait _ => True
  | .dispatch _ b => ∀ r ∈ c.pending.head?, r.1 < MAX_EVENTS → r.2 &&& EPOLLOUT ≠ 0 →
      ok b (c.state.g_events r.1).fd c.state.log

instance (c : Config) : DecidablePred (c.OnSend Answers.Repeats)
  | .wait _ => isTrue trivial
  | .dispatch _ _ =>
    have (b : Answers) (fd : ℕ) (log : List SysCall) : Decidable (b.Repeats fd log) :=
      inferInstanceAs (Decidable (_ <+: _))
    inferInstanceAs (Decidable (∀ r ∈ _, _ → _ → _))

/-- Where a client slot is reported as ready to send, it waits to send and has the last
message in its buffer. -/
theorem Config.Inv.lastBytes_eq {lfd : ℕ} {c : Config} (hc : c.Inv lfd) {p events : ℕ}
    {rest : List (ℕ × ℕ)} (next : c.pending = (p, events) :: rest) (client : p < MAX_EVENTS)
    (reported : events &&& EPOLLOUT ≠ 0) :
    (c.state.g_events p).events = EPOLLOUT ∧
      lastBytes (c.state.g_events p).fd c.state.log = (c.state.g_events p).contents := by
  obtain ⟨e, hview, hrep⟩ := hc.pending (p, events) (by simp [next])
  obtain ⟨hst, rfl⟩ := view_eq_some hview
  have hmask : (c.state.g_events p).events = EPOLLOUT := by
    rcases hc.wiring.client p client with ⟨hfree, -⟩ | ⟨⟨hin, -⟩ | ⟨hout, -⟩, -⟩
    · rw [hfree] at hst
      cases hst
    · simp only [hin] at hrep
      exact absurd hrep.not_out reported
    · exact hout
  exact ⟨hmask, by rw [lastBytes, hc.echo.holds p client hst hmask, Option.getD_some]⟩

/-- A step keeps the balance when its `send` repeats what is owed, and ends the echo when
not. -/
theorem Config.Stepped.balanced_or {lfd : ℕ} {c c' : Config} {inp : Input}
    (h : c.Stepped inp c') (hc : c.Inv lfd) (hs : ∀ fd, Balanced fd c.state.log) :
    (c.OnSend Answers.Repeats inp → ∀ fd, Balanced fd c'.state.log) ∧
      (¬ c.OnSend Answers.Repeats inp → ¬ ∀ fd, Echoes fd c'.state.log) := by
  cases h with
  | wait ready pending => exact ⟨fun _ => hs, fun hnot => absurd trivial hnot⟩
  | dispatch a b p events rest s' next live fresh handled dispatched =>
    have hon : c.OnSend Answers.Repeats (.dispatch a b) ↔
        (p < MAX_EVENTS → events &&& EPOLLOUT ≠ 0 →
          b.Repeats (c.state.g_events p).fd c.state.log) := by
      simp [Config.OnSend, next]
    have hquiet : (p < MAX_EVENTS → (c.state.g_events p).events ≠ EPOLLOUT) →
        c.OnSend Answers.Repeats (.dispatch a b) := by
      intro hne
      rw [hon]
      intro client reported
      exact absurd (hc.lastBytes_eq next client reported).1 (hne client)
    cases handled with
    | idle unset =>
      refine ⟨fun _ => hs, fun hnot => absurd (hon.mpr ?_) hnot⟩
      intro client reported
      rw [(hc.lastBytes_eq next client reported).1] at unset
      exact absurd unset reported
    | acceptconn listening reported =>
      have hnot : ¬ p < MAX_EVENTS := by omega
      exact ⟨fun _ => dispatched.balanced (fun hlt => absurd hlt hnot) hs,
        fun hbad => absurd (hquiet fun hlt => absurd hlt hnot) hbad⟩
    | recvdata client mask reported =>
      have hnot : (c.state.g_events p).events ≠ EPOLLOUT := by
        rw [mask]
        decide
      exact ⟨fun _ => dispatched.balanced (fun _ => hnot) hs,
        fun hbad => absurd (hquiet fun _ => hnot) hbad⟩
    | senddata client mask reported =>
      have hlen : (c.state.g_events p).contents.length = (c.state.g_events p).len := by
        simp [MyEvent.contents]
      have hrep : b.Repeats (c.state.g_events p).fd c.state.log ↔
          (c.state.g_events p).contents.take (b.sent (c.state.g_events p).len).toNat <+:
            owed (c.state.g_events p).fd c.state.log := by
        rw [Answers.Repeats, (hc.lastBytes_eq next client reported).2, hlen]
      constructor
      · intro hok fd
        rw [senddata_log hc.wiring live test b (Balanced fd) (by simp) (by simp)]
        apply (hs fd).send (sent_le b _)
        rintro rfl
        exact hrep.mp (hon.mp hok client reported)
      · intro hbad hecho
        apply hbad
        rw [hon]
        intro _ _
        have hsent := hecho (c.state.g_events p).fd
        rw [senddata_log hc.wiring live test b (Echoes _) (by simp) (by simp),
          (hs _).echoes_send_iff] at hsent
        exact hrep.mpr (hsent rfl)

theorem initlistensocket_balanced (P : Program) (lfd fd : ℕ) :
    Balanced fd (initlistensocket P lfd).log := by
  rw [initlistensocket_eq]
  exact balanced_epoll_ctl.mpr rfl

/-! ## Sends that take everything -/

theorem owed_append {calls : List SysCall} (h : ∀ c ∈ calls, c.fd ≠ fd) :
    owed fd (calls ++ log) = owed fd log := by
  apply ignores_append _ calls log h
  intro c log hc
  cases c with
  | accept fd' => exact if_neg hc
  | recv fd' bytes => exact if_neg hc
  | send fd' data ret => exact if_neg hc
  | close fd' => rfl
  | epoll_ctl op fd' epv => rfl

/-- What is owed is in the buffer of a slot that waits to send, and nothing is for one that
waits to receive. -/
def MyEvent.InLine (e : MyEvent) (log : List SysCall) : Prop :=
  owed e.fd log = if e.events = EPOLLOUT then e.contents else []

def State.InLine (s : State) : Prop :=
  ∀ i, i < MAX_EVENTS → (s.g_events i).status = 1 → (s.g_events i).InLine s.log

theorem MyEvent.InLine.append (e : MyEvent) (calls log : List SysCall)
    (hcalls : ∀ c ∈ calls, SysCall.fd c ≠ e.fd) (h : e.InLine log) : e.InLine (calls ++ log) :=
  (owed_append hcalls).trans h

section InLine

variable {lfd : ℕ} {s : State} (hs : s.InLine) (hw : s.Wiring lfd) {p : ℕ}

include hs hw

theorem State.InLine.acceptconn {a : Answers}
    (hfresh : ∀ cfd, a.accept = some cfd → s.opened cfd = false) :
    (s.acceptconn test a).InLine := by
  cases ha : a.accept with
  | none => simpa [State.acceptconn, ha] using hs
  | some cfd =>
    have hother : ∀ j, (s.g_events j).status = 1 → (s.g_events j).fd ≠ cfd := fun j hj =>
      hw.fd_ne_of_closed (hfresh cfd ha) hj
    by_cases hrefuses : s.Refuses a
    · rw [acceptconn_refused test ha hrefuses]
      intro j hj hst
      apply MyEvent.InLine.append _ [.accept cfd] _ _ (hs j hj hst)
      simpa [SysCall.fd] using (hother j hst).symm
    · rw [acceptconn_accepted test ha hrefuses (hw.interest_none (hfresh cfd ha))]
      apply slots_step MyEvent.InLine.append hs [_, _] rfl rfl (by simp [SysCall.fd])
        fun j _ hst => hother j hst
      intro _
      simp [MyEvent.InLine, MyEvent.armed, EPOLLIN, EPOLLOUT, owed]

theorem State.InLine.recvdata (hp : (s.g_events p).status = 1) (hlt : p < MAX_EVENTS)
    (hmask : (s.g_events p).events = EPOLLIN) (a : Answers) :
    (s.recvdata test (s.g_events p).fd p a).InLine := by
  have hother : ∀ j, j ≠ p → (s.g_events j).status = 1 →
      (s.g_events j).fd ≠ (s.g_events p).fd := fun j hne hj => hw.fd_ne hj hp hne
  by_cases hpos : 0 < (a.received.getD []).length
  · cases hgot : a.received with
    | none => simp [hgot] at hpos
    | some bytes =>
      rw [hgot, Option.getD_some] at hpos
      obtain ⟨hcontents, hlen⟩ := filled_contents (s.g_events p) (received_length_le hgot)
      have hnil : owed (s.g_events p).fd s.log = [] := by
        have hin := hs p hlt hp
        rwa [MyEvent.InLine, hmask, if_neg (by decide)] at hin
      rw [recvdata_received test hp (hw.opened_of_view (view_of_status hp)) hgot hpos]
      apply slots_step MyEvent.InLine.append hs [_, _, _] rfl rfl (by simp [SysCall.fd]) hother
      intro _
      rw [MyEvent.InLine, contents_armed (by omega), hcontents]
      simp [MyEvent.armed, State.rearm, owed, hnil]
  · rw [recvdata_closed test hp (by omega)]
    exact slots_step MyEvent.InLine.append hs [_, _, _] rfl rfl (by simp [SysCall.fd]) hother
      (by simp)

theorem State.InLine.senddata (hp : (s.g_events p).status = 1) (hlt : p < MAX_EVENTS)
    (hmask : (s.g_events p).events = EPOLLOUT) {b : Answers}
    (hall : 0 < b.sent (s.g_events p).len → b.sent (s.g_events p).len = (s.g_events p).len) :
    (s.senddata test (s.g_events p).fd p b).InLine := by
  have hother : ∀ j, j ≠ p → (s.g_events j).status = 1 →
      (s.g_events j).fd ≠ (s.g_events p).fd := fun j hne hj => hw.fd_ne hj hp hne
  by_cases hpos : 0 < b.sent (s.g_events p).len
  · have hbuf : owed (s.g_events p).fd s.log = (s.g_events p).contents := by
      have hin := hs p hlt hp
      rwa [MyEvent.InLine, hmask, if_pos rfl] at hin
    rw [senddata_sent test hp (hw.opened_of_view (view_of_status hp)) hpos, hall hpos]
    apply slots_step MyEvent.InLine.append hs [_, _, _] rfl rfl (by simp [SysCall.fd]) hother
    intro _
    simp [MyEvent.InLine, MyEvent.armed, State.rearm, EPOLLIN, EPOLLOUT, owed, hbuf,
      MyEvent.contents]
  · rw [senddata_failed test hp hpos]
    exact slots_step MyEvent.InLine.append hs [_, _, _] rfl rfl (by simp [SysCall.fd]) hother
      (by simp)

end InLine

theorem initlistensocket_inLine (P : Program) (lfd : ℕ) : (initlistensocket P lfd).InLine := by
  intro i hi hst
  rw [initlistensocket_eq] at hst
  simp only [update_of_ne (ne_of_lt hi)] at hst
  cases hst

theorem Config.Stepped.inLine {lfd : ℕ} {c c' : Config} {inp : Input} (h : c.Stepped inp c')
    (hc : c.Inv lfd) (hs : c.state.InLine) (hwhole : c.OnSend Answers.Whole inp) :
    c.OnSend Answers.Repeats inp ∧ c'.state.InLine := by
  cases h with
  | wait ready pending => exact ⟨trivial, hs⟩
  | dispatch a b p events rest s' next live fresh handled dispatched =>
    constructor
    · intro r hr client reported
      rw [next] at hr
      cases hr
      obtain ⟨hmask, hlast⟩ := hc.lastBytes_eq next client reported
      have hin := hs p client live
      rw [MyEvent.InLine, if_pos hmask] at hin
      rw [Answers.Repeats, hlast, hin]
      exact List.take_prefix _ _
    · cases handled with
      | idle unset => exact hs
      | acceptconn listening reported => exact hs.acceptconn hc.wiring fresh
      | recvdata client mask reported => exact hs.recvdata hc.wiring live client mask a
      | senddata client mask reported =>
        have hlen : (c.state.g_events p).contents.length = (c.state.g_events p).len := by
          simp [MyEvent.contents]
        have hall := hwhole (p, events) (by simp [next]) client reported
        rw [Answers.Whole, (hc.lastBytes_eq next client reported).2, hlen] at hall
        exact hs.senddata hc.wiring live client mask hall

/-- In every state of a legal run each client has got back the first of its own bytes,
exactly when every `send` takes of the last message only what repeats the bytes that are still
owed to the client, by the kernel's answers so far. That is so while every `send` takes all
that `recv` has returned, or fails. -/
theorem echoes_iff (lfd : ℕ) (inputs : List Input)
    (h : Runs.Admissible (Config.step test) Config.Legal ⟨initlistensocket test lfd, []⟩ inputs) :
    ((∀ pre, pre <+: inputs → ∃ c, Config.run test lfd pre = .ok c ∧
        ∀ fd, Echoes fd c.state.log) ↔
      Runs.Admissible (Config.step test) (Config.OnSend Answers.Repeats)
        ⟨initlistensocket test lfd, []⟩ inputs) ∧
    (Runs.Admissible (Config.step test) (fun c inp => c.Legal inp ∧ c.OnSend Answers.Whole inp)
        ⟨initlistensocket test lfd, []⟩ inputs →
      Runs.Admissible (Config.step test) (Config.OnSend Answers.Repeats)
        ⟨initlistensocket test lfd, []⟩ inputs) := by
  constructor
  · apply Runs.forall_isPrefix_iff_admissible
      (fun c => c.Inv lfd ∧ ∀ fd, Balanced fd c.state.log) (fun c => ∀ fd, Echoes fd c.state.log)
      (fun _ hc fd => (hc.2 fd).echoes) _
      ⟨Config.inv_init test lfd, initlistensocket_balanced test lfd⟩ h
    rintro c inp ⟨hc, hs⟩ hlegal
    obtain ⟨c', hstep, hinv, hstepped⟩ := hc.stepped hlegal
    obtain ⟨hkeep, hlose⟩ := hstepped.balanced_or hc hs
    exact ⟨c', hstep, fun hrep => ⟨hinv, hkeep hrep⟩, hlose⟩
  · apply Runs.Admissible.imp (fun c => c.Inv lfd ∧ c.state.InLine) _
      ⟨Config.inv_init test lfd, initlistensocket_inLine test lfd⟩
    rintro c inp ⟨hc, hs⟩ ⟨hlegal, hwhole⟩
    obtain ⟨c', hstep, hinv, hstepped⟩ := hc.stepped hlegal
    obtain ⟨hrep, hin⟩ := hstepped.inLine hc hs hwhole
    refine ⟨hrep, ?_⟩
    intro t ht
    rw [hstep] at ht
    cases ht
    exact ⟨hinv, hin⟩

/-- Nothing is left over from one message when the next is received. -/
theorem echoes_iff_two_messages :
    ∃ c, Config.run test 3 [.wait [(3, 1)], .dispatch { accept := some 5 } {}, .wait [(5, 1)],
        .dispatch { recv := some [104, 105] } {}, .wait [(5, 4)], .dispatch {} { send := some 2 },
        .wait [(5, 1)], .dispatch { recv := some [121, 111] } {}, .wait [(5, 4)],
        .dispatch {} { send := some 1 }] = .ok c ∧ ∀ fd, Echoes fd c.state.log :=
  (echoes_iff 3 _ (by decide +kernel)).1.mpr (by decide +kernel) _ List.prefix_rfl

/-- One byte of two is taken, and then the next message: the client that has written
`hiyo` reads `hyo`. -/
theorem short_send_loses_byte :
    ¬ ∀ (lfd : ℕ) (inputs : List Input) (c : Config),
      Runs.Admissible (Config.step test) Config.Legal ⟨initlistensocket test lfd, []⟩ inputs →
      Config.run test lfd inputs = .ok c → ∀ fd, Echoes fd c.state.log := by
  intro h
  have hecho := h 3 [.wait [(3, 1)], .dispatch { accept := some 5 } {}, .wait [(5, 1)],
    .dispatch { recv := some [104, 105] } {}, .wait [(5, 4)], .dispatch {} { send := some 1 },
    .wait [(5, 1)], .dispatch { recv := some [121, 111] } {}, .wait [(5, 4)],
    .dispatch {} { send := some 2 }] _ (by decide +kernel) rfl 5
  exact absurd hecho (by decide +kernel)

end NetworkPrograms.Reactor
