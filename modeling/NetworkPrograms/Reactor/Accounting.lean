import NetworkPrograms.Reactor.Isolation

/-!
# The descriptors of the reactor

Between two callbacks of `test.c` the clients that have been accepted and not yet been
closed should be those in the slots. `acceptconn` has two exits on which a descriptor
that it has just got is neither put into a slot nor closed.
-/
namespace NetworkPrograms.Reactor

open Function

/-- The open client descriptors are those of the listed client slots. -/
def State.Accounted (lfd : ℕ) (s : State) : Prop :=
  ∀ fd, s.opened fd = true ∧ fd ≠ lfd ↔
    ∃ i, i < MAX_EVENTS ∧ (s.g_events i).status = 1 ∧ (s.g_events i).fd = fd

/-- Every open descriptor is on the interest list. -/
def State.Registered (s : State) : Prop := ∀ fd, s.opened fd = true → (s.interest fd).isSome

section

variable {lfd : ℕ} {s s' : State}

theorem State.Wiring.accounted_iff_registered (hw : s.Wiring lfd) :
    s.Accounted lfd ↔ s.Registered := by
  obtain ⟨hst, hlisten⟩ := view_eq_some hw.listening
  simp only [Prod.mk.injEq] at hlisten
  constructor
  · intro h fd hopen
    rcases eq_or_ne fd lfd with rfl | hne
    · rw [(hw.agrees MAX_EVENTS fd EPOLLIN).mp hw.listening]
      rfl
    · obtain ⟨i, -, hi, rfl⟩ := (h fd).mp ⟨hopen, hne⟩
      rw [(hw.status_eq_one_iff i).mp hi]
      rfl
  · intro h fd
    constructor
    · rintro ⟨hopen, hne⟩
      obtain ⟨⟨p, m⟩, hreg⟩ := Option.isSome_iff_exists.mp (h fd hopen)
      rcases hw.owner hreg with ⟨heq, -⟩ | ⟨i, ⟨hlt, hi, hfd, -⟩, -⟩
      · exact absurd heq hne
      · exact ⟨i, hlt, hi, hfd⟩
    · rintro ⟨i, hlt, hi, rfl⟩
      constructor
      · exact hw.opened_of_view (view_of_status hi)
      · rw [hlisten.1]
        exact hw.fd_ne hi hst (ne_of_lt hlt)

theorem initlistensocket_registered (P : Program) (lfd : ℕ) :
    (initlistensocket P lfd).Registered := by
  rw [initlistensocket_eq]
  intro fd hopen
  have hfd : fd = lfd := by simpa using hopen
  simp [hfd]

theorem State.Dispatched.registered {p : ℕ} (h : s.Dispatched p s') (hp : p < MAX_EVENTS)
    (hs : s.Registered) : s'.Registered := by
  have hrearm : ∀ e call, (s.rearm p (s.g_events p).fd e call).Registered := by
    intro e call fd hopen
    simp only [State.rearm] at hopen ⊢
    rcases eq_or_ne fd (s.g_events p).fd with rfl | hne
    · simp
    · rw [update_of_ne hne]
      exact hs fd hopen
  have hdrop : ∀ e call, (s.drop p (s.g_events p).fd e call).Registered := by
    intro e call fd hopen
    simp only [State.drop] at hopen ⊢
    rcases eq_or_ne fd (s.g_events p).fd with rfl | hne
    · simp at hopen
    · rw [update_of_ne hne] at hopen ⊢
      exact hs fd hopen
  cases h with
  | idle => exact hs
  | received client e armed => exact hrearm _ _
  | sent client mask e ret armed => exact hrearm _ _
  | closed client buf bytes => exact hdrop _ _
  | failed client mask ret => exact hdrop _ _
  | refused listening cfd fresh => omega
  | accepted listening cfd fresh i lt free e armed => omega

theorem acceptconn_registered_iff (hw : s.Wiring lfd) (hs : s.Registered) {a : Answers}
    (hfresh : ∀ cfd, a.accept = some cfd → s.opened cfd = false) :
    (s.acceptconn test a).Registered ↔ (a.accept ≠ none → ¬ s.Refuses a) := by
  cases ha : a.accept with
  | none => simpa [State.acceptconn, ha] using hs
  | some cfd =>
    have hnone := hw.interest_none (hfresh cfd ha)
    by_cases hrefuses : s.Refuses a
    · rw [acceptconn_refused test ha hrefuses]
      apply iff_of_false
      · intro h
        have hsome := h cfd (update_self _ _ _)
        rw [hnone] at hsome
        cases hsome
      · simpa using hrefuses
    · rw [acceptconn_accepted test ha hrefuses hnone]
      apply iff_of_true
      · intro fd hopen
        rcases eq_or_ne fd cfd with rfl | hne
        · simp
        · simp only [update_of_ne hne] at hopen ⊢
          exact hs fd hopen
      · exact fun _ => hrefuses

end

/-- A connection that `acceptconn` gets is taken in. -/
def Config.TakesIn (c : Config) : Input → Prop
  | .wait _ => True
  | .dispatch a _ => ∀ r ∈ c.pending.head?, r.1 = MAX_EVENTS → r.2 &&& EPOLLIN ≠ 0 →
      a.accept ≠ none → ¬ c.state.Refuses a

instance (c : Config) : DecidablePred c.TakesIn
  | .wait _ => isTrue trivial
  | .dispatch _ _ => inferInstanceAs (Decidable (∀ r ∈ _, _ → _ → _ → _))

theorem Config.Stepped.registered_iff {lfd : ℕ} {c c' : Config} {inp : Input}
    (h : c.Stepped inp c') (hc : c.Inv lfd) (hs : c.state.Registered) :
    c'.state.Registered ↔ c.TakesIn inp := by
  cases h with
  | wait ready pending => exact iff_of_true hs trivial
  | dispatch a b p events rest s' next live fresh handled dispatched =>
    simp only [Config.TakesIn, next, List.head?_cons, Option.mem_some_iff, forall_eq']
    cases handled with
    | idle unset =>
      refine iff_of_true hs ?_
      rintro rfl hbit
      obtain ⟨-, hlisten⟩ := view_eq_some hc.wiring.listening
      simp only [Prod.mk.injEq] at hlisten
      rw [← hlisten.2] at unset
      exact absurd unset hbit
    | acceptconn listening reported =>
      rw [acceptconn_registered_iff hc.wiring hs fresh]
      exact ⟨fun htakes _ _ => htakes, fun htakes => htakes listening reported⟩
    | recvdata client mask reported =>
      exact iff_of_true (dispatched.registered client hs) fun heq => absurd heq (ne_of_lt client)
    | senddata client mask reported =>
      exact iff_of_true (dispatched.registered client hs) fun heq => absurd heq (ne_of_lt client)

/-- In every state of a legal run the open client descriptors are those of the listed
slots, exactly when every connection that is accepted finds a slot and its `fcntl`
succeeds. -/
theorem accounted_iff (lfd : ℕ) (inputs : List Input)
    (h : Runs.Admissible (Config.step test) Config.Legal ⟨initlistensocket test lfd, []⟩ inputs) :
    (∀ pre, pre <+: inputs → ∃ c, Config.run test lfd pre = .ok c ∧ c.state.Accounted lfd) ↔
    Runs.Admissible (Config.step test) Config.TakesIn ⟨initlistensocket test lfd, []⟩ inputs := by
  apply Runs.forall_isPrefix_iff_admissible
    (fun c => c.Inv lfd ∧ c.state.Registered) (fun c => c.state.Accounted lfd)
    (fun c hc => hc.1.wiring.accounted_iff_registered.mpr hc.2) _
    ⟨Config.inv_init test lfd, initlistensocket_registered test lfd⟩ h
  rintro c inp ⟨hc, hs⟩ hlegal
  obtain ⟨c', hstep, hinv, hstepped⟩ := hc.stepped hlegal
  have hiff := hstepped.registered_iff hc hs
  refine ⟨c', hstep, fun htakes => ⟨hinv, hiff.mpr htakes⟩, ?_⟩
  intro htakes hacc
  exact htakes (hiff.mp (hinv.wiring.accounted_iff_registered.mp hacc))

/-- One client comes and goes while another one is served. -/
theorem accounted_iff_two_clients :
    ∃ c, Config.run test 3 [.wait [(3, 1)], .dispatch { accept := some 5 } {},
        .wait [(3, 1), (5, 17)], .dispatch { accept := some 6 } {}, .dispatch {} {}] = .ok c ∧
      c.state.Accounted 3 :=
  (accounted_iff 3 _ (by decide +kernel)).mpr (by decide +kernel) _ List.prefix_rfl

/-- `fcntl` fails for a new connection, which is then neither in a slot nor closed. -/
theorem refused_connection_stays_open :
    ¬ ∀ (lfd : ℕ) (inputs : List Input) (c : Config),
      Runs.Admissible (Config.step test) Config.Legal ⟨initlistensocket test lfd, []⟩ inputs →
      Config.run test lfd inputs = .ok c → c.state.Accounted lfd := by
  intro h
  have hacc := h 3 [.wait [(3, 1)], .dispatch { accept := some 5, fcntl := -1 } {}] _
    (by decide +kernel) rfl
  exact absurd ((hacc 5).mp (by decide +kernel)) (by decide +kernel)

end NetworkPrograms.Reactor
