import NetworkPrograms.Judge.Invariant

/-!
# Safety of the judge over whole runs

The pointer discipline holds in every state a judge can reach, with no bound
on the run. Below `2 ^ 32` calls the counters do not wrap around, and the keys
of `info` are then exactly the positions that are still to be compared.
-/
namespace NetworkPrograms.Judge

open NetworkTestServer Function

/-- The pointer discipline, as long as the judge has not stopped. -/
def Session.Sound (x : Session) : Prop := x.server.status = .Success → Live x.server

theorem Session.step_stopped {x : Session} (hst : x.server.status ≠ .Success) (c : Call) :
    x.step c = .ok x := by
  cases c with
  | answerRegister content =>
    simp [Session.step, AnswerRegister_stopped hst, hst, bind, Except.bind]
  | commit msg => simp [Session.step, commit_stopped hst, hst, bind, Except.bind]
  | resultQuery id => simp [Session.step, ResultQuery_stopped hst, bind, Except.bind]

/-- The effect of one call on a judge that has not stopped, in terms of the
counters, the entries and the two histories. -/
inductive Session.Stepped (x : Session) : Call → Session → Prop where
  | answerRegister {x' : Session} (content : Bytes) (live : Live x'.server)
      (status : x'.server.status = .Success) (seq : x'.server.seq = incr x.server.seq)
      (recv : x'.server.recv_seq = x.server.recv_seq) (cmp : x'.server.cmp = x.server.cmp)
      (entry : x'.server.entry = update x.server.entry (incr x.server.seq) (some ⟨content, []⟩))
      (answers : x'.answers = x.answers ++ [content]) (msgs : x'.msgs = x.msgs) :
      Stepped x (.answerRegister content) x'
  | commit {x' : Session} (msg : Bytes) (live : Live x'.server)
      (status : x'.server.status = .Success) (seq : x'.server.seq = x.server.seq)
      (recv : x'.server.recv_seq = incr x.server.recv_seq) (cmp : x'.server.cmp = x.server.cmp)
      (entry : x'.server.entry = update x.server.entry (incr x.server.recv_seq)
        (some ⟨((x.server.entry (incr x.server.recv_seq)).getD {}).answer, msg⟩))
      (answers : x'.answers = x.answers) (msgs : x'.msgs = x.msgs ++ [msg]) :
      Stepped x (.commit msg) x'
  | resultQuery {x' : Session} (id : ℕ) (r : Result) (queried : Queried x.server id x'.server r)
      (seq : x'.server.seq = x.server.seq) (recv : x'.server.recv_seq = x.server.recv_seq)
      (answers : x'.answers = x.answers) (msgs : x'.msgs = x.msgs) :
      Stepped x (.resultQuery id) x'

theorem Session.step_live {x : Session} (hl : Live x.server) (hst : x.server.status = .Success)
    (c : Call) : ∃ x', x.step c = .ok x' ∧ Session.Stepped x c x' := by
  cases c with
  | answerRegister content =>
    obtain ⟨s', hrun, hlive, hst', hseq, hrecv, hcmp, hentry⟩ := AnswerRegister_spec hl hst content
    refine ⟨⟨s', x.answers ++ [content], x.msgs⟩, ?_,
      .answerRegister content hlive hst' hseq hrecv hcmp hentry rfl rfl⟩
    simp [Session.step, hrun, hst, bind, Except.bind]
  | commit msg =>
    obtain ⟨s', hrun, hlive, hst', hseq, hrecv, hcmp, hentry⟩ := commit_spec hl hst msg
    refine ⟨⟨s', x.answers, x.msgs ++ [msg]⟩, ?_,
      .commit msg hlive hst' hseq hrecv hcmp hentry rfl rfl⟩
    simp [Session.step, hrun, hst, bind, Except.bind]
  | resultQuery id =>
    obtain ⟨s', r, hrun, hseq, hrecv, hq⟩ := ResultQuery_spec hl hst id
    refine ⟨⟨s', x.answers, x.msgs⟩, ?_, .resultQuery id r hq hseq hrecv rfl rfl⟩
    simp [Session.step, hrun, bind, Except.bind]

theorem NetworkTestServer.Queried.live {s s' : NetworkTestServer} {id : ℕ} {r : Result}
    (h : Queried s id s' r) (hl : Live s) (hst' : s'.status = .Success) : Live s' := by
  cases h with
  | known _ server _ => exact server ▸ hl
  | wrapped _ _ server _ =>
    rw [server] at hst'
    cases hst'
  | compared _ _ run _ =>
    cases run with
    | diff j lo hi eq first status cmp =>
      rw [status] at hst'
      cases hst'
    | success _ live _ _ _ => exact live

theorem Session.Stepped.sound {x x' : Session} {c : Call} (h : Session.Stepped x c x')
    (hl : Live x.server) : x'.Sound := by
  cases h with
  | answerRegister _ live => exact fun _ => live
  | commit _ live => exact fun _ => live
  | resultQuery _ _ queried => exact queried.live hl

theorem Session.step_keeps (inv : Session → Prop) {x : Session} (hx : inv x) (hsound : x.Sound)
    (c : Call) (h : ∀ x', x.server.status = .Success → Session.Stepped x c x' → inv x') :
    ∃ x', x.step c = .ok x' ∧ inv x' := by
  by_cases hst : x.server.status = .Success
  · obtain ⟨x', hrun, hstep⟩ := Session.step_live (hsound hst) hst c
    exact ⟨x', hrun, h x' hst hstep⟩
  · exact ⟨x, Session.step_stopped hst c, hx⟩

theorem Session.step_sound {x : Session} (hx : x.Sound) (c : Call) :
    ∃ x', x.step c = .ok x' ∧ x'.Sound :=
  Session.step_keeps Session.Sound hx hx c fun _ hst hstep => hstep.sound (hx hst)

theorem Session.sound_init : Session.Sound {} := fun _ => live_init

theorem Session.run_sound (calls : List Call) : ∃ x, Session.run calls = .ok x ∧ x.Sound :=
  Runs.run_invariant_of_forall Session.Sound (fun _ c hx => Session.step_sound hx c)
    Session.sound_init calls

/-! ## Runs without wrap-around -/

/-- No counter is about to wrap around. -/
def NoWrap (x : Session) : Call → Prop
  | .answerRegister _ => x.server.status = .Success → x.server.seq + 1 < 2 ^ 32
  | .commit _ => x.server.status = .Success → x.server.recv_seq + 1 < 2 ^ 32
  | .resultQuery _ => True

instance (x : Session) : DecidablePred (NoWrap x)
  | .answerRegister _ => inferInstanceAs (Decidable (_ → _))
  | .commit _ => inferInstanceAs (Decidable (_ → _))
  | .resultQuery _ => inferInstanceAs (Decidable True)

/-- The invariant of a run whose counters have not wrapped around. -/
structure Session.Counted (x : Session) : Prop where
  sound : x.Sound
  seq : x.server.seq = x.answers.length
  recv : x.server.recv_seq = x.msgs.length
  cmp_le : x.server.cmp ≤ min x.server.seq x.server.recv_seq
  keys : x.server.status = .Success → ∀ k, (x.server.entry k).isSome ↔
    x.server.cmp < k ∧ k ≤ max x.server.seq x.server.recv_seq
  no_error : x.server.status = .Success ∨ x.server.status = .Diff

theorem Session.counted_init : Session.Counted {} where
  sound := Session.sound_init
  seq := rfl
  recv := rfl
  cmp_le := by simp
  keys := by
    intro _ k
    simp [entry]
    omega
  no_error := .inl rfl

theorem isSome_update {α : Type*} (f : ℕ → Option α) (k : ℕ) (a : α) (i : ℕ) :
    (update f k (some a) i).isSome ↔ i = k ∨ (f i).isSome := by
  rcases eq_or_ne i k with rfl | hne
  · simp
  · simp [hne]

theorem Session.Stepped.counted {x x' : Session} {c : Call} (h : Session.Stepped x c x')
    (hx : x.Counted) (hst : x.server.status = .Success) (hc : NoWrap x c) : x'.Counted := by
  have hsound := h.sound (hx.sound hst)
  have hle := hx.cmp_le
  have hkeys := hx.keys hst
  have hs := hx.seq
  have hr := hx.recv
  cases h with
  | answerRegister content live status seq recv cmp entry answers msgs =>
    rw [incr_of_lt (hc hst)] at seq entry
    refine ⟨hsound, ?_, ?_, ?_, ?_, .inl status⟩
    · simp [seq, answers, hs]
    · simp [recv, msgs, hr]
    · omega
    · intro _ k
      rw [entry, isSome_update, hkeys k, seq, recv, cmp]
      omega
  | commit msg live status seq recv cmp entry answers msgs =>
    rw [incr_of_lt (hc hst)] at recv entry
    refine ⟨hsound, ?_, ?_, ?_, ?_, .inl status⟩
    · simp [seq, answers, hs]
    · simp [recv, msgs, hr]
    · omega
    · intro _ k
      rw [entry, isSome_update, hkeys k, seq, recv, cmp]
      omega
  | resultQuery id r queried seq recv answers msgs =>
    have hs' : x'.server.seq = x'.answers.length := by rw [seq, answers, hs]
    have hr' : x'.server.recv_seq = x'.msgs.length := by rw [recv, msgs, hr]
    cases queried with
    | known _ server _ =>
      exact ⟨hsound, hs', hr', server ▸ hle, fun _ => server ▸ hkeys, .inl (server ▸ hst)⟩
    | wrapped _ below _ _ => omega
    | compared _ _ run _ =>
      cases run with
      | diff j lo hi eq first status cmp =>
        refine ⟨hsound, hs', hr', by omega, fun h => ?_, .inr status⟩
        rw [status] at h
        cases h
      | success none_equal live status cmp entry =>
        refine ⟨hsound, hs', hr', by omega, fun _ k => ?_, .inl status⟩
        rw [entry k, seq, recv, cmp]
        split_ifs with hin
        · simp
          omega
        · rw [hkeys k]
          omega

theorem Session.step_counted {x : Session} (hx : x.Counted) {c : Call} (hc : NoWrap x c) :
    ∃ x', x.step c = .ok x' ∧ x'.Counted :=
  Session.step_keeps Session.Counted hx hx.sound c fun _ hst hstep => hstep.counted hx hst hc

theorem Session.step_lengths {x x' : Session} (hx : x.Sound) {c : Call} (h : x.step c = .ok x') :
    x'.answers.length ≤ x.answers.length + 1 ∧ x'.msgs.length ≤ x.msgs.length + 1 := by
  obtain ⟨y, hy, hlen⟩ := Session.step_keeps
    (fun y => y.answers.length ≤ x.answers.length + 1 ∧ y.msgs.length ≤ x.msgs.length + 1)
    ⟨by omega, by omega⟩ hx c fun y _ hstep => by
      cases hstep with
      | answerRegister _ _ _ _ _ _ _ answers msgs => simp [answers, msgs]
      | commit _ _ _ _ _ _ _ answers msgs => simp [answers, msgs]
      | resultQuery _ _ _ _ _ answers msgs => simp [answers, msgs]
  rw [h] at hy
  cases hy
  exact hlen

theorem Session.admissible_of_length {x : Session} (hx : x.Counted) {calls : List Call}
    (ha : x.answers.length + calls.length < 2 ^ 32) (hm : x.msgs.length + calls.length < 2 ^ 32) :
    Runs.Admissible Session.step NoWrap x calls := by
  induction calls generalizing x with
  | nil => trivial
  | cons c cs ih =>
    simp only [List.length_cons] at ha hm
    have hs := hx.seq
    have hr := hx.recv
    have hc : NoWrap x c := by
      cases c with
      | answerRegister _ => exact fun _ => by omega
      | commit _ => exact fun _ => by omega
      | resultQuery _ => trivial
    obtain ⟨x', hrun, hx'⟩ := Session.step_counted hx hc
    have hlen := Session.step_lengths hx.sound hrun
    refine ⟨hc, ?_⟩
    rw [hrun]
    exact ih hx' (by omega) (by omega)

theorem Session.Counted.query_reason {x : Session} (hx : x.Counted) {id : ℕ}
    {s' : NetworkTestServer} {r : Result} (h : x.server.ResultQuery id = .ok (s', r)) :
    r.reason ≠ .TestError ∧ s'.status ≠ .TestError := by
  have hle := hx.cmp_le
  by_cases hst : x.server.status = .Success
  · obtain ⟨s'', r', hrun, -, -, hq⟩ := ResultQuery_spec (hx.sound hst) hst id
    rw [h] at hrun
    cases hrun
    cases hq with
    | known _ server reply => simp [server, reply, hst]
    | wrapped _ below _ _ => omega
    | compared _ _ run reply =>
      have hstatus : s'.status = .Success ∨ s'.status = .Diff := by
        cases run with
        | diff j lo hi eq first status cmp => exact .inr status
        | success _ _ status _ _ => exact .inl status
      rcases hstatus with hs | hs <;> simp only [reply, hs] <;> split_ifs <;> simp_all
  · rw [ResultQuery_stopped hst] at h
    cases h
    rcases hx.no_error with hs | hs <;> simp [hs]

/-- The state invariant of the judge, for every run of fewer than `2 ^ 32` calls
in any order. The run has no pointer fault; while the status is `Success` the
keys are exactly the positions still to be compared and lead to live objects;
neither branch that reports a `TestError` is taken; a stopped judge stays as it
is. -/
theorem judge_invariant (calls : List Call) (h : calls.length < 2 ^ 32) :
    ∃ x, Session.run calls = .ok x ∧
      (x.server.status = .Success →
        x.server.cmp ≤ min x.server.seq x.server.recv_seq ∧
        (∀ k, (x.server.info k).isSome ↔
          x.server.cmp < k ∧ k ≤ max x.server.seq x.server.recv_seq) ∧
        ∀ k p, x.server.info k = some p → ∃ a t, p = some a ∧ x.server.heap.cells a = some t) ∧
      x.server.status ≠ .TestError ∧
      (∀ id s' r, x.server.ResultQuery id = .ok (s', r) →
        r.reason ≠ .TestError ∧ s'.status ≠ .TestError) ∧
      (x.server.status ≠ .Success → ∀ c x', x.step c = .ok x' → x'.server = x.server) := by
  have hadm : Runs.Admissible Session.step NoWrap {} calls :=
    Session.admissible_of_length Session.counted_init (by simpa using h) (by simpa using h)
  obtain ⟨x, hrun, hx⟩ := Runs.run_invariant Session.Counted
    (fun _ _ hx hc => Session.step_counted hx hc) Session.counted_init hadm
  refine ⟨x, hrun, fun hst => ⟨hx.cmp_le, fun k => ?_, (hx.sound hst).live⟩, ?_,
    fun id s' r hq => hx.query_reason hq, fun hst c x' hstep => ?_⟩
  · rw [← (hx.sound hst).isSome_entry, hx.keys hst]
  · rcases hx.no_error with hs | hs <;> simp [hs]
  · rw [Session.step_stopped hst] at hstep
    cases hstep
    rfl

theorem judge_invariant_three :
    ∃ x, Session.run [.commit [1], .answerRegister [2], .resultQuery 1] = .ok x ∧
      (x.server.status = .Success →
        x.server.cmp ≤ min x.server.seq x.server.recv_seq) := by
  obtain ⟨x, hrun, hkeys, -⟩ :=
    judge_invariant [.commit [1], .answerRegister [2], .resultQuery 1] (by decide)
  exact ⟨x, hrun, fun hst => (hkeys hst).1⟩

end NetworkPrograms.Judge
