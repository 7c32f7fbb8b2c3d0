import NetworkPrograms.Judge.Pairing

/-!
# The verdict and the replies

`Update` stops the judge at the first pair of *equal* strings. The status that
results is worked out here for every run in which answers come first, and
compared with the verdict the judge is meant to give. The second part settles
when a reply to `ResultQuery` agrees with the judge's own status.
-/
namespace NetworkPrograms.Judge

open NetworkTestServer Function

/-- The answer and the message of a position, counted from zero, agree. -/
def Session.Agree (x : Session) (k : ℕ) : Prop := x.answers[k]? = x.msgs[k]?

instance (x : Session) : DecidablePred x.Agree := fun _ => inferInstanceAs (Decidable (_ = _))

/-- The verdict the judge is meant to give when the histories are those of `x`. -/
def Session.VerdictRight (x : Session) (s : NetworkTestServer) : Prop :=
  (s.status = .Diff ↔ ∃ k, k < s.cmp ∧ ¬ x.Agree k) ∧
    ((∀ k, k < s.cmp → x.Agree k) → s.status = .Success ∧ s.cmp = min s.seq s.recv_seq)

/-- What `Update` has found out so far: every pair it passed differs, and the
pair it stopped at agrees. -/
structure Session.Judged (x : Session) (s : NetworkTestServer) : Prop where
  passed : s.status = .Success → ∀ k, k < s.cmp → ¬ x.Agree k
  stopped : s.status = .Diff → 0 < s.cmp ∧ x.Agree (s.cmp - 1) ∧ ∀ k, k < s.cmp - 1 → ¬ x.Agree k

theorem Session.judged_init : Session.Judged {} {} where
  passed := fun _ k hk => absurd hk (by simp)
  stopped := fun h => absurd h (by simp)

/-- A pair that is ready for comparison is equal in the map exactly when it is
equal in the histories. -/
theorem Session.Paired.equalAt_iff {x : Session} (hx : x.Paired) (hst : x.server.status = .Success)
    {k : ℕ} (hlo : x.server.cmp < k) (hhi : k ≤ min x.server.seq x.server.recv_seq) :
    EqualAt x.server k ↔ x.Agree (k - 1) := by
  have hs := hx.counted.seq
  have hr := hx.counted.recv
  rw [NetworkTestServer.equalAt_iff (hx.pairs hst k hlo (by omega)), Session.Agree,
    getElem?_of_getD (l := x.answers) [] (by omega), getElem?_of_getD (l := x.msgs) [] (by omega),
    Option.some_inj]

theorem Session.Judged.compared {x : Session} (hx : x.Paired) (hj : x.Judged x.server)
    (hst : x.server.status = .Success) {s : NetworkTestServer}
    (h : Compared x.server (min x.server.seq x.server.recv_seq) s) : x.Judged s := by
  have hdiffer : ∀ j, j ≤ min x.server.seq x.server.recv_seq →
      (∀ i, x.server.cmp < i → i ≤ j → ¬ EqualAt x.server i) → ∀ k, k < j → ¬ x.Agree k := by
    intro j hj' hnone k hk
    by_cases hold : k < x.server.cmp
    · exact hj.passed hst k hold
    · rw [← Nat.add_sub_cancel (n := k) (m := 1),
        ← hx.equalAt_iff hst (by omega) (by omega)]
      exact hnone _ (by omega) (by omega)
  cases h with
  | diff j lo hi eq first status cmp =>
    refine ⟨fun h => ?_, fun _ => ?_⟩
    · rw [status] at h
      cases h
    · rw [cmp]
      exact ⟨by omega, (hx.equalAt_iff hst lo hi).mp eq,
        hdiffer (j - 1) (by omega) fun i hlo hhi => first i hlo (by omega)⟩
  | success none_equal live status cmp entry =>
    refine ⟨fun _ => ?_, fun h => ?_⟩
    · rw [cmp]
      exact hdiffer _ le_rfl none_equal
    · rw [status] at h
      cases h

/-- Answers come first: a commit is served only while an answer waits for it. -/
def AnswerFirst (x : Session) : Call → Prop
  | .commit _ => x.server.status = .Success → x.msgs.length < x.answers.length
  | _ => True

instance (x : Session) : DecidablePred (AnswerFirst x)
  | .answerRegister _ => inferInstanceAs (Decidable True)
  | .commit _ => inferInstanceAs (Decidable (_ → _))
  | .resultQuery _ => inferInstanceAs (Decidable True)

/-- The invariant of a run in which answers come first. -/
structure Session.Ordered (x : Session) : Prop where
  paired : x.Paired
  judged : x.Judged x.server
  ahead : x.msgs.length ≤ x.answers.length

theorem Session.ordered_init : Session.Ordered {} :=
  ⟨Session.paired_init, Session.judged_init, le_rfl⟩

theorem Session.Judged.grow {x x' : Session} (hx : x.Counted) (hj : x.Judged x.server)
    (hst : x.server.status = .Success) (hst' : x'.server.status = .Success)
    (hcmp : x'.server.cmp = x.server.cmp) (ha : x.answers <+: x'.answers)
    (hm : x.msgs <+: x'.msgs) : x'.Judged x'.server := by
  have hle := hx.cmp_le
  have hs := hx.seq
  have hr := hx.recv
  obtain ⟨a, ha⟩ := ha
  obtain ⟨m, hm⟩ := hm
  refine ⟨fun _ k hk => ?_, fun h => absurd (hst'.symm.trans h) (by simp)⟩
  rw [Session.Agree, ← ha, ← hm, List.getElem?_append_left (by omega),
    List.getElem?_append_left (by omega)]
  exact hj.passed hst k (by omega)

theorem Session.Stepped.ordered {x x' : Session} {c : Call} (h : Session.Stepped x c x')
    (hx : x.Ordered) (hst : x.server.status = .Success) (hw : NoWrap x c) (hc : AnswerFirst x c) :
    x'.Ordered := by
  have hs := hx.paired.counted.seq
  have hr := hx.paired.counted.recv
  have hahead := hx.ahead
  have hkeeps : KeepsCommit x c := by
    cases c with
    | answerRegister content => exact fun _ => .inl (by omega)
    | commit msg => trivial
    | resultQuery id => trivial
  refine ⟨h.paired hx.paired hst hw hkeeps, ?_, ?_⟩
  · cases h with
    | answerRegister content live status seq recv cmp entry answers msgs =>
      exact hx.judged.grow hx.paired.counted hst status cmp (by simp [answers]) (by simp [msgs])
    | commit msg live status seq recv cmp entry answers msgs =>
      exact hx.judged.grow hx.paired.counted hst status cmp (by simp [answers]) (by simp [msgs])
    | resultQuery id r queried seq recv answers msgs =>
      have hagree : ∀ s, x.Judged s → x'.Judged s := fun s hj => by
        have : x'.Agree = x.Agree := by
          funext k
          rw [Session.Agree, Session.Agree, answers, msgs]
        exact ⟨this ▸ hj.passed, this ▸ hj.stopped⟩
      cases queried with
      | known _ server _ => exact hagree _ (server ▸ hx.judged)
      | wrapped _ below _ _ =>
        have := hx.paired.counted.cmp_le
        omega
      | compared _ _ run _ => exact hagree _ (hx.judged.compared hx.paired hst run)
  · cases h with
    | answerRegister content live status seq recv cmp entry answers msgs =>
      simp [answers, msgs]
      omega
    | commit msg live status seq recv cmp entry answers msgs =>
      have := hc hst
      simp [answers, msgs]
      omega
    | resultQuery id r queried seq recv answers msgs => rwa [answers, msgs]

theorem Session.step_ordered {x : Session} (hx : x.Ordered) {c : Call} (hw : NoWrap x c)
    (hc : AnswerFirst x c) : ∃ x', x.step c = .ok x' ∧ x'.Ordered :=
  Session.step_keeps Session.Ordered hx hx.paired.counted.sound c
    fun _ hst hstep => hstep.ordered hx hst hw hc

/-- `Update` from a state of such a run: it ends with `Diff`, or with `Success`
and everything available compared. -/
theorem Session.Ordered.update {x : Session} (hx : x.Ordered) :
    ∃ s, x.server.Update = .ok s ∧ x.Judged s ∧ s.seq = x.server.seq ∧
      s.recv_seq = x.server.recv_seq ∧
      (s.status = .Success ∧ s.cmp = min x.server.seq x.server.recv_seq ∨
        s.status = .Diff ∧ s.cmp ≤ min x.server.seq x.server.recv_seq) := by
  have hle := hx.paired.counted.cmp_le
  by_cases hst : x.server.status = .Success
  · obtain ⟨s, hrun, hseq, hrecv, hcompared⟩ :=
      Update_spec (hx.paired.counted.sound hst) hst hle
    refine ⟨s, hrun, hx.judged.compared hx.paired hst hcompared, hseq, hrecv, ?_⟩
    cases hcompared with
    | diff j lo hi eq first status cmp => exact .inr ⟨status, cmp ▸ hi⟩
    | success none_equal live status cmp entry => exact .inl ⟨status, cmp⟩
  · have hdiff := hx.paired.counted.no_error.resolve_left hst
    exact ⟨x.server, Update_stopped hst, hx.judged, rfl, rfl, .inr ⟨hdiff, hle⟩⟩

/-- The verdict is inverted. In a run in which answers come first, `Update`
leaves the verdict the judge is meant to give only while there is nothing to
compare, or when the first pair differs and a later one agrees. -/
theorem verdict_right_iff (calls : List Call)
    (h : Runs.Admissible Session.step (fun x c => NoWrap x c ∧ AnswerFirst x c) {} calls) :
    ∃ x s, Session.run calls = .ok x ∧ x.server.Update = .ok s ∧
      (x.VerdictRight s ↔ min x.server.seq x.server.recv_seq = 0 ∨
        ¬ x.Agree 0 ∧ ∃ k, k < min x.server.seq x.server.recv_seq ∧ x.Agree k) := by
  obtain ⟨x, hrun, hx⟩ := Runs.run_invariant Session.Ordered
    (fun _ _ hx hc => Session.step_ordered hx hc.1 hc.2) Session.ordered_init h
  obtain ⟨s, hupd, hj, hseq, hrecv, hend⟩ := hx.update
  refine ⟨x, s, hrun, hupd, ?_⟩
  rw [Session.VerdictRight, hseq, hrecv]
  rcases hend with ⟨hst, hcmp⟩ | ⟨hst, hcmp⟩
  · -- every available pair was passed, so every one differs
    have hpassed := hj.passed hst
    constructor
    · rintro ⟨hdiff, -⟩
      by_contra hne
      have hpos : 0 < s.cmp := by omega
      exact absurd (hst.symm.trans (hdiff.mpr ⟨0, hpos, hpassed 0 hpos⟩)) (by simp)
    · rintro (hzero | ⟨-, k, hk, hagree⟩)
      · refine ⟨⟨fun h => ?_, fun ⟨k, hk, _⟩ => by omega⟩, fun _ => ⟨hst, hcmp⟩⟩
        exact absurd (hst.symm.trans h) (by simp)
      · exact absurd hagree (hpassed k (by omega))
  · -- the judge stopped at the first pair that agrees
    obtain ⟨hpos, hlast, hbefore⟩ := hj.stopped hst
    constructor
    · rintro ⟨hdiff, -⟩
      obtain ⟨k, hk, hne⟩ := hdiff.mp hst
      have hlt : k ≠ s.cmp - 1 := fun he => hne (he ▸ hlast)
      exact .inr ⟨hbefore 0 (by omega), s.cmp - 1, by omega, hlast⟩
    · rintro (hzero | ⟨hfirst, -⟩)
      · omega
      · exact ⟨⟨fun _ => ⟨0, hpos, hfirst⟩, fun _ => hst⟩, fun hall => absurd (hall 0 hpos) hfirst⟩

theorem verdict_right_first_differs :
    ∃ x s, Session.run [.answerRegister [97], .commit [98], .answerRegister [97], .commit [97]] =
        .ok x ∧ x.server.Update = .ok s ∧
      (x.VerdictRight s ↔ min x.server.seq x.server.recv_seq = 0 ∨
        ¬ x.Agree 0 ∧ ∃ k, k < min x.server.seq x.server.recv_seq ∧ x.Agree k) :=
  verdict_right_iff [.answerRegister [97], .commit [98], .answerRegister [97], .commit [97]]
    (by decide)

/-- The message `a` arrives just as it was registered, and the judge answers `Diff`. -/
theorem equal_message_judged_diff :
    ¬ ∀ (calls : List Call) (x : Session) (s : NetworkTestServer),
      Runs.Admissible Session.step (fun x c => NoWrap x c ∧ AnswerFirst x c) {} calls →
      Session.run calls = .ok x → x.server.Update = .ok s → x.VerdictRight s := by
  intro h
  obtain ⟨hdiff, -⟩ := h [.answerRegister [97], .commit [97]] _ _ (by decide) rfl rfl
  obtain ⟨k, hk, hne⟩ := hdiff.mp rfl
  have hk0 : k = 0 := Nat.lt_one_iff.mp hk
  subst hk0
  exact hne rfl

/-! ## Replies to queries -/

/-- A query agrees with the judge's status, and asking again gives the same reply. -/
def NetworkTestServer.Repeatable (s : NetworkTestServer) (id : ℕ) : Prop :=
  ∃ s' r s'' r', s.ResultQuery id = .ok (s', r) ∧ s'.ResultQuery id = .ok (s'', r') ∧
    (r.reason = .Success → s'.status = .Success) ∧ r'.reason = r.reason ∧ r'.id = r.id

theorem repeatable_iff_of_run {s s' s'' : NetworkTestServer} {id : ℕ} {r r' : Result}
    (h : s.ResultQuery id = .ok (s', r)) (h' : s'.ResultQuery id = .ok (s'', r')) :
    s.Repeatable id ↔
      (r.reason = .Success → s'.status = .Success) ∧ r'.reason = r.reason ∧ r'.id = r.id := by
  refine ⟨?_, fun hr => ⟨s', r, s'', r', h, h', hr⟩⟩
  rintro ⟨u, q, u', q', hu, hu', hr⟩
  rw [h] at hu
  cases hu
  rw [h'] at hu'
  cases hu'
  exact hr

/-- The reply contradicts the judge: the comparison it starts ends with `Diff`
at the queried position or after it. -/
def NetworkTestServer.Contradicts (s : NetworkTestServer) (id : ℕ) : Prop :=
  s.status = .Success ∧ s.cmp < id ∧ ∃ j, id ≤ j ∧ j ≤ min s.seq s.recv_seq ∧ EqualAt s j ∧
    ∀ i, s.cmp < i → i < j → ¬ EqualAt s i

theorem repeatable_of_stopped {s s' : NetworkTestServer} {id : ℕ} {r : Result}
    (h : s.ResultQuery id = .ok (s', r)) (hst : s'.status ≠ .Success)
    (hr : r = ⟨s'.cmp, s'.status⟩) : s.Repeatable id := by
  rw [repeatable_iff_of_run h (ResultQuery_stopped hst id), hr]
  exact ⟨fun h => h, rfl, rfl⟩

theorem ResultQuery_idle {s : NetworkTestServer} (hl : Live s) (hst : s.status = .Success)
    (hcmp : s.cmp = min s.seq s.recv_seq) (id : ℕ) (hid : s.cmp < id) :
    ∃ s', s.ResultQuery id =
      .ok (s', ⟨s.cmp, if s.cmp = s.recv_seq then .Wait else .WaitRPC⟩) := by
  obtain ⟨s', r, hrun, hseq, hrecv, hq⟩ := ResultQuery_spec hl hst id
  refine ⟨s', ?_⟩
  cases hq with
  | known old _ _ => omega
  | wrapped _ below _ _ => omega
  | compared _ _ run reply =>
    cases run with
    | diff j lo hi _ _ _ _ => omega
    | success _ _ status cmp _ =>
      rw [hrun, reply, cmp, ← hcmp, hrecv, if_neg (by omega), if_neg (by simp [status])]

theorem Queried.repeatable_iff {s s' : NetworkTestServer} {id : ℕ} {r : Result} (hl : Live s)
    (hst : s.status = .Success) (h : s.ResultQuery id = .ok (s', r)) (hseq : s'.seq = s.seq)
    (hrecv : s'.recv_seq = s.recv_seq) (hq : Queried s id s' r) :
    s.Repeatable id ↔ ¬ s.Contradicts id := by
  cases hq with
  | known old server reply =>
    subst server reply
    rw [repeatable_iff_of_run h h]
    exact ⟨fun _ hc => absurd hc.2.1 (by omega), fun _ => ⟨fun _ => hst, rfl, rfl⟩⟩
  | wrapped new below server reply =>
    refine ⟨fun _ ⟨_, _, j, hid, hj, _⟩ => by omega, fun _ => repeatable_of_stopped h ?_ ?_⟩
    · simp [server]
    · simp [server, reply]
  | compared new le run reply =>
    cases run with
    | diff j lo hi eq first status cmp =>
      by_cases hid : id ≤ j
      · rw [cmp, if_pos hid] at reply
        have hcontra : s.Contradicts id := ⟨hst, new, j, hid, hi, eq, first⟩
        refine iff_of_false ?_ (not_not.mpr hcontra)
        rw [repeatable_iff_of_run h (ResultQuery_stopped (by simp [status]) id)]
        rintro ⟨hs, -⟩
        exact absurd (status.symm.trans (hs (by rw [reply]))) (by simp)
      · refine iff_of_true (repeatable_of_stopped h (by simp [status]) ?_) ?_
        · rw [reply, cmp, if_neg hid, if_pos (by simp [status])]
        · rintro ⟨-, -, j', hid', -, -, hfirst⟩
          exact hfirst j lo (by omega) eq
    | success none_equal live status cmp entry =>
      refine iff_of_true ?_ ?_
      · rw [cmp] at reply
        by_cases hid : id ≤ min s.seq s.recv_seq
        · rw [if_pos hid] at reply
          have hagain : s'.ResultQuery id = .ok (s', ⟨s'.cmp, .Success⟩) := by
            simp [ResultQuery, status, cmp, hid]
          rw [repeatable_iff_of_run h hagain, reply, cmp]
          exact ⟨fun _ => status, rfl, rfl⟩
        · obtain ⟨s'', hagain⟩ := ResultQuery_idle live status (by omega) id (by omega)
          rw [if_neg hid, if_neg (by simp [status]), ← cmp] at reply
          rw [repeatable_iff_of_run h hagain, reply]
          refine ⟨fun hr => ?_, rfl, rfl⟩
          split_ifs at hr
      · rintro ⟨-, -, j, hid, hj, heq, -⟩
        exact none_equal j (by omega) hj heq

/-- In every state a judge can reach, `ResultQuery` is repeatable and in line
with the status exactly when it does not run into a `Diff` at the queried
position or later: the position is tested before the status. -/
theorem resultQuery_repeatable_iff (calls : List Call) (id : ℕ) :
    ∃ x, Session.run calls = .ok x ∧ (x.server.Repeatable id ↔ ¬ x.server.Contradicts id) := by
  obtain ⟨x, hrun, hx⟩ := Session.run_sound calls
  refine ⟨x, hrun, ?_⟩
  by_cases hst : x.server.status = .Success
  · obtain ⟨s', r, h, hseq, hrecv, hq⟩ := ResultQuery_spec (hx hst) hst id
    exact Queried.repeatable_iff (hx hst) hst h hseq hrecv hq
  · exact iff_of_true (repeatable_of_stopped (ResultQuery_stopped hst id) hst rfl)
      fun hc => hst hc.1

/-- One pair is registered and committed, and the first query already says
`Success` while the status has become `Diff`. -/
theorem first_query_contradicts :
    ¬ ∀ (calls : List Call) (id : ℕ) (x : Session), Session.run calls = .ok x →
      x.server.Repeatable id := by
  intro h
  have hrep := h [.answerRegister [97], .commit [97]] 1 _ rfl
  rw [repeatable_iff_of_run rfl rfl] at hrep
  exact absurd (hrep.1 rfl) (by decide)

end NetworkPrograms.Judge
