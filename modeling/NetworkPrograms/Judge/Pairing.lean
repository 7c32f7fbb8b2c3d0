import Mathlib.Data.List.GetD
import NetworkPrograms.Judge.Safety

/-!
# What the judge holds for comparison

The entry under a key should join the answer and the message of that position.
`commit` writes into an entry that is already there, while `AnswerRegister`
always installs a new one. A message that is committed before its answer is
registered is therefore lost.
-/
namespace NetworkPrograms.Judge

open NetworkTestServer Function

/-- Every entry that is ready for comparison holds the answer and the message of
its position. -/
def Session.Kept (x : Session) : Prop :=
  x.server.status = .Success →
    ∀ k, x.server.cmp < k → k ≤ min x.server.seq x.server.recv_seq →
      ∃ t, x.server.entry k = some t ∧
        x.answers[k - 1]? = some t.answer ∧ x.msgs[k - 1]? = some t.msg

/-- A registration finds no message already stored under its key, or an empty one. -/
def KeepsCommit (x : Session) : Call → Prop
  | .answerRegister _ => x.server.status = .Success →
      x.server.recv_seq ≤ x.server.seq ∨ x.msgs[x.server.seq]? = some []
  | _ => True

instance (x : Session) : DecidablePred (KeepsCommit x)
  | .answerRegister _ => inferInstanceAs (Decidable (_ → _))
  | .commit _ => inferInstanceAs (Decidable True)
  | .resultQuery _ => inferInstanceAs (Decidable True)

/-- The entries that are still to be compared, in terms of the two histories. -/
structure Session.Paired (x : Session) : Prop where
  counted : x.Counted
  pairs : x.server.status = .Success → ∀ k, x.server.cmp < k →
    k ≤ max x.server.seq x.server.recv_seq →
      x.server.entry k = some ⟨x.answers.getD (k - 1) [], x.msgs.getD (k - 1) []⟩

theorem Session.paired_init : Session.Paired {} where
  counted := Session.counted_init
  pairs := fun _ k hlo hhi => absurd hhi (by simp at hlo ⊢; omega)

theorem getD_concat_length {α : Type*} (l : List α) (a d : α) : (l ++ [a]).getD l.length d = a := by
  simp

theorem getD_concat_of_ne {α : Type*} (l : List α) (a d : α) {i : ℕ} (hi : i ≠ l.length) :
    (l ++ [a]).getD i d = l.getD i d := by
  rcases lt_or_gt_of_ne hi with h | h
  · exact List.getD_append _ _ _ _ h
  · rw [List.getD_eq_default _ _ (by simp; omega), List.getD_eq_default _ _ (by omega)]

theorem getElem?_of_getD {α : Type*} {l : List α} {i : ℕ} (d : α) (hi : i < l.length) :
    l[i]? = some (l.getD i d) := by
  rw [List.getD_eq_getElem _ _ hi, List.getElem?_eq_getElem hi]

theorem Session.Paired.kept {x : Session} (hx : x.Paired) : x.Kept := by
  intro hst k hlo hhi
  have hs := hx.counted.seq
  have hr := hx.counted.recv
  exact ⟨_, hx.pairs hst k hlo (by omega), getElem?_of_getD [] (by omega),
    getElem?_of_getD [] (by omega)⟩

theorem Session.Stepped.paired {x x' : Session} {c : Call} (h : Session.Stepped x c x')
    (hx : x.Paired) (hst : x.server.status = .Success) (hw : NoWrap x c) (hc : KeepsCommit x c) :
    x'.Paired := by
  have hcounted := h.counted hx.counted hst hw
  refine ⟨hcounted, fun hst' k hlo hhi => ?_⟩
  have hle := hx.counted.cmp_le
  have hs := hx.counted.seq
  have hr := hx.counted.recv
  have hpairs := hx.pairs hst
  cases h with
  | answerRegister content live status seq recv cmp entry answers msgs =>
    rw [incr_of_lt (hw hst)] at seq entry
    rw [entry, answers, msgs]
    rcases eq_or_ne k (x.server.seq + 1) with rfl | hne
    · have hmsg : x.msgs.getD x.server.seq [] = [] := by
        rcases hc hst with hfree | hempty
        · exact List.getD_eq_default _ _ (by omega)
        · rw [List.getD_eq_getElem?_getD, hempty, Option.getD_some]
      rw [update_self, Nat.add_sub_cancel, hmsg, hs, getD_concat_length]
    · rw [update_of_ne hne, hpairs k (by omega) (by omega), getD_concat_of_ne _ _ _ (by omega)]
  | commit msg live status seq recv cmp entry answers msgs =>
    rw [incr_of_lt (hw hst)] at recv entry
    rw [entry, answers, msgs]
    rcases eq_or_ne k (x.server.recv_seq + 1) with rfl | hne
    · have hanswer : ((x.server.entry (x.server.recv_seq + 1)).getD {}).answer =
          x.answers.getD x.server.recv_seq [] := by
        by_cases hahead : x.server.recv_seq + 1 ≤ x.server.seq
        · rw [hpairs _ (by omega) (by omega)]
          rfl
        · have hnone : x.server.entry (x.server.recv_seq + 1) = none := by
            rw [← Option.not_isSome_iff_eq_none, hx.counted.keys hst]
            omega
          rw [hnone, List.getD_eq_default _ _ (by omega)]
          rfl
      rw [update_self, Nat.add_sub_cancel, hanswer, hr, getD_concat_length]
    · rw [update_of_ne hne, hpairs k (by omega) (by omega),
        getD_concat_of_ne x.msgs _ _ (by omega)]
  | resultQuery id r queried seq recv answers msgs =>
    rw [answers, msgs]
    cases queried with
    | known _ server _ =>
      rw [server] at hlo hhi ⊢
      exact hpairs k hlo hhi
    | wrapped _ below _ _ => omega
    | compared _ _ run _ =>
      cases run with
      | diff j _ _ _ _ status _ =>
        rw [status] at hst'
        cases hst'
      | success _ _ _ cmp entry =>
        rw [entry k, if_neg (by omega)]
        exact hpairs k (by omega) (by omega)

theorem Session.step_paired {x : Session} (hx : x.Paired) {c : Call} (hw : NoWrap x c)
    (hc : KeepsCommit x c) : ∃ x', x.step c = .ok x' ∧ x'.Paired :=
  Session.step_keeps Session.Paired hx hx.counted.sound c
    fun _ hst hstep => hstep.paired hx hst hw hc

theorem Session.step_loses {x : Session} (hx : x.Paired) {c : Call} (hw : NoWrap x c)
    (hc : ¬ KeepsCommit x c) : ∃ x', x.step c = .ok x' ∧ ¬ x'.Kept := by
  have hle := hx.counted.cmp_le
  cases c with
  | answerRegister content =>
    simp only [KeepsCommit, not_forall, not_or] at hc
    obtain ⟨hst, hahead, hmsg⟩ := hc
    obtain ⟨x', hrun, hstep⟩ :=
      Session.step_live (hx.counted.sound hst) hst (.answerRegister content)
    refine ⟨x', hrun, fun hkept => ?_⟩
    cases hstep with
    | answerRegister _ live status seq recv cmp entry answers msgs =>
      rw [incr_of_lt (hw hst)] at seq entry
      obtain ⟨t, ht, -, hm⟩ := hkept status (x.server.seq + 1) (by omega) (by omega)
      rw [entry, update_self] at ht
      cases ht
      rw [msgs, Nat.add_sub_cancel] at hm
      exact hmsg hm
  | commit msg => exact absurd trivial hc
  | resultQuery id => exact absurd trivial hc

/-- In a run whose counters do not wrap around, every state holds the right
pairs exactly when no registration comes after a nonempty message of its own
position. -/
theorem entries_kept_iff (calls : List Call) (h : Runs.Admissible Session.step NoWrap {} calls) :
    (∀ pre, pre <+: calls → ∃ x, Session.run pre = .ok x ∧ x.Kept) ↔
      Runs.Admissible Session.step KeepsCommit {} calls := by
  refine Runs.forall_isPrefix_iff_admissible Session.Paired Session.Kept (fun _ hx => hx.kept)
    (fun x c hx hw => ?_) Session.paired_init h
  by_cases hc : KeepsCommit x c
  · obtain ⟨x', hrun, hx'⟩ := Session.step_paired hx hw hc
    exact ⟨x', hrun, fun _ => hx', fun hn => absurd hc hn⟩
  · obtain ⟨x', hrun, hx'⟩ := Session.step_loses hx hw hc
    exact ⟨x', hrun, fun hy => absurd hy hc, fun _ => hx'⟩

theorem entries_kept_answer_first :
    Runs.Admissible Session.step NoWrap {} [.answerRegister [120], .commit [120], .commit []] ∧
      ∀ pre, pre <+: [.answerRegister [120], .commit [120], .commit []] →
        ∃ x, Session.run pre = .ok x ∧ x.Kept :=
  ⟨by decide, (entries_kept_iff [.answerRegister [120], .commit [120], .commit []]
    (by decide)).mpr (by decide)⟩

/-- The message `x` arrives before its answer and is gone once that is registered. -/
theorem commit_first_message_lost :
    ¬ ∀ calls : List Call, calls.length < 2 ^ 32 → ∃ x, Session.run calls = .ok x ∧ x.Kept := by
  intro h
  obtain ⟨x, hrun, hkept⟩ := h [.commit [120], .answerRegister [120]] (by decide)
  cases hrun
  obtain ⟨t, ht, -, hmsg⟩ := hkept rfl 1 (by decide) (by decide)
  cases ht
  exact absurd hmsg (by decide)

end NetworkPrograms.Judge
