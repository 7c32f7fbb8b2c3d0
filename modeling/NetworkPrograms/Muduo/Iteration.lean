import NetworkPrograms.Muduo.Registration

/-!
# One round of the loop

A round of `EventLoop::loop` dispatches what the kernel reported. The active
list is filled before the first callback runs and no callback touches it, nor
the reported events of a channel, so the calls of `handleEvent` are fixed by
the answer of `poll` alone.
-/
namespace NetworkPrograms.Muduo

open Function

/-- What `poll` may answer in a state: the number of the entries with an event, no
negative `revents`, and nothing for an entry with a negative descriptor. -/
structure Polled.Legal (r : Polled) (s : EventLoop) : Prop where
  count : r.numEvents =
    ((List.range s.pollfds_.length).filter fun i => r.revents i ≠ 0).length
  nonneg : ∀ i < s.pollfds_.length, 0 ≤ r.revents i
  ignored : ∀ i, ∀ h : i < s.pollfds_.length, s.pollfds_[i].fd < 0 → r.revents i = 0

namespace EventLoop

variable {fd : ℕ → ℤ} {s : EventLoop} {order : List ℕ}

/-! ## The active list -/

@[simp] theorem foldl_report_handled (s : EventLoop) (ps : List (ℕ × ℤ)) :
    (ps.foldl (fun s p => s.report p.1 p.2) s).handled = s.handled := by
  induction ps generalizing s with
  | nil => rfl
  | cons p ps ih => exact ih (s.report p.1 p.2)

theorem foldl_report_active (s : EventLoop) (ps : List (ℕ × ℤ)) :
    (ps.foldl (fun s p => s.report p.1 p.2) s).activeChannels_ =
      s.activeChannels_ ++ ps.map Prod.fst := by
  induction ps generalizing s with
  | nil => simp
  | cons p ps ih =>
    rw [List.foldl_cons, ih]
    simp [report]

theorem foldl_report_revents_of_notMem {ps : List (ℕ × ℤ)} {ch : ℕ} (hch : ch ∉ ps.map Prod.fst)
    (s : EventLoop) :
    ((ps.foldl (fun s p => s.report p.1 p.2) s).channel ch).revents_ =
      (s.channel ch).revents_ := by
  induction ps generalizing s with
  | nil => rfl
  | cons p ps ih =>
    rw [List.map_cons, List.mem_cons, not_or] at hch
    rw [List.foldl_cons, ih hch.2]
    simp [report, hch.1]

theorem foldl_report_revents {ps : List (ℕ × ℤ)} (hps : (ps.map Prod.fst).Nodup) {p : ℕ × ℤ}
    (hp : p ∈ ps) (s : EventLoop) :
    ((ps.foldl (fun s p => s.report p.1 p.2) s).channel p.1).revents_ = p.2 := by
  induction ps generalizing s with
  | nil => simp at hp
  | cons q ps ih =>
    rw [List.map_cons, List.nodup_cons] at hps
    rw [List.foldl_cons]
    rcases List.mem_cons.mp hp with rfl | hp
    · rw [foldl_report_revents_of_notMem hps.1]
      simp [report]
    · exact ih hps.2 hp _

/-! ## The answer of the kernel -/

/-- The channels with an event and their events, in the order of registration. -/
def due (order : List ℕ) (r : Polled) : List (ℕ × ℕ) :=
  order.zipIdx.filter fun p => r.revents p.2 ≠ 0

theorem map_snd_due (order : List ℕ) (r : Polled) :
    (due order r).map Prod.snd =
      (List.range order.length).filter fun i => r.revents i ≠ 0 := by
  rw [due, List.range_eq_range', ← List.zipIdx_map_snd, List.filter_map]
  rfl

theorem Represents.reported_eq (h : s.Represents fd order) {r : Polled} (hr : r.Legal s) :
    reported (s.answer r).pollfds_ order r.numEvents =
      (due order r).map fun p => (p.1, r.revents p.2) := by
  have hrevents : (s.answer r).pollfds_.map PollFd.revents =
      (List.range' 0 order.length).map r.revents := by
    rw [← h.length]
    apply List.ext_getElem <;> simp [EventLoop.answer]
  have hcount : r.numEvents.toNat = (due order r).length := by
    rw [hr.count, Int.toNat_natCast, ← List.length_map Prod.snd, map_snd_due, h.length]
  have hpos : ∀ p ∈ order.zipIdx, 0 < r.revents p.2 ↔ r.revents p.2 ≠ 0 := by
    intro p hp
    have hlt : p.2 < s.pollfds_.length := by
      rw [h.length]
      exact List.snd_lt_of_mem_zipIdx hp
    have := hr.nonneg p.2 hlt
    omega
  have hall : (order.zip ((s.answer r).pollfds_.map PollFd.revents)).filter (fun p => 0 < p.2) =
      (due order r).map fun p => (p.1, r.revents p.2) := by
    rw [hrevents, List.zip_map_right, ← List.zipIdx_eq_zip_range', List.filter_map, due]
    congr 1
    apply List.filter_congr
    intro p hp
    exact decide_eq_decide.mpr (hpos p hp)
  rw [reported, hall, hcount, ← List.length_map, List.take_length]

/-! ## The round -/

/-- The calls of `handleEvent` are those on the active list, and each sees the
events reported to its channel before the round of calls. -/
theorem dispatch_handled (hfd : Injective fd) (h : s.Represents fd order) (user : ℕ → List Op)
    (chs : List ℕ) :
    ∃ s', Runs.run (fun s ch => s.handleEvent user ch) s chs = .ok s' ∧
      s'.handled = s.handled ++ chs.map fun ch => (ch, (s.channel ch).revents_) := by
  induction chs generalizing s order with
  | nil => exact ⟨s, rfl, by simp⟩
  | cons ch chs ih =>
    obtain ⟨s₁, hrun, hwork⟩ := handleEvent_worked hfd h user ch
    obtain ⟨order₁, h₁⟩ := hwork.represents
    obtain ⟨s', hrest, hhandled⟩ := ih h₁
    refine ⟨s', ?_, ?_⟩
    · rw [Runs.run_cons hrun]
      exact hrest
    · rw [hhandled, hwork.handled]
      simp [hwork.revents]

theorem Represents.nodup_due (h : s.Represents fd order) (r : Polled) :
    ((due order r).map Prod.fst).Nodup := by
  have hsub : ((due order r).map Prod.fst).Sublist (order.zipIdx.map Prod.fst) :=
    List.filter_sublist.map Prod.fst
  rw [List.zipIdx_map_fst] at hsub
  exact h.nodup.sublist hsub

theorem Represents.iterate_handled (hfd : Injective fd) (h : s.Represents fd order)
    (user : ℕ → List Op) {r : Polled} (hr : r.Legal s) :
    ∃ s', s.iterate user r = .ok s' ∧
      s'.handled = s.handled ++ (due order r).map fun p => (p.1, r.revents p.2) := by
  have h₀ : { s with activeChannels_ := [] }.Represents fd order :=
    h.congr rfl rfl fun _ => ⟨rfl, rfl⟩
  have hreported := h₀.reported_eq (r := r) ⟨hr.count, hr.nonneg, hr.ignored⟩
  simp only [EventLoop.iterate, h₀.poll r, bind, Except.bind, hreported]
  obtain ⟨s', hrun, hhandled⟩ := dispatch_handled hfd ((h₀.answer r).foldl_report
    ((due order r).map fun p => (p.1, r.revents p.2))) user _
  refine ⟨s', hrun, ?_⟩
  rw [hhandled, foldl_report_handled, foldl_report_active]
  have hnodup : (((due order r).map fun p => (p.1, r.revents p.2)).map Prod.fst).Nodup := by
    rw [List.map_map]
    exact h.nodup_due r
  congr 1
  change ((List.map Prod.fst _).map _) = _
  rw [List.map_map]
  conv_rhs => rw [← List.map_id (List.map _ _)]
  apply List.map_congr_left
  intro p hp
  exact Prod.ext rfl (foldl_report_revents hnodup hp _)

/-- In every state of a run and under every legal answer of `poll`, a round calls
`handleEvent` once for each entry with an event, in the order of the entries, on
the channel registered there and with the reported events, whatever the callbacks do. -/
theorem iterate_dispatches (hfd : Injective fd) (user : ℕ → List Op) (turns : List Turn)
    (hs : EventLoop.run fd user turns = .ok s) (r : Polled) (hr : r.Legal s) :
    ∃ s' calls, s.iterate user r = .ok s' ∧ s'.handled = s.handled ++ calls ∧
      List.Forall₂ (fun (i : ℕ) call => (s.channel call.1).index_ = i ∧ call.2 = r.revents i)
        ((List.range s.pollfds_.length).filter fun i => r.revents i ≠ 0) calls := by
  obtain ⟨t, hrun, order, h⟩ := run_represents hfd user turns
  cases hs.symm.trans hrun
  obtain ⟨s', hiter, hhandled⟩ := h.iterate_handled hfd user hr
  refine ⟨s', _, hiter, hhandled, ?_⟩
  rw [h.length, ← map_snd_due, List.forall₂_map_left_iff, List.forall₂_map_right_iff,
    List.forall₂_same]
  intro p hp
  have hlisted : order[p.2]? = some p.1 :=
    List.mem_zipIdx_iff_getElem?.mp (List.mem_of_mem_filter hp)
  exact ⟨(h.index p.1 p.2).mp hlisted, rfl⟩

/-- Two of three channels have events; the callbacks register a fourth channel,
change the interest of a third and stop the loop. -/
theorem iterate_dispatches_two_of_three :
    ∃ s s' : EventLoop, ∃ calls,
      EventLoop.run (fun ch => ch) (fun _ => [.enableReading 8, .enableWriting 6, .quit])
        [.call (.enableReading 5), .call (.enableReading 6), .call (.enableReading 7), .loop] =
          .ok s ∧
      s.iterate (fun _ => [.enableReading 8, .enableWriting 6, .quit])
        ⟨2, fun i => if i = 1 then 0 else 1⟩ = .ok s' ∧
      s'.handled = s.handled ++ calls ∧ s'.handled = [(5, 1), (7, 1)] := by
  have hfd : Injective fun ch : ℕ => (ch : ℤ) := Nat.cast_injective
  obtain ⟨s', calls, hiter, hhandled, hcalls⟩ := iterate_dispatches hfd
    (fun _ => [.enableReading 8, .enableWriting 6, .quit])
    [.call (.enableReading 5), .call (.enableReading 6), .call (.enableReading 7), .loop] rfl
    ⟨2, fun i => if i = 1 then 0 else 1⟩ ⟨rfl, by decide, by decide⟩
  refine ⟨_, s', calls, rfl, hiter, hhandled, ?_⟩
  cases hiter
  rfl

end EventLoop
end NetworkPrograms.Muduo
