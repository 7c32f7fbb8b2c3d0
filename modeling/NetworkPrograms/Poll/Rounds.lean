import NetworkPrograms.Foundations.Runs
import NetworkPrograms.Poll.Server

/-!
# Which clients are read in a round

A connection that is accepted goes into an entry that was free, so that `poll` has
reported nothing for it, or into the entry behind the last one, which `poll` has not been
given. The second kind is read in the same round when the entry holds `POLLIN` from
before and the scan gets to it.
-/
namespace NetworkPrograms.Poll

open Function
open Kernel (ReadResult toupper)

theorem freeEntry_spec (fds : ℕ → PollFd) :
    (freeEntry fds = OPEN_MAX ∨ freeEntry fds < OPEN_MAX ∧ (fds (freeEntry fds)).fd = none) ∧
      1 ≤ freeEntry fds ∧ ∀ j, 1 ≤ j → j < freeEntry fds → (fds j).fd ≠ none := by
  obtain ⟨hfound, hge, hbefore⟩ :=
    Slots.search_spec (fun i => (fds i).fd.isNone) (OPEN_MAX - 1) 1
  have hsize : 1 + (OPEN_MAX - 1) = OPEN_MAX := rfl
  rw [hsize] at hfound
  refine ⟨hfound.imp_right fun h => ⟨h.1, Option.isNone_iff_eq_none.mp h.2⟩, hge, ?_⟩
  intro j hle hlt hnone
  have hfree := hbefore j hle hlt
  simp [hnone] at hfree

namespace Server

/-- The entries in use are among the first `maxfd`, with different descriptors. -/
structure Inv (s : Server) : Prop where
  maxfd : s.maxfd < OPEN_MAX
  unused : ∀ i, s.maxfd < i → (s.fds i).fd = none
  distinct : ∀ i j fd, (s.fds i).fd = some fd → (s.fds j).fd = some fd → i = j

variable {s : Server}

theorem inv_init (lfd : ℕ) (events revents : ℕ → ℕ) : (init lfd events revents).Inv where
  maxfd := Nat.zero_lt_succ _
  unused := by
    intro i hi
    have hne : i ≠ 0 := Nat.ne_of_gt hi
    simp [init, hne]
  distinct := by
    intro i j fd hi hj
    simp only [init] at hi hj
    split_ifs at hi hj
    omega

@[simp] theorem poll_fd (s : Server) (revents : ℕ → ℕ) (i : ℕ) :
    ((s.poll revents).fds i).fd = (s.fds i).fd := by
  unfold Server.poll
  dsimp only
  split_ifs <;> rfl

@[simp] theorem poll_maxfd (s : Server) (revents : ℕ → ℕ) : (s.poll revents).maxfd = s.maxfd := rfl

theorem poll_of_lt {i : ℕ} (h : s.maxfd < i) (revents : ℕ → ℕ) :
    (s.poll revents).fds i = s.fds i := if_neg (not_le.mpr h)

theorem poll_free {i : ℕ} (hi : i ≤ s.maxfd) (hfree : (s.fds i).fd = none) (revents : ℕ → ℕ) :
    ((s.poll revents).fds i).revents = 0 := by
  simp [Server.poll, hi, hfree]

theorem Inv.poll (h : s.Inv) (revents : ℕ → ℕ) : (s.poll revents).Inv where
  maxfd := h.maxfd
  unused := by
    intro i hi
    rw [poll_fd]
    exact h.unused i hi
  distinct := by
    intro i j fd
    rw [poll_fd, poll_fd]
    exact h.distinct i j fd

theorem fd_of_ready {fds : ℕ → PollFd} {i fd : ℕ} (h : ready fds i = some fd) :
    (fds i).revents &&& POLLIN ≠ 0 ∧ (fds i).fd = some fd := by
  unfold ready at h
  split_ifs at h with hrev
  exact ⟨hrev, h⟩

theorem Inv.reported_nodup (h : s.Inv) : s.reported.Nodup := by
  apply List.Nodup.filterMap _ List.nodup_range'
  intro i j fd hi hj
  exact h.distinct i j fd (fd_of_ready hi).2 (fd_of_ready hj).2

/-- When the listening socket is the only entry that `poll` counts, no client is
reported. -/
theorem reported_eq_nil (hlisten : (s.fds 0).revents &&& POLLIN ≠ 0) (hone : s.nready - 1 ≤ 0) :
    s.reported = [] := by
  rw [reported, List.filterMap_eq_nil_iff]
  intro j hj
  by_contra hne
  obtain ⟨fd, hready⟩ := Option.ne_none_iff_exists'.mp hne
  have hnonzero : ∀ {n : ℕ}, n &&& POLLIN ≠ 0 → n ≠ 0 := by
    rintro n hbit rfl
    exact hbit (Nat.zero_and _)
  have hrange := List.mem_range'_1.mp hj
  have hnodup : [0, j].Nodup := by
    rw [List.nodup_cons]
    exact ⟨by simp; omega, by simp⟩
  have hsub : [0, j] ⊆ (List.range (s.maxfd + 1)).filter fun i => (s.fds i).revents ≠ 0 := by
    intro i hi
    rw [List.mem_filter, List.mem_range, decide_eq_true_eq]
    rcases List.mem_pair.mp hi with rfl | rfl
    · exact ⟨Nat.succ_pos _, hnonzero hlisten⟩
    · exact ⟨by omega, hnonzero (fd_of_ready hready).1⟩
  have htwo := (hnodup.subperm hsub).length_le
  rw [nready] at hone
  simp only [List.length_cons, List.length_nil] at htwo
  omega

theorem Inv.place (h : s.Inv) {cfd i : ℕ} (hlt : i < OPEN_MAX)
    (hnew : ∀ j, (s.fds j).fd ≠ some cfd) : (s.place cfd i).Inv where
  maxfd := by
    rw [Server.place]
    dsimp only
    split_ifs
    · exact hlt
    · exact h.maxfd
  unused := by
    intro j hj
    have hmax : i ≤ (s.place cfd i).maxfd ∧ s.maxfd ≤ (s.place cfd i).maxfd := by
      rw [Server.place]
      dsimp only
      split_ifs <;> omega
    simp only [Server.place]
    rw [update_of_ne (by omega)]
    exact h.unused j (by omega)
  distinct := by
    have hcase : ∀ j fd, ((s.place cfd i).fds j).fd = some fd →
        j = i ∧ fd = cfd ∨ j ≠ i ∧ (s.fds j).fd = some fd := by
      intro j fd hj
      simp only [Server.place] at hj
      rcases eq_or_ne j i with rfl | hne
      · rw [update_self] at hj
        exact .inl ⟨rfl, (Option.some.inj hj).symm⟩
      · rw [update_of_ne hne] at hj
        exact .inr ⟨hne, hj⟩
    intro j k fd hj hk
    rcases hcase j fd hj with ⟨rfl, rfl⟩ | ⟨-, hj'⟩
    · rcases hcase k fd hk with ⟨rfl, -⟩ | ⟨-, hk'⟩
      · rfl
      · exact absurd hk' (hnew k)
    · rcases hcase k fd hk with ⟨rfl, rfl⟩ | ⟨-, hk'⟩
      · exact absurd hj' (hnew j)
      · exact h.distinct j k fd hj' hk'

theorem serveAll_spec (s : Server) (read : ℕ → ReadResult) :
    Scanned read (List.range' 1 s.maxfd) s.fds (scan read (List.range' 1 s.maxfd) s.fds) :=
  scan_spec read List.nodup_range' s.fds

theorem Inv.serveAll (h : s.Inv) (read : ℕ → ReadResult) :
    ∀ t ∈ (s.serveAll read).next, t.Inv := by
  rintro t ht
  obtain ⟨left, hleft, rfl⟩ := Option.map_eq_some_iff.mp ht
  have hfd : ∀ i fd, (left i).fd = some fd → (s.fds i).fd = some fd := by
    intro i fd hi
    rcases (s.serveAll_spec read).freed left hleft i with heq | ⟨-, hnone⟩
    · rwa [heq] at hi
    · rw [hnone] at hi
      cases hi
  refine ⟨h.maxfd, ?_, ?_⟩
  · intro i hi
    by_contra hne
    obtain ⟨fd, hfd'⟩ := Option.ne_none_iff_exists'.mp hne
    have hused := hfd i fd hfd'
    rw [h.unused i hi] at hused
    cases hused
  · intro i j fd hi hj
    exact h.distinct i j fd (hfd i fd hi) (hfd j fd hj)

theorem Inv.fd_ne (h : s.Inv) {r : Round} (hr : s.Legal r) {cfd : ℕ} (hcfd : r.accept = some cfd)
    (j : ℕ) : (s.fds j).fd ≠ some cfd := by
  rcases Nat.lt_or_ge j OPEN_MAX with hlt | hge
  · exact hr cfd hcfd j hlt
  · rw [h.unused j (h.maxfd.trans_le hge)]
    simp

/-- All that a round can do, with `p` the server after `poll`. -/
inductive Rounded (p : Server) (r : Round) : Outcome → Prop where
  | quiet (unset : (p.fds 0).revents &&& POLLIN = 0) : Rounded p r (p.serveAll r.read)
  | acceptFailed (failed : r.accept = none) : Rounded p r ⟨[], none⟩
  | maxOut (cfd : ℕ) (full : freeEntry p.fds = OPEN_MAX) : Rounded p r ⟨[.accept cfd], none⟩
  | alone (cfd : ℕ) (accepted : r.accept = some cfd) (listening : (p.fds 0).revents &&& POLLIN ≠ 0)
      (lt : freeEntry p.fds < OPEN_MAX) (one : p.nready - 1 ≤ 0) :
      Rounded p r ⟨[.accept cfd], some (p.place cfd (freeEntry p.fds))⟩
  | together (cfd : ℕ) (accepted : r.accept = some cfd)
      (listening : (p.fds 0).revents &&& POLLIN ≠ 0) (lt : freeEntry p.fds < OPEN_MAX)
      (free : (p.fds (freeEntry p.fds)).fd = none) (more : 1 < p.nready) :
      Rounded p r ⟨.accept cfd :: ((p.place cfd (freeEntry p.fds)).serveAll r.read).operations,
        ((p.place cfd (freeEntry p.fds)).serveAll r.read).next⟩

theorem round_cases (s : Server) (r : Round) : Rounded (s.poll r.revents) r (s.round r) := by
  unfold Server.round
  dsimp only
  by_cases hlisten : ((s.poll r.revents).fds 0).revents &&& POLLIN = 0
  · rw [if_neg (not_not.mpr hlisten)]
    exact .quiet hlisten
  · rw [if_pos hlisten]
    cases haccept : r.accept with
    | none => exact .acceptFailed haccept
    | some cfd =>
      dsimp only
      split_ifs with hfull hone
      · exact .maxOut cfd hfull
      · exact .alone cfd haccept hlisten ((freeEntry_spec _).1.resolve_left hfull).1 hone
      · obtain ⟨hlt, hfree⟩ := (freeEntry_spec (s.poll r.revents).fds).1.resolve_left hfull
        exact .together cfd haccept hlisten hlt hfree (by omega)

theorem Inv.step (h : s.Inv) {r : Round} (hr : s.Legal r) {t : Server} (ht : s.step r = .ok t) :
    t.Inv := by
  have hp := h.poll r.revents
  have hnew : ∀ cfd, r.accept = some cfd → ∀ j, ((s.poll r.revents).fds j).fd ≠ some cfd := by
    intro cfd hcfd j
    rw [poll_fd]
    exact h.fd_ne hr hcfd j
  have hnext : (s.round r).next = some t := by
    unfold Server.step at ht
    split at ht
    · cases ht
      assumption
    · cases ht
  have hround := round_cases s r
  generalize s.round r = out at hround hnext
  cases hround with
  | quiet unset => exact hp.serveAll r.read t hnext
  | acceptFailed failed => cases hnext
  | maxOut cfd full => cases hnext
  | alone cfd accepted listening lt one =>
    cases hnext
    exact hp.place lt (hnew cfd accepted)
  | together cfd accepted listening lt free more =>
    exact (hp.place lt (hnew cfd accepted)).serveAll r.read t hnext

theorem serveAll_reads {p t : Server} (hp : p.Inv) (read : ℕ → ReadResult)
    (hsame : t.reported = p.reported) :
    readsOf (t.serveAll read).operations <+: p.reported ∧
      ((t.serveAll read).next.isSome → readsOf (t.serveAll read).operations = p.reported) ∧
      p.reported.Nodup := by
  have hscan := t.serveAll_spec read
  rw [← hsame]
  refine ⟨hscan.reads, ?_, hsame ▸ hp.reported_nodup⟩
  intro hsome
  apply hscan.complete
  simpa [serveAll] using hsome

theorem place_of_ne {p : Server} {cfd i j : ℕ} (h : j ≠ i) : (p.place cfd i).fds j = p.fds j :=
  update_of_ne h _ _

theorem reported_place_of_le {p : Server} {cfd i : ℕ} (hle : i ≤ p.maxfd)
    (hzero : (p.fds i).revents = 0) : (p.place cfd i).reported = p.reported := by
  have hmax : (p.place cfd i).maxfd = p.maxfd := if_neg (not_lt.mpr hle)
  rw [reported, reported, hmax]
  apply List.filterMap_congr
  intro j _
  rcases eq_or_ne j i with rfl | hne
  · simp [ready, Server.place, hzero]
  · rw [ready, ready, place_of_ne hne]

/-! ## A connection in the entry behind the last one -/

section Last

variable (p : Server) (cfd : ℕ)

theorem place_last_maxfd : (p.place cfd (p.maxfd + 1)).maxfd = p.maxfd + 1 :=
  if_pos (Nat.lt_succ_self _)

theorem ready_place_last :
    ready (p.place cfd (p.maxfd + 1)).fds (p.maxfd + 1) =
      if (p.fds (p.maxfd + 1)).revents &&& POLLIN ≠ 0 then some cfd else none := by
  simp [ready, Server.place]

theorem ready_place_before {i : ℕ} (hi : i ∈ List.range' 1 p.maxfd) :
    ready (p.place cfd (p.maxfd + 1)).fds i = ready p.fds i := by
  have hrange := List.mem_range'_1.mp hi
  rw [ready, ready, place_of_ne (by omega)]

theorem filterMap_ready_place_before :
    (List.range' 1 p.maxfd).filterMap (ready (p.place cfd (p.maxfd + 1)).fds) = p.reported := by
  apply List.filterMap_congr
  intro i hi
  exact ready_place_before p cfd hi

theorem scan_place_before_returns (read : ℕ → ReadResult) :
    (scan read (List.range' 1 p.maxfd) (p.place cfd (p.maxfd + 1)).fds).2.isSome ↔
      ∀ i ∈ List.range' 1 p.maxfd, (ready p.fds i).isSome → read i ≠ .error := by
  rw [(scan_spec read List.nodup_range' _).returns]
  apply forall₂_congr
  intro i hi
  rw [ready_place_before p cfd hi]

theorem range'_last : List.range' 1 (p.maxfd + 1) = List.range' 1 p.maxfd ++ [p.maxfd + 1] := by
  rw [List.range'_1_concat, Nat.add_comm 1]

/-- It is read in the same round when its entry holds `POLLIN` from before and no reported
client ends the server. -/
theorem Inv.serveAll_place_last_iff {p : Server} (hp : p.Inv) (cfd : ℕ) (read : ℕ → ReadResult) :
    (readsOf ((p.place cfd (p.maxfd + 1)).serveAll read).operations <+: p.reported ∧
      (((p.place cfd (p.maxfd + 1)).serveAll read).next.isSome →
        readsOf ((p.place cfd (p.maxfd + 1)).serveAll read).operations = p.reported) ∧
      p.reported.Nodup) ↔
    ¬ ((p.fds (p.maxfd + 1)).revents &&& POLLIN ≠ 0 ∧
      ∀ i ∈ List.range' 1 p.maxfd, (ready p.fds i).isSome → read i ≠ .error) := by
  have hbefore := filterMap_ready_place_before p cfd
  have hreturns := scan_place_before_returns p cfd read
  have hlast := ready_place_last p cfd
  by_cases hbit : (p.fds (p.maxfd + 1)).revents &&& POLLIN = 0
  · rw [if_neg (not_not.mpr hbit)] at hlast
    refine iff_of_true (serveAll_reads hp read ?_) fun hstale => hstale.1 hbit
    rw [reported, place_last_maxfd, range'_last, List.filterMap_append, hbefore,
      List.filterMap_cons_none hlast, List.filterMap_nil, List.append_nil]
  · rw [if_pos hbit] at hlast
    have hscan : Scanned read (List.range' 1 p.maxfd) (p.place cfd (p.maxfd + 1)).fds _ :=
      scan_spec read List.nodup_range' _
    have hnodup : (List.range' 1 p.maxfd ++ [p.maxfd + 1]).Nodup := by
      rw [← range'_last]
      exact List.nodup_range'
    unfold Server.serveAll
    rw [place_last_maxfd, range'_last]
    dsimp only
    rcases scan_concat read hnodup hlast with ⟨hsome, hreads⟩ | ⟨hnone, heq⟩
    · -- the new connection is read, and it was not reported
      apply iff_of_false
      · rintro ⟨hpre, -⟩
        rw [hreads, hbefore] at hpre
        have hlen := hpre.length_le
        rw [List.length_append, List.length_singleton] at hlen
        omega
      · exact not_not.mpr ⟨hbit, hreturns.mp hsome⟩
    · apply iff_of_true
      · rw [heq, hnone]
        exact ⟨hbefore ▸ hscan.reads, by simp, hp.reported_nodup⟩
      · rintro ⟨-, hall⟩
        have hsome := hreturns.mpr hall
        rw [hnone] at hsome
        cases hsome

end Last

theorem Inv.freeEntry_eq (h : s.Inv) (hlt : s.maxfd < freeEntry s.fds) :
    freeEntry s.fds = s.maxfd + 1 := by
  by_contra hne
  exact (freeEntry_spec s.fds).2.2 (s.maxfd + 1) (by omega) (by omega)
    (h.unused _ (Nat.lt_succ_self _))

theorem Inv.readsReported (h : s.Inv) (r : Round) : s.ReadsReported r ↔ ¬ s.Stale r := by
  have hp := h.poll r.revents
  have hround := round_cases s r
  unfold ReadsReported Stale
  dsimp only
  generalize s.round r = out at hround
  cases hround with
  | quiet unset =>
    exact iff_of_true (serveAll_reads hp r.read rfl) fun hstale => hstale.1 unset
  | acceptFailed failed =>
    exact iff_of_true ⟨List.nil_prefix, by simp, hp.reported_nodup⟩
      fun hstale => hstale.2.1 failed
  | maxOut cfd full =>
    exact iff_of_true ⟨List.nil_prefix, by simp, hp.reported_nodup⟩
      fun hstale => absurd full (ne_of_lt hstale.2.2.2.2.1)
  | alone cfd accepted listening lt one =>
    have hnil := reported_eq_nil listening one
    refine iff_of_true ⟨List.nil_prefix, fun _ => hnil.symm, hp.reported_nodup⟩ ?_
    intro hstale
    have hmore := hstale.2.2.1
    omega
  | together cfd accepted listening lt free more =>
    rw [readsOf_cons_accept]
    by_cases hle : freeEntry (s.poll r.revents).fds ≤ s.maxfd
    · rw [poll_fd] at free
      exact iff_of_true (serveAll_reads hp r.read (reported_place_of_le hle (poll_free hle free _)))
        fun hstale => absurd hstale.2.2.2.1 (not_lt.mpr hle)
    · have hlast := hp.freeEntry_eq (not_le.mp hle)
      have hjunk := poll_of_lt (Nat.lt_succ_self s.maxfd) r.revents
      have hiff := hp.serveAll_place_last_iff cfd r.read
      rw [poll_maxfd] at hiff hlast
      rw [hlast] at lt ⊢
      rw [hiff, hjunk]
      apply not_congr
      constructor
      · rintro ⟨hbit, hall⟩
        exact ⟨listening, by simp [accepted], more, Nat.lt_succ_self _, lt, hbit, hall⟩
      · rintro ⟨-, -, -, -, -, hbit, hall⟩
        exact ⟨hbit, hall⟩

end Server

/-- Whatever the stack held, in every round of a run only clients that `poll` has reported
are read, and each of them once, exactly when no connection is put into an entry with an
old `POLLIN` behind the ones polled, in a round whose scan gets that far. -/
theorem only_reported_read_iff (lfd : ℕ) (events revents : ℕ → ℕ) (rounds : List Round)
    (h : Runs.Admissible Server.step Server.Legal (init lfd events revents) rounds) :
    Runs.Admissible Server.step Server.ReadsReported (init lfd events revents) rounds ↔
      Runs.Admissible Server.step (fun s r => ¬ s.Stale r) (init lfd events revents) rounds := by
  apply Runs.admissible_congr Server.Inv _ _ (Server.inv_init lfd events revents) h
  · intro s r hs _
    exact hs.readsReported r
  · intro s r t hs hr _ ht
    exact hs.step hr ht

/-- A client connects on its own and then writes; `POLLIN` is in every entry from before. -/
theorem only_reported_read_iff_alone :
    Runs.Admissible Server.step Server.ReadsReported (init 3 (fun _ => 0) fun _ => POLLIN)
      [⟨fun _ => POLLIN, some 4, fun _ => .error⟩,
        ⟨fun i => if i = 1 then POLLIN else 0, none, fun _ => .got [104, 105]⟩] :=
  (only_reported_read_iff 3 _ _ _ (by decide +kernel)).mpr (by decide +kernel)

/-- The first client writes while a second one connects: the second one is read as well,
before it has written anything. -/
theorem new_client_read_unreported :
    ¬ ∀ (lfd : ℕ) (events revents : ℕ → ℕ) (rounds : List Round),
      Runs.Admissible Server.step Server.Legal (init lfd events revents) rounds →
      Runs.Admissible Server.step Server.ReadsReported (init lfd events revents) rounds := by
  intro h
  have hreads := h 3 (fun _ => 0) (fun _ => POLLIN)
    [⟨fun _ => POLLIN, some 4, fun _ => .got [104]⟩, ⟨fun _ => POLLIN, some 5, fun _ => .got [104]⟩]
    (by decide +kernel)
  exact absurd hreads (by decide +kernel)

end NetworkPrograms.Poll
