import NetworkPrograms.Select.Servers

/-!
# The array of clients loses nothing

The second server keeps exactly the watched clients in its slots, each once and
none behind `maxi`, so the clients that `select` counted are all met before the
counter is used up. Serving a client touches its own descriptor only, so the
order of the slots makes no difference to what the first server does.
-/
namespace NetworkPrograms.Select

open Function Slots

variable {reads : ℕ → ℕ → ReadResult}

@[simp] theorem serve_reads (fd : ℕ) (d : Descriptor) :
    (serve reads fd d).reads = d.reads + 1 := by
  rw [serve]
  split <;> rfl

theorem serve_allset (fd : ℕ) (d : Descriptor) :
    (serve reads fd d).allset = (d.allset && !closes reads fd d) := by
  rw [serve, closes]
  split <;> simp_all

theorem serve_opened (fd : ℕ) (d : Descriptor) :
    (serve reads fd d).opened = (d.opened && !closes reads fd d) := by
  rw [serve, closes]
  split <;> simp_all

/-! ## The two scans -/

theorem Server.serveAll_descriptor (s : Server) (rset : ℕ → Bool) :
    (s.serveAll reads rset).descriptor = Keyed.touchAll (serve reads)
      ((List.range' (s.listenfd + 1) (s.maxfd - s.listenfd)).filter rset) s.descriptor := by
  rw [Keyed.touchAll, List.foldl_filter]
  rfl

theorem slotAfter_eq {rset : ℕ → Bool} {fd : ℕ} (t : ℕ → Descriptor) (hready : rset fd = true) :
    slotAfter reads fd (t fd) =
      Option.filter (fun k => !(rset k && closes reads k (t k))) (some fd) := by
  rw [slotAfter, Option.filter_some, hready]
  cases closes reads fd (t fd) <;> rfl

/-- The scan of the second server serves the ready clients in the order of their
slots and frees the slots of those that have closed, when the counter is their
number. -/
theorem serveSlots_eq {rset : ℕ → Bool} {slots : List (Option ℕ)} {nready : ℤ}
    (hnodup : (held slots).Nodup) (hcount : nready = ((held slots).filter rset).length)
    (t : ℕ → Descriptor) :
    (serveSlots reads rset slots nready t).1 =
        slots.map (Option.filter fun fd => !(rset fd && closes reads fd (t fd))) ∧
      (serveSlots reads rset slots nready t).2.1 =
        Keyed.touchAll (serve reads) ((held slots).filter rset) t := by
  induction slots generalizing nready t with
  | nil => simp [serveSlots]
  | cons slot slots ih =>
    cases slot with
    | none =>
      obtain ⟨hslots, htable⟩ := ih hnodup hcount t
      exact ⟨by simp [serveSlots, hslots], htable⟩
    | some fd =>
      rw [held_cons_some] at hnodup hcount ⊢
      obtain ⟨hnot, hrest⟩ := List.nodup_cons.mp hnodup
      cases hready : rset fd with
      | false =>
        rw [List.filter_cons_of_neg (by simp [hready])] at hcount ⊢
        obtain ⟨hslots, htable⟩ := ih hrest hcount t
        constructor
        · simp [serveSlots, hready, hslots, Option.filter]
        · simp [serveSlots, hready, htable]
      | true =>
        rw [List.filter_cons_of_pos (by simp [hready])] at hcount ⊢
        rw [List.length_cons] at hcount
        have hslot := @slotAfter_eq reads rset fd t hready
        have hother : ∀ k ∈ held slots, update t fd (serve reads fd (t fd)) k = t k := by
          intro k hk
          apply update_of_ne
          rintro rfl
          exact hnot hk
        by_cases hzero : nready - 1 = 0
        · -- the counter is used up, and no ready client is left
          have hnone : (held slots).filter rset = [] := by
            apply List.eq_nil_of_length_eq_zero
            omega
          simp only [serveSlots, hready, hzero, if_true, List.map_cons, ← hslot, hnone,
            Keyed.touchAll_cons, Keyed.touchAll_nil, and_true, List.cons.injEq, true_and]
          symm
          apply map_filter_eq_self
          intro k hk
          simp [List.filter_eq_nil_iff.mp hnone k hk]
        · have hless : nready - 1 = ((held slots).filter rset).length := by omega
          obtain ⟨hslots, htable⟩ := ih hrest hless (update t fd (serve reads fd (t fd)))
          simp only [serveSlots, hready, hzero, if_true, if_false, List.map_cons, ← hslot,
            hslots, htable, Keyed.touchAll_cons, and_true, List.cons.injEq, true_and]
          apply map_filter_congr
          intro k hk
          rw [hother k hk]

/-! ## The slots hold the watched clients -/

namespace Optimised

/-- The slots hold the watched clients, each once and none behind `maxi`. -/
structure Inv (s : Optimised) : Prop where
  listening : (s.descriptor s.listenfd).allset = true
  watched : ∀ fd, (s.descriptor fd).allset = true →
    (s.descriptor fd).opened = true ∧ fd ≤ s.maxfd
  clients : ∀ fd, fd ∈ held s.client ↔ (s.descriptor fd).allset = true ∧ fd ≠ s.listenfd
  range : ∀ fd ∈ held s.client, s.listenfd < fd ∧ fd < FD_SETSIZE
  nodup : (held s.client).Nodup
  unused : held (s.client.drop (s.maxi + 1).toNat) = []
  length : s.client.length = FD_SETSIZE

theorem inv_init (listenfd : ℕ) : (init listenfd).Inv where
  listening := by simp [init, Server.init]
  watched := by
    intro fd hfd
    obtain rfl : fd = listenfd := by simpa [init, Server.init] using hfd
    simp [init, Server.init]
  clients := by simp [init, Server.init]
  range := by simp [init]
  nodup := by simp [init]
  unused := by simp [init]
  length := by simp [init]

variable {s : Optimised}

theorem Inv.notMem (h : s.Inv) {connfd : ℕ} (hopen : (s.descriptor connfd).opened = false) :
    connfd ∉ held s.client := by
  intro hmem
  have hwatched := (h.watched connfd ((h.clients connfd).mp hmem).1).1
  rw [hopen] at hwatched
  cases hwatched

/-- There is a slot for a new client: it and the others have different descriptors
below `FD_SETSIZE`. -/
theorem Inv.firstFree_lt (h : s.Inv) {connfd : ℕ}
    (hopen : (s.descriptor connfd).opened = false) (hlt : connfd < FD_SETSIZE) :
    firstFree s.client < s.client.length := by
  have hnodup : (connfd :: held s.client).Nodup := List.nodup_cons.mpr ⟨h.notMem hopen, h.nodup⟩
  have hsub : connfd :: held s.client ⊆ List.range FD_SETSIZE := by
    intro fd hfd
    rw [List.mem_range]
    rcases List.mem_cons.mp hfd with rfl | hfd
    · exact hlt
    · exact (h.range fd hfd).2
  have hlen := (hnodup.subperm hsub).length_le
  rw [List.length_cons, List.length_range, ← h.length] at hlen
  exact Slots.firstFree_lt hlen

/-- All that a new connection does. -/
structure Placed (s : Optimised) (connfd : ℕ) (t : Optimised) : Prop where
  listenfd : t.listenfd = s.listenfd
  maxfd : s.maxfd ≤ t.maxfd ∧ connfd ≤ t.maxfd
  descriptor : t.descriptor = update s.descriptor connfd
    { s.descriptor connfd with opened := true, allset := true }
  client : (held t.client).Perm (connfd :: held s.client)
  unused : held (t.client.drop (t.maxi + 1).toNat) = []
  length : t.client.length = FD_SETSIZE

theorem Inv.place (h : s.Inv) {connfd : ℕ} (hopen : (s.descriptor connfd).opened = false)
    (hlt : connfd < FD_SETSIZE) :
    ∃ t, s.place connfd = .ok t ∧ s.watch connfd = .ok t.toServer ∧ Placed s connfd t := by
  have hfree := h.firstFree_lt hopen hlt
  have hslot : firstFree s.client ≠ FD_SETSIZE := by
    rw [← h.length]
    exact hfree.ne
  have hwatch : s.watch connfd = .ok _ := if_pos hlt
  have hplace : s.place connfd = .ok { s with
      maxfd := if s.maxfd < connfd then connfd else s.maxfd
      descriptor := update s.descriptor connfd
        { s.descriptor connfd with opened := true, allset := true }
      client := s.client.set (firstFree s.client) (some connfd)
      maxi := if s.maxi < firstFree s.client then (firstFree s.client : ℤ) else s.maxi } := by
    rw [Optimised.place, hwatch]
    exact if_neg hslot
  refine ⟨_, hplace, hwatch, rfl, ?_, rfl, ?_, ?_, ?_⟩
  · dsimp only
    split_ifs <;> omega
  · exact held_set_firstFree hfree connfd
  · dsimp only
    have hbehind : firstFree s.client <
        ((if s.maxi < firstFree s.client then (firstFree s.client : ℤ) else s.maxi) + 1).toNat := by
      split_ifs <;> omega
    rw [List.drop_set_of_lt hbehind]
    apply held_drop_eq_nil _ h.unused
    split_ifs <;> omega
  · simp [h.length]

theorem Placed.inv {t : Optimised} {connfd : ℕ} (h : s.Inv) (ht : Placed s connfd t)
    (hopen : (s.descriptor connfd).opened = false) (hrange : s.listenfd < connfd)
    (hlt : connfd < FD_SETSIZE) : t.Inv where
  listening := by
    rw [ht.listenfd, ht.descriptor, update_of_ne hrange.ne]
    exact h.listening
  watched := by
    intro fd hfd
    rw [ht.descriptor] at hfd ⊢
    by_cases hc : fd = connfd
    · subst hc
      exact ⟨by simp, ht.maxfd.2⟩
    · rw [update_of_ne hc] at hfd ⊢
      exact ⟨(h.watched fd hfd).1, (h.watched fd hfd).2.trans ht.maxfd.1⟩
  clients := by
    intro fd
    rw [ht.client.mem_iff, List.mem_cons, h.clients, ht.descriptor, ht.listenfd]
    by_cases hc : fd = connfd
    · subst hc
      simp [hrange.ne']
    · simp [hc]
  range := by
    intro fd hfd
    rw [ht.listenfd]
    rcases List.mem_cons.mp (ht.client.mem_iff.mp hfd) with rfl | hfd
    · exact ⟨hrange, hlt⟩
    · exact h.range fd hfd
  nodup := ht.client.nodup_iff.mpr (List.nodup_cons.mpr ⟨h.notMem hopen, h.nodup⟩)
  unused := ht.unused
  length := ht.length

/-! ## The scans agree -/

section
variable {rset : ℕ → Bool}

/-- The clients among the descriptors that `select` has left in the set. -/
def hits (s : Optimised) (rset : ℕ → Bool) : List ℕ := (held s.client).filter rset

theorem mem_hits {fd : ℕ} : fd ∈ s.hits rset ↔ fd ∈ held s.client ∧ rset fd = true := by
  rw [hits, List.mem_filter]

theorem Inv.nodup_hits (h : s.Inv) (rset : ℕ → Bool) : (s.hits rset).Nodup := h.nodup.filter _

theorem Inv.serveAll_client (h : s.Inv) {nready : ℤ} (hcount : nready = (s.hits rset).length) :
    (s.serveAll reads rset nready).client = s.client.map
        (Option.filter fun fd => !(rset fd && closes reads fd (s.descriptor fd))) ∧
      (s.serveAll reads rset nready).descriptor =
        Keyed.touchAll (serve reads) (s.hits rset) s.descriptor := by
  have htake := held_take h.unused
  obtain ⟨hslots, htable⟩ := @serveSlots_eq reads rset _ nready
    (by rw [htake]; exact h.nodup) (by rw [htake]; exact hcount) s.descriptor
  constructor
  · -- the slots behind `maxi` are free
    have hdrop : (s.client.drop (s.maxi + 1).toNat).map
        (Option.filter fun fd => !(rset fd && closes reads fd (s.descriptor fd))) =
          s.client.drop (s.maxi + 1).toNat := by
      apply map_filter_eq_self
      intro fd hfd
      rw [h.unused] at hfd
      cases hfd
    conv_rhs => rw [← List.take_append_drop (s.maxi + 1).toNat s.client]
    rw [List.map_append, hdrop, ← hslots]
    rfl
  · rw [htake] at htable
    exact htable

theorem Inv.serveAll_server (h : s.Inv) {nready : ℤ} (hcount : nready = (s.hits rset).length)
    (hrset : ∀ fd, rset fd = true → fd ≤ s.maxfd ∧ (fd = s.listenfd ∨ fd ∈ held s.client)) :
    (s.serveAll reads rset nready).toServer = s.toServer.serveAll reads rset := by
  have hsame : (s.serveAll reads rset nready).descriptor =
      (s.toServer.serveAll reads rset).descriptor := by
    rw [(h.serveAll_client hcount).2, Server.serveAll_descriptor]
    apply Keyed.touchAll_congr
    · exact h.nodup_hits rset
    · exact (List.nodup_range' ..).filter _
    · intro fd
      rw [mem_hits, List.mem_filter, List.mem_range'_1]
      constructor
      · rintro ⟨hclient, hready⟩
        have hlow := (h.range fd hclient).1
        have hhigh := (hrset fd hready).1
        exact ⟨by omega, hready⟩
      · rintro ⟨hrange, hready⟩
        rcases (hrset fd hready).2 with rfl | hclient
        · omega
        · exact ⟨hclient, hready⟩
  exact congrArg (fun t => { s.toServer with descriptor := t }) hsame

theorem Inv.serveAll_descriptor (h : s.Inv) {nready : ℤ}
    (hcount : nready = (s.hits rset).length) (fd : ℕ) :
    (s.serveAll reads rset nready).descriptor fd =
      if fd ∈ s.hits rset then serve reads fd (s.descriptor fd) else s.descriptor fd := by
  rw [(h.serveAll_client hcount).2, Keyed.touchAll_apply _ (h.nodup_hits rset)]

theorem Inv.serveAll_allset (h : s.Inv) {nready : ℤ} (hcount : nready = (s.hits rset).length)
    (fd : ℕ) :
    ((s.serveAll reads rset nready).descriptor fd).allset = true ↔
      (s.descriptor fd).allset = true ∧
        ¬ (fd ∈ s.hits rset ∧ closes reads fd (s.descriptor fd) = true) := by
  rw [h.serveAll_descriptor hcount]
  split_ifs with hfd
  · simp [serve_allset, hfd]
  · simp [hfd]

theorem Inv.serveAll (h : s.Inv) {nready : ℤ} (hcount : nready = (s.hits rset).length) :
    (s.serveAll reads rset nready).Inv := by
  have hheld : held (s.serveAll reads rset nready).client = (held s.client).filter
      fun fd => !(rset fd && closes reads fd (s.descriptor fd)) := by
    rw [(h.serveAll_client hcount).1, held_map_filter]
  have hlisten : s.listenfd ∉ s.hits rset := by
    intro hmem
    exact lt_irrefl _ (h.range _ (mem_hits.mp hmem).1).1
  refine ⟨?_, ?_, ?_, ?_, ?_, ?_, ?_⟩
  · rw [h.serveAll_allset hcount]
    exact ⟨h.listening, fun hmem => hlisten hmem.1⟩
  · intro fd hfd
    obtain ⟨hset, hkept⟩ := (h.serveAll_allset hcount fd).mp hfd
    refine ⟨?_, (h.watched fd hset).2⟩
    rw [h.serveAll_descriptor hcount]
    split_ifs with hmem
    · simp [serve_opened, (h.watched fd hset).1, Bool.eq_false_iff.mpr fun hc => hkept ⟨hmem, hc⟩]
    · exact (h.watched fd hset).1
  · intro fd
    have hkept : (!(rset fd && closes reads fd (s.descriptor fd))) = true ↔
        ¬ (rset fd = true ∧ closes reads fd (s.descriptor fd) = true) := by
      cases rset fd <;> simp
    rw [hheld, h.serveAll_allset hcount, List.mem_filter, hkept, mem_hits, h.clients]
    change _ ↔ _ ∧ fd ≠ s.listenfd
    constructor
    · rintro ⟨⟨hset, hne⟩, hopen⟩
      exact ⟨⟨hset, fun hc => hopen ⟨hc.1.2, hc.2⟩⟩, hne⟩
    · rintro ⟨⟨hset, hopen⟩, hne⟩
      exact ⟨⟨hset, hne⟩, fun hc => hopen ⟨⟨⟨hset, hne⟩, hc.1⟩, hc.2⟩⟩
  · intro fd hfd
    rw [hheld] at hfd
    exact h.range fd (List.mem_of_mem_filter hfd)
  · rw [hheld]
    exact h.nodup.filter _
  · rw [(h.serveAll_client hcount).1, ← List.map_drop, held_map_filter]
    exact congrArg (List.filter _) h.unused
  · rw [(h.serveAll_client hcount).1, List.length_map]
    exact h.length

end

/-! ## Rounds and runs -/

variable {ready : ℕ → Bool}

theorem Inv.of_rset (h : s.Inv) {fd : ℕ} (hfd : s.rset ready fd = true) :
    fd ≤ s.maxfd ∧ (fd = s.listenfd ∨ fd ∈ held s.client) := by
  simp only [Server.rset, Bool.and_eq_true, decide_eq_true_eq] at hfd
  refine ⟨hfd.1.1, ?_⟩
  by_cases hl : fd = s.listenfd
  · exact .inl hl
  · exact .inr ((h.clients fd).mpr ⟨hfd.1.2, hl⟩)

theorem Inv.nready_eq (h : s.Inv) :
    s.nready ready = ((s.listenfd :: held s.client).filter (s.rset ready)).length := by
  have hperm : ((List.range (s.maxfd + 1)).filter (s.rset ready)).Perm
      ((s.listenfd :: held s.client).filter (s.rset ready)) := by
    rw [List.perm_ext_iff_of_nodup (List.nodup_range.filter _)
      ((List.nodup_cons.mpr ⟨fun hl => lt_irrefl _ (h.range _ hl).1, h.nodup⟩).filter _)]
    intro fd
    rw [List.mem_filter, List.mem_filter, List.mem_range, List.mem_cons]
    constructor
    · rintro ⟨-, hfd⟩
      exact ⟨(h.of_rset hfd).2, hfd⟩
    · rintro ⟨-, hfd⟩
      exact ⟨Nat.lt_succ_of_le (h.of_rset hfd).1, hfd⟩
  rw [Server.nready, hperm.length_eq]

/-- What a round leaves: the state of the first server, and one more `read` for
every client that was ready. -/
structure Follows (reads : ℕ → ℕ → ReadResult) (s : Optimised) (ready : ℕ → Bool) (r : Round)
    (s' : Optimised) : Prop where
  inv : s'.Inv
  server : s.toServer.step reads r = .ok s'.toServer
  served : ∀ fd, fd ≠ s.listenfd → (s'.descriptor fd).reads =
    (s.descriptor fd).reads + if s.rset ready fd then 1 else 0

theorem Inv.serveAll_reads (h : s.Inv) {rset : ℕ → Bool} {nready : ℤ}
    (hcount : nready = (s.hits rset).length)
    (hrset : ∀ fd, rset fd = true → fd = s.listenfd ∨ fd ∈ held s.client) {fd : ℕ}
    (hfd : fd ≠ s.listenfd) :
    ((s.serveAll reads rset nready).descriptor fd).reads =
      (s.descriptor fd).reads + if rset fd then 1 else 0 := by
  rw [h.serveAll_descriptor hcount]
  by_cases hready : rset fd = true
  · have hhit : fd ∈ s.hits rset := mem_hits.mpr ⟨(hrset fd hready).resolve_left hfd, hready⟩
    rw [if_pos hhit, if_pos hready, serve_reads]
  · have hhit : fd ∉ s.hits rset := fun hmem => hready (mem_hits.mp hmem).2
    rw [if_neg hhit, if_neg hready, Nat.add_zero]

theorem Inv.step_of_not_listening (h : s.Inv) (accept : Option ℕ)
    (hlisten : s.rset ready s.listenfd = false) :
    ∃ s', s.step reads ⟨some ready, accept⟩ = .ok s' ∧
      Follows reads s ready ⟨some ready, accept⟩ s' := by
  have hcount : s.nready ready = (s.hits (s.rset ready)).length := by
    rw [h.nready_eq, List.filter_cons_of_neg (by simp [hlisten])]
    rfl
  refine ⟨s.serveAll reads (s.rset ready) (s.nready ready), ?_, h.serveAll hcount, ?_, ?_⟩
  · exact if_neg (Bool.not_eq_true _ ▸ hlisten)
  · rw [h.serveAll_server hcount fun fd hfd => h.of_rset hfd]
    exact if_neg (Bool.not_eq_true _ ▸ hlisten)
  · intro fd hfd
    exact h.serveAll_reads hcount (fun k hk => (h.of_rset hk).2) hfd

section
variable {t : Optimised} {connfd : ℕ}

theorem Placed.reads_eq (ht : Placed s connfd t) (fd : ℕ) :
    (t.descriptor fd).reads = (s.descriptor fd).reads := by
  rw [ht.descriptor]
  by_cases hfd : fd = connfd
  · subst hfd
    simp
  · rw [update_of_ne hfd]

theorem Placed.of_rset (h : s.Inv) (ht : Placed s connfd t) {fd : ℕ}
    (hfd : s.rset ready fd = true) : fd ≤ t.maxfd ∧ (fd = t.listenfd ∨ fd ∈ held t.client) := by
  obtain ⟨hmax, hmem⟩ := h.of_rset hfd
  refine ⟨hmax.trans ht.maxfd.1, ?_⟩
  rw [ht.listenfd, ht.client.mem_iff, List.mem_cons]
  exact hmem.imp_right .inr

theorem Placed.nready_eq (h : s.Inv) (ht : Placed s connfd t)
    (hlisten : s.rset ready s.listenfd = true)
    (hopen : (s.descriptor connfd).opened = false) (hrange : s.listenfd < connfd) :
    s.nready ready - 1 = (t.hits (s.rset ready)).length := by
  have hnew : ¬ s.rset ready connfd = true := by
    intro hset
    rcases (h.of_rset hset).2 with heq | hmem
    · exact hrange.ne' heq
    · exact h.notMem hopen hmem
  have hsame : (t.hits (s.rset ready)).length = (s.hits (s.rset ready)).length := by
    rw [hits, (ht.client.filter _).length_eq, List.filter_cons_of_neg hnew]
    rfl
  rw [h.nready_eq, List.filter_cons_of_pos hlisten, hsame, hits, List.length_cons]
  omega

theorem Inv.step_of_listening (h : s.Inv) (hlisten : s.rset ready s.listenfd = true)
    (hopen : (s.descriptor connfd).opened = false) (hrange : s.listenfd < connfd)
    (hlt : connfd < FD_SETSIZE) :
    ∃ s', s.step reads ⟨some ready, some connfd⟩ = .ok s' ∧
      Follows reads s ready ⟨some ready, some connfd⟩ s' := by
  obtain ⟨t, hplace, hwatch, ht⟩ := h.place hopen hlt
  have hinv := ht.inv h hopen hrange hlt
  have hcount := ht.nready_eq h hlisten hopen hrange
  by_cases hzero : s.nready ready - 1 = 0
  · refine ⟨t, ?_, hinv, ?_, ?_⟩
    · simp only [Optimised.step, hlisten, if_true, hplace, hzero]
    · simp only [Server.step, hlisten, if_true, hwatch, hzero]
    · intro fd hfd
      have hnone : ¬ s.rset ready fd = true := by
        intro hset
        have hmem : fd ∈ t.hits (s.rset ready) :=
          mem_hits.mpr ⟨(ht.of_rset h hset).2.resolve_left (ht.listenfd ▸ hfd), hset⟩
        have hpos := List.length_pos_of_mem hmem
        omega
      rw [ht.reads_eq, if_neg hnone, Nat.add_zero]
  · refine ⟨t.serveAll reads (s.rset ready) (s.nready ready - 1), ?_, hinv.serveAll hcount, ?_, ?_⟩
    · simp only [Optimised.step, hlisten, if_true, hplace, if_neg hzero]
    · simp only [Server.step, hlisten, if_true, hwatch, if_neg hzero,
        hinv.serveAll_server hcount fun fd hfd => ht.of_rset h hfd]
    · intro fd hfd
      rw [hinv.serveAll_reads hcount (fun k hk => (ht.of_rset h hk).2) (ht.listenfd ▸ hfd),
        ht.reads_eq]

end

theorem Inv.step (h : s.Inv) (reads : ℕ → ℕ → ReadResult) {r : Round} (hr : s.legal r) :
    ∃ s' ready, r.select = some ready ∧ s.step reads r = .ok s' ∧
      Follows reads s ready r s' := by
  obtain ⟨select, accept⟩ := r
  cases select with
  | none => exact hr.elim
  | some ready =>
    cases hlisten : s.rset ready s.listenfd with
    | false =>
      obtain ⟨s', hstep, hs'⟩ := h.step_of_not_listening accept hlisten
      exact ⟨s', ready, rfl, hstep, hs'⟩
    | true =>
      cases accept with
      | none =>
        have : s.rset ready s.listenfd = false := hr
        rw [hlisten] at this
        cases this
      | some connfd =>
        obtain ⟨hopen, hrange, hlt⟩ := hr hlisten
        obtain ⟨s', hstep, hs'⟩ := h.step_of_listening hlisten hopen hrange hlt
        exact ⟨s', ready, rfl, hstep, hs'⟩

/-- The second server refines the first one. After every legal run it has the
descriptors of the first server, with their bits in `allset` and all operations on
them, and the same `maxfd`; and whatever `select` reports next, each of its
clients is read once if it is ready and not at all if it is not. -/
theorem optimised_refines (reads : ℕ → ℕ → ReadResult) (listenfd : ℕ) (rounds : List Round)
    (h : Runs.Admissible (Server.step reads) Server.legal (Server.init listenfd) rounds) :
    ∃ o : Optimised,
      Runs.run (Optimised.step reads) (Optimised.init listenfd) rounds = .ok o ∧
      Runs.run (Server.step reads) (Server.init listenfd) rounds = .ok o.toServer ∧
      ∀ r ready, o.legal r → r.select = some ready → ∃ o', o.step reads r = .ok o' ∧
        ∀ fd, fd ≠ o.listenfd → (o'.descriptor fd).reads =
          (o.descriptor fd).reads + if o.rset ready fd then 1 else 0 := by
  have hround : ∀ (o : Optimised) (s : Server) (r : Round), (o.Inv ∧ o.toServer = s) →
      s.legal r → ∃ o' s', o.step reads r = .ok o' ∧ s.step reads r = .ok s' ∧
        (o'.Inv ∧ o'.toServer = s') := by
    rintro o s r ⟨hinv, rfl⟩ hr
    obtain ⟨o', ready, -, hstep, ho'⟩ := hinv.step reads hr
    exact ⟨o', o'.toServer, hstep, ho'.server, ho'.inv, rfl⟩
  obtain ⟨o, s, hrun, hrun', hinv, rfl⟩ := Runs.run_simulation
    (fun (o : Optimised) s => o.Inv ∧ o.toServer = s) hround ⟨inv_init listenfd, rfl⟩ h
  refine ⟨o, hrun, hrun', ?_⟩
  intro r ready hr hselect
  obtain ⟨o', ready', hselect', hstep, ho'⟩ := hinv.step reads hr
  cases hselect.symm.trans hselect'
  exact ⟨o', hstep, ho'.served⟩

/-- Two clients connect; the first one writes a byte and leaves, and its slot and
descriptor are used again. -/
theorem optimised_refines_two_clients :
    ∃ o : Optimised,
      Runs.run (Optimised.step fun _ n => if n = 0 then some [104] else some [])
        (Optimised.init 3) [⟨some fun _ => true, some 4⟩, ⟨some fun _ => true, some 5⟩,
          ⟨some fun fd => fd = 4, none⟩, ⟨some fun _ => true, some 4⟩] = .ok o ∧
      (o.descriptor 4).operations =
        [.read (some [104]), .write [72], .read (some []), .close] := by
  obtain ⟨o, hrun, hrun', -⟩ := optimised_refines (fun _ n => if n = 0 then some [104] else some [])
    3 [⟨some fun _ => true, some 4⟩, ⟨some fun _ => true, some 5⟩,
      ⟨some fun fd => fd = 4, none⟩, ⟨some fun _ => true, some 4⟩] (by decide)
  have hops := congrArg (Except.map fun s : Server => (s.descriptor 4).operations) hrun'
  exact ⟨o, hrun, (Except.ok.inj hops).symm⟩

end Optimised
end NetworkPrograms.Select
