import NetworkPrograms.Select.Refinement

/-!
# The descriptors in an `fd_set`

The server of `select优化.c` stops with `too many clients` when its array of
`FD_SETSIZE` slots is full. The sets are indexed by descriptors, and some of these are
taken before the first client connects: the standard ones and the listening one. So the
descriptors run out of the set while there are still free slots, and `FD_SET` is called
before the slots are looked at.
-/
namespace NetworkPrograms.Select

open Function Slots

inductive SetCall where
  | isSet (fd : ℕ)
  | set (fd : ℕ)
  | clr (fd : ℕ)
  deriving DecidableEq

def SetCall.fd : SetCall → ℕ
  | .isSet fd => fd
  | .set fd => fd
  | .clr fd => fd

/-- What a macro does to `allset`. -/
def SetCall.apply (allset : ℕ → Bool) : SetCall → ℕ → Bool
  | .isSet _ => allset
  | .set fd => update allset fd true
  | .clr fd => update allset fd false

section
variable (reads : ℕ → ℕ → ReadResult)

def serveCalls (fd : ℕ) (d : Descriptor) : List SetCall :=
  .isSet fd :: if closes reads fd d then [.clr fd] else []

def slotCalls (rset : ℕ → Bool) : List (Option ℕ) → ℤ → (ℕ → Descriptor) → List SetCall
  | [], _, _ => []
  | none :: slots, nready, t => slotCalls rset slots nready t
  | some fd :: slots, nready, t =>
    if rset fd then
      let nready := nready - 1
      if nready = 0 then serveCalls reads fd (t fd)
      else serveCalls reads fd (t fd) ++
        slotCalls rset slots nready (update t fd (serve reads fd (t fd)))
    else .isSet fd :: slotCalls rset slots nready t

namespace Optimised

variable (s : Optimised)

def serveAllCalls (rset : ℕ → Bool) (nready : ℤ) : List SetCall :=
  slotCalls reads rset (s.client.take (s.maxi + 1).toNat) nready s.descriptor

/-- The macros used in a round, with the ones before the program stops. -/
def calls (r : Round) : List SetCall :=
  match r.select with
  | none => []
  | some ready =>
    .isSet s.listenfd ::
      if s.rset ready s.listenfd then
        match r.accept with
        | none => []
        | some connfd =>
          .set connfd ::
            match s.place connfd with
            | .error _ => []
            | .ok t =>
              let nready := s.nready ready - 1
              if nready = 0 then [] else t.serveAllCalls reads (s.rset ready) nready
      else s.serveAllCalls reads (s.rset ready) (s.nready ready)

/-- All descriptors given to the macros in a round lie in the set. -/
def InSet (r : Round) : Prop := ∀ call ∈ s.calls reads r, call.fd < FD_SETSIZE

end Optimised
end

namespace Optimised

/-- The server at the first `select`, in a process that was started with some
descriptors open. -/
def start (inherited : ℕ → Bool) (listenfd : ℕ) : Optimised :=
  { init listenfd with
    descriptor := fun fd => { opened := inherited fd || fd = listenfd, allset := fd = listenfd } }

/-- `accept`, when it is called and succeeds, returns the lowest descriptor not open. -/
def Legal (s : Optimised) (r : Round) : Prop :=
  ∀ ready ∈ r.select, s.rset ready s.listenfd = true →
    ∀ connfd ∈ r.accept, Lowest (fun fd => (s.descriptor fd).opened) connfd

instance (s : Optimised) (r : Round) : Decidable (s.Legal r) :=
  inferInstanceAs (Decidable (∀ ready ∈ r.select, _ → ∀ connfd ∈ r.accept, _))

/-- The descriptors below `FD_SETSIZE` that clients can get. -/
def available (inherited : ℕ → Bool) (listenfd : ℕ) : List ℕ :=
  (List.range FD_SETSIZE).filter fun fd => !inherited fd && fd != listenfd

/-- A client that connects finds fewer others there than descriptors are available. -/
def HasRoom (inherited : ℕ → Bool) (s : Optimised) (r : Round) : Prop :=
  ∀ ready ∈ r.select, s.rset ready s.listenfd = true → r.accept ≠ none →
    (held s.client).length < (available inherited s.listenfd).length

instance (inherited : ℕ → Bool) (s : Optimised) (r : Round) :
    Decidable (s.HasRoom inherited r) :=
  inferInstanceAs (Decidable (∀ ready ∈ r.select, _ → _ → _))

end Optimised

variable {reads : ℕ → ℕ → ReadResult} {inherited : ℕ → Bool}

/-! ## What is open -/

/-- A descriptor is open because the process was started with it or because it is
watched. -/
def Descriptor.Owned (inherited : ℕ → Bool) (fd : ℕ) (d : Descriptor) : Prop :=
  (d.opened = true ↔ inherited fd = true ∨ d.allset = true) ∧
    (d.allset = true → inherited fd = false)

theorem Descriptor.Owned.serve {fd : ℕ} {d : Descriptor} (h : d.Owned inherited fd)
    (hset : d.allset = true) : (serve reads fd d).Owned inherited fd := by
  have hown := h.2 hset
  have hopened := h.1.mpr (.inr hset)
  rw [Owned, serve_opened, serve_allset, hset, hopened, hown]
  simp

namespace Server

variable {s t : Server} {listenfd : ℕ}

/-- All open descriptors are accounted for. -/
structure Owns (inherited : ℕ → Bool) (listenfd : ℕ) (s : Server) : Prop where
  listenfd_eq : s.listenfd = listenfd
  owned : ∀ fd, (s.descriptor fd).Owned inherited fd

theorem watch_eq {connfd : ℕ} (h : s.watch connfd = .ok t) :
    connfd < FD_SETSIZE ∧ t.listenfd = s.listenfd ∧
      t.descriptor = update s.descriptor connfd
        { s.descriptor connfd with opened := true, allset := true } := by
  unfold watch at h
  split at h
  next hlt =>
    cases h
    exact ⟨hlt, rfl, rfl⟩
  next => cases h

theorem Owns.watch (hs : s.Owns inherited listenfd) {connfd : ℕ}
    (hopen : (s.descriptor connfd).opened = false) (h : s.watch connfd = .ok t) :
    t.Owns inherited listenfd := by
  obtain ⟨-, hlisten, htable⟩ := watch_eq h
  constructor
  · rw [hlisten, hs.listenfd_eq]
  · intro fd
    rw [htable]
    rcases eq_or_ne fd connfd with rfl | hne
    · have hnot : inherited fd = false := by
        apply Bool.eq_false_iff.mpr
        intro hinherited
        have := (hs.owned fd).1.mpr (.inl hinherited)
        rw [hopen] at this
        cases this
      simp [Descriptor.Owned, hnot]
    · rw [update_of_ne hne]
      exact hs.owned fd

theorem Owns.serveAll (hs : s.Owns inherited listenfd) {rset : ℕ → Bool}
    (hrset : ∀ fd, rset fd = true → (s.descriptor fd).allset = true) :
    (s.serveAll reads rset).Owns inherited listenfd := by
  constructor
  · exact hs.listenfd_eq
  · intro fd
    rw [serveAll_descriptor, Keyed.touchAll_apply _ ((List.nodup_range' ..).filter _)]
    split_ifs with hmem
    · exact (hs.owned fd).serve (hrset fd (List.mem_filter.mp hmem).2)
    · exact hs.owned fd

theorem allset_of_rset {ready : ℕ → Bool} {fd : ℕ} (h : s.rset ready fd = true) :
    (s.descriptor fd).allset = true := by
  simp only [rset, Bool.and_eq_true] at h
  exact h.1.2

/-- What a round of the first server does, unless it stops. -/
inductive Stepped (reads : ℕ → ℕ → ReadResult) (s : Server) (r : Round) : Server → Prop
  | served (ready : ℕ → Bool) (selected : r.select = some ready)
      (quiet : s.rset ready s.listenfd = false) :
      Stepped reads s r (s.serveAll reads (s.rset ready))
  | connected (ready : ℕ → Bool) (selected : r.select = some ready)
      (listening : s.rset ready s.listenfd = true) (connfd : ℕ) (accepted : r.accept = some connfd)
      (t t' : Server) (watched : s.watch connfd = .ok t)
      (rest : t' = t ∨ t' = t.serveAll reads (s.rset ready)) :
      Stepped reads s r t'

theorem step_stepped {r : Round} (h : s.step reads r = .ok t) : Stepped reads s r t := by
  unfold step at h
  cases hselect : r.select with
  | none => simp [hselect] at h
  | some ready =>
    cases hlisten : s.rset ready s.listenfd with
    | false =>
      simp only [hselect, hlisten, Bool.false_eq_true, if_false, Except.ok.injEq] at h
      cases h
      exact .served ready hselect hlisten
    | true =>
      cases haccept : r.accept with
      | none => simp [hselect, hlisten, haccept] at h
      | some connfd =>
        cases hwatch : s.watch connfd with
        | error e => simp [hselect, hlisten, haccept, hwatch] at h
        | ok u =>
          simp only [hselect, hlisten, haccept, hwatch, if_true] at h
          split_ifs at h
          · cases h
            exact .connected ready hselect hlisten connfd haccept _ _ hwatch (.inl rfl)
          · cases h
            exact .connected ready hselect hlisten connfd haccept _ _ hwatch (.inr rfl)

theorem Owns.step (hs : s.Owns inherited listenfd) {r : Round}
    (hopen : ∀ ready ∈ r.select, s.rset ready s.listenfd = true →
      ∀ connfd ∈ r.accept, (s.descriptor connfd).opened = false)
    (h : Stepped reads s r t) : t.Owns inherited listenfd := by
  cases h with
  | served ready selected quiet => exact hs.serveAll fun fd => allset_of_rset
  | connected ready selected listening connfd accepted u t watched rest =>
    have hu := hs.watch (hopen ready selected listening connfd accepted) watched
    rcases rest with rfl | rfl
    · exact hu
    · apply hu.serveAll
      intro fd hfd
      rw [(watch_eq watched).2.2]
      rcases eq_or_ne fd connfd with rfl | hne
      · simp
      · rw [update_of_ne hne]
        exact allset_of_rset hfd

end Server

/-! ## What is given to the macros -/

def allset (t : ℕ → Descriptor) (fd : ℕ) : Bool := (t fd).allset

theorem allset_update (t : ℕ → Descriptor) (fd : ℕ) (d : Descriptor) :
    allset (update t fd d) = update (allset t) fd d.allset := by
  funext i
  rcases eq_or_ne i fd with rfl | hne
  · simp [allset]
  · simp [allset, hne]

theorem allset_serve (t : ℕ → Descriptor) (fd : ℕ) :
    allset (update t fd (serve reads fd (t fd))) =
      (serveCalls reads fd (t fd)).foldl SetCall.apply (allset t) := by
  rw [allset_update, serve_allset, serveCalls]
  cases closes reads fd (t fd)
  · simp only [Bool.not_false, Bool.and_true, Bool.false_eq_true, if_false, List.foldl_cons,
      List.foldl_nil, SetCall.apply]
    exact update_eq_self fd (allset t)
  · simp [SetCall.apply]

theorem allset_serveSlots (rset : ℕ → Bool) (slots : List (Option ℕ)) (nready : ℤ)
    (t : ℕ → Descriptor) : allset (serveSlots reads rset slots nready t).2.1 =
      (slotCalls reads rset slots nready t).foldl SetCall.apply (allset t) := by
  induction slots generalizing nready t with
  | nil => rfl
  | cons slot slots ih =>
    cases slot with
    | none => exact ih nready t
    | some fd =>
      simp only [serveSlots, slotCalls]
      split_ifs
      · exact allset_serve t fd
      · rw [List.foldl_append, ← allset_serve]
        exact ih _ _
      · exact ih nready t

theorem fd_of_mem_serveCalls {fd : ℕ} {d : Descriptor} {call : SetCall}
    (h : call ∈ serveCalls reads fd d) : call.fd = fd := by
  rcases List.mem_cons.mp h with rfl | h
  · rfl
  · split_ifs at h
    · rw [List.mem_singleton.mp h]
      rfl
    · cases h

theorem fd_mem_of_mem_slotCalls {rset : ℕ → Bool} {slots : List (Option ℕ)} {nready : ℤ}
    {t : ℕ → Descriptor} {call : SetCall} (h : call ∈ slotCalls reads rset slots nready t) :
    call.fd ∈ held slots := by
  induction slots generalizing nready t with
  | nil => simp [slotCalls] at h
  | cons slot slots ih =>
    cases slot with
    | none => exact ih h
    | some fd =>
      rw [held_cons_some, List.mem_cons]
      simp only [slotCalls] at h
      split_ifs at h
      · exact .inl (fd_of_mem_serveCalls h)
      · exact (List.mem_append.mp h).imp fd_of_mem_serveCalls ih
      · rcases List.mem_cons.mp h with rfl | h
        · exact .inl rfl
        · exact .inr (ih h)

namespace Optimised

variable {s t : Optimised} {listenfd : ℕ}

theorem place_watch {connfd : ℕ} (h : s.place connfd = .ok t) :
    ∃ u, s.watch connfd = .ok u ∧ t.toServer = u := by
  unfold place at h
  cases hwatch : s.watch connfd with
  | error e => simp [hwatch] at h
  | ok u =>
    simp only [hwatch] at h
    split_ifs at h <;> cases h <;> exact ⟨u, rfl, rfl⟩

/-- The listed macros are those of the round: what it makes of `allset` is what they make of
it. -/
theorem allset_step {r : Round} (h : s.step reads r = .ok t) :
    allset t.descriptor = (s.calls reads r).foldl SetCall.apply (allset s.descriptor) := by
  unfold step at h
  unfold calls
  cases hselect : r.select with
  | none => simp [hselect] at h
  | some ready =>
    simp only [hselect, List.foldl_cons, SetCall.apply] at h ⊢
    cases hlisten : s.rset ready s.listenfd with
    | false =>
      simp only [hlisten, Bool.false_eq_true, if_false, Except.ok.injEq] at h ⊢
      rw [← h]
      exact allset_serveSlots ..
    | true =>
      cases haccept : r.accept with
      | none => simp [hlisten, haccept] at h
      | some connfd =>
        cases hplace : s.place connfd with
        | error e => simp [hlisten, haccept, hplace] at h
        | ok u =>
          have hset : allset u.descriptor = update (allset s.descriptor) connfd true := by
            obtain ⟨v, hwatch, hv⟩ := place_watch hplace
            rw [hv, (Server.watch_eq hwatch).2.2, allset_update]
          simp only [hlisten, haccept, hplace, if_true, List.foldl_cons, SetCall.apply] at h ⊢
          rw [← hset]
          split_ifs at h ⊢
          · cases h
            rfl
          · cases h
            exact allset_serveSlots ..

theorem Inv.serveAllCalls_lt (h : s.Inv) {rset : ℕ → Bool} {nready : ℤ} {call : SetCall}
    (hcall : call ∈ s.serveAllCalls reads rset nready) : call.fd < FD_SETSIZE := by
  have hmem := fd_mem_of_mem_slotCalls hcall
  rw [held_take h.unused] at hmem
  exact (h.range _ hmem).2

theorem start_inv (inherited : ℕ → Bool) (listenfd : ℕ) : (start inherited listenfd).Inv :=
  { inv_init listenfd with
    watched := by
      intro fd hfd
      obtain rfl : fd = listenfd := by simpa [start] using hfd
      simp [start, init, Server.init] }

theorem start_owns (h : inherited listenfd = false) :
    (start inherited listenfd).toServer.Owns inherited listenfd where
  listenfd_eq := rfl
  owned := by
    intro fd
    constructor
    · simp [start]
    · intro hfd
      obtain rfl : fd = listenfd := by simpa [start] using hfd
      exact h

section
variable (hs : s.Inv) (ho : s.toServer.Owns inherited listenfd)
include hs ho

theorem mem_available_iff (fd : ℕ) :
    fd ∈ available inherited s.listenfd ↔
      fd ∈ held s.client ∨ fd < FD_SETSIZE ∧ (s.descriptor fd).opened = false := by
  have hown := ho.owned fd
  have hnot : (s.descriptor fd).opened = false ↔
      inherited fd = false ∧ (s.descriptor fd).allset = false := by
    rw [← Bool.not_eq_true, hown.1, not_or, Bool.not_eq_true, Bool.not_eq_true]
  rw [available, List.mem_filter, List.mem_range, hnot, hs.clients]
  simp only [Bool.and_eq_true, Bool.not_eq_true', bne_iff_ne]
  constructor
  · rintro ⟨hlt, hinherited, hne⟩
    cases hset : (s.descriptor fd).allset with
    | false => exact .inr ⟨hlt, hinherited, rfl⟩
    | true => exact .inl ⟨rfl, hne⟩
  · rintro (⟨hset, hne⟩ | ⟨hlt, hinherited, hset⟩)
    · exact ⟨(hs.range fd ((hs.clients fd).mpr ⟨hset, hne⟩)).2, hown.2 hset, hne⟩
    · refine ⟨hlt, hinherited, ?_⟩
      rintro rfl
      rw [hs.listening] at hset
      cases hset

theorem lowest_lt_iff {connfd : ℕ}
    (hlow : Lowest (fun fd => (s.descriptor fd).opened) connfd) :
    connfd < FD_SETSIZE ↔
      (held s.client).length < (available inherited s.listenfd).length := by
  have hfree : (available inherited s.listenfd).Nodup := List.nodup_range.filter _
  apply Lowest.lt_iff (n := FD_SETSIZE) hlow hs.nodup hfree
  · intro fd hfd
    exact (hs.watched fd ((hs.clients fd).mp hfd).1).1
  · exact mem_available_iff hs ho

theorem listenfd_lt_of_lowest (hlisten : Lowest inherited listenfd) {connfd : ℕ}
    (hlow : Lowest (fun fd => (s.descriptor fd).opened) connfd) : s.listenfd < connfd := by
  by_contra hle
  have hclosed : (s.descriptor connfd).opened = false := hlow.1
  have hopen : (s.descriptor connfd).opened = true := by
    apply (ho.owned connfd).1.mpr
    rcases eq_or_ne connfd s.listenfd with rfl | hne
    · exact .inr hs.listening
    · apply Or.inl (hlisten.2 connfd _)
      have := ho.listenfd_eq
      omega
  rw [hclosed] at hopen
  cases hopen

theorem inSet_iff_hasRoom (hlisten : Lowest inherited listenfd) (hlt : listenfd < FD_SETSIZE)
    {r : Round} (hlegal : s.Legal r) : s.InSet reads r ↔ s.HasRoom inherited r := by
  have hfirst : (SetCall.isSet s.listenfd).fd < FD_SETSIZE := by
    rw [← ho.listenfd_eq] at hlt
    exact hlt
  obtain ⟨select, accept⟩ := r
  cases select with
  | none => exact iff_of_true (by simp [InSet, calls]) (by simp [HasRoom])
  | some ready =>
    cases hset : s.rset ready s.listenfd with
    | false =>
      apply iff_of_true
      · simp only [InSet, calls, hset, Bool.false_eq_true, if_false, List.forall_mem_cons]
        exact ⟨hfirst, fun call => hs.serveAllCalls_lt⟩
      · simp [HasRoom, hset]
    | true =>
      cases accept with
      | none => exact iff_of_true (by simpa [InSet, calls, hset] using hfirst) (by simp [HasRoom])
      | some connfd =>
        have hlow := hlegal ready rfl hset connfd rfl
        have hroom : s.HasRoom inherited ⟨some ready, some connfd⟩ ↔ connfd < FD_SETSIZE := by
          simp [HasRoom, hset, lowest_lt_iff hs ho hlow]
        rw [hroom]
        simp only [InSet, calls, hset, if_true, List.forall_mem_cons]
        constructor
        · intro h
          exact h.2.1
        · intro hconn
          obtain ⟨t, hplace, -, ht⟩ := hs.place hlow.1 hconn
          have hinv := ht.inv hs hlow.1 (listenfd_lt_of_lowest hs ho hlisten hlow) hconn
          refine ⟨hfirst, hconn, ?_⟩
          rw [hplace]
          split_ifs
          · simp
          · intro call
            exact hinv.serveAllCalls_lt

theorem step_of_hasRoom (hlisten : Lowest inherited listenfd) {r : Round} (hlegal : s.Legal r)
    (hroom : s.HasRoom inherited r) (h : s.step reads r = .ok t) :
    t.Inv ∧ t.toServer.Owns inherited listenfd := by
  have hr : s.legal r := by
    obtain ⟨select, accept⟩ := r
    cases select with
    | none => simp [Optimised.step] at h
    | some ready =>
      cases accept with
      | none =>
        apply Bool.eq_false_iff.mpr
        intro hset
        simp [Optimised.step, hset] at h
      | some connfd =>
        intro hset
        have hlow := hlegal ready rfl hset connfd rfl
        exact ⟨hlow.1, listenfd_lt_of_lowest hs ho hlisten hlow,
          (lowest_lt_iff hs ho hlow).mpr (hroom ready rfl hset (by simp))⟩
  obtain ⟨t', ready, -, hstep, hfollows⟩ := hs.step reads hr
  cases h.symm.trans hstep
  refine ⟨hfollows.inv, ho.step ?_ (Server.step_stepped hfollows.server)⟩
  intro ready' hselect hset connfd haccept
  exact (hlegal ready' hselect hset connfd haccept).1

end

/-- Every descriptor that the server gives to `FD_SET`, `FD_ISSET` and `FD_CLR` lies in
the set, from the first `FD_SET` of the listening one on, exactly when that one does and
every client that connects finds fewer others there than descriptors below `FD_SETSIZE`
were free when the program was started, without the listening one. -/
theorem inSet_iff (reads : ℕ → ℕ → ReadResult) (inherited : ℕ → Bool) (listenfd : ℕ)
    (rounds : List Round) (hlisten : Lowest inherited listenfd)
    (h : Runs.Admissible (Optimised.step reads) Legal (start inherited listenfd) rounds) :
    ((SetCall.set listenfd).fd < FD_SETSIZE ∧
      Runs.Admissible (Optimised.step reads) (InSet reads) (start inherited listenfd) rounds) ↔
    (listenfd < FD_SETSIZE ∧
      Runs.Admissible (Optimised.step reads) (HasRoom inherited) (start inherited listenfd)
        rounds) := by
  apply and_congr_right
  intro hlt
  apply Runs.admissible_congr (fun s => s.Inv ∧ s.toServer.Owns inherited listenfd) _ _
    ⟨start_inv inherited listenfd, start_owns hlisten.1⟩ h
  · rintro s r ⟨hs, ho⟩ hlegal
    exact inSet_iff_hasRoom hs ho hlisten hlt hlegal
  · rintro s r t ⟨hs, ho⟩ hlegal hroom hstep
    exact step_of_hasRoom hs ho hlisten hlegal hroom hstep

/-- Two clients connect; the first one leaves, and its descriptor is used again. -/
theorem inSet_iff_two_clients :
    Runs.Admissible (Optimised.step fun _ _ => some []) (InSet fun _ _ => some [])
      (start (fun fd => fd ≤ 2) 3) [⟨some fun fd => fd = 3, some 4⟩,
        ⟨some fun fd => fd = 3, some 5⟩, ⟨some fun fd => fd = 4, none⟩,
        ⟨some fun fd => fd = 3, some 4⟩] :=
  ((inSet_iff _ _ 3 _ (by decide) (by decide +kernel)).mpr
    ⟨by decide, by decide +kernel⟩).2

/-! ## The clients run out of the set -/

/-- The client with the number `n` connects, and nobody else is ready. -/
def connect (n : ℕ) : Round := ⟨some fun fd => fd = 3, some (4 + n)⟩

/-- The clients with the numbers below `n` are there. -/
structure Filled (n : ℕ) (s : Optimised) : Prop where
  inv : s.Inv
  owns : s.toServer.Owns (fun fd => fd ≤ 2) 3
  opened : ∀ fd, (s.descriptor fd).opened = true ↔ fd < 4 + n

theorem start_filled : Filled 0 (start (fun fd => fd ≤ 2) 3) where
  inv := start_inv _ 3
  owns := start_owns rfl
  opened := by
    intro fd
    simp only [start, Bool.or_eq_true, decide_eq_true_eq]
    omega

namespace Filled

variable {n : ℕ} (h : Filled n s)
include h

theorem lowest : Lowest (fun fd => (s.descriptor fd).opened) (4 + n) := by
  constructor
  · apply Bool.eq_false_iff.mpr
    rw [Ne, h.opened]
    exact lt_irrefl _
  · intro fd
    exact (h.opened fd).mpr

theorem listening : s.rset (fun fd => fd = 3) s.listenfd = true := by
  have hset := h.inv.listening
  have hmax := (h.inv.watched _ hset).2
  rw [h.owns.listenfd_eq] at hset hmax ⊢
  simp [Server.rset, hmax, hset]

theorem opened_of_stepped {t : Server} (hstep : Server.Stepped reads s.toServer (connect n) t)
    (fd : ℕ) : (t.descriptor fd).opened = true ↔ fd < 4 + (n + 1) := by
  have hupdate : (update s.descriptor (4 + n)
      { s.descriptor (4 + n) with opened := true, allset := true } fd).opened = true ↔
        fd < 4 + (n + 1) := by
    rcases eq_or_ne fd (4 + n) with rfl | hne
    · simp
    · rw [update_of_ne hne, h.opened]
      omega
  cases hstep with
  | served ready selected quiet =>
    cases selected
    rw [h.listening] at quiet
    cases quiet
  | connected ready selected listening connfd accepted u t watched rest =>
    cases selected
    cases accepted
    rw [← hupdate, ← (Server.watch_eq watched).2.2]
    rcases rest with rfl | rfl
    · exact Iff.rfl
    · -- only the listening descriptor is ready, which the scan leaves out
      have hnone : fd ∉ (List.range' (u.listenfd + 1) (u.maxfd - u.listenfd)).filter
          (s.rset fun fd => fd = 3) := by
        intro hmem
        obtain ⟨hrange, hready⟩ := List.mem_filter.mp hmem
        rw [List.mem_range'_1, (Server.watch_eq watched).2.1, h.owns.listenfd_eq] at hrange
        simp only [Server.rset, Bool.and_eq_true, decide_eq_true_eq] at hready
        omega
      rw [Server.serveAll_descriptor,
        Keyed.touchAll_apply _ ((List.nodup_range' ..).filter _), if_neg hnone]

theorem step (reads : ℕ → ℕ → ReadResult) (hn : 4 + n < FD_SETSIZE) :
    ∃ t, s.step reads (connect n) = .ok t ∧ Filled (n + 1) t := by
  have hlow := h.lowest
  have hrange : s.listenfd < 4 + n := by
    rw [h.owns.listenfd_eq]
    omega
  obtain ⟨t, ready, -, hstep, hfollows⟩ := h.inv.step reads
    (show s.legal (connect n) from fun _ => ⟨hlow.1, hrange, hn⟩)
  have hstepped := Server.step_stepped hfollows.server
  refine ⟨t, hstep, hfollows.inv, h.owns.step ?_ hstepped, h.opened_of_stepped hstepped⟩
  intro ready _ _ connfd haccept
  cases haccept
  exact hlow.1

theorem legal : s.Legal (connect n) := by
  intro ready _ _ connfd haccept
  cases haccept
  exact h.lowest

end Filled

theorem Filled.admissible {n : ℕ} (h : Filled n s) (k : ℕ) (hk : n + k ≤ 1021) :
    Runs.Admissible (Optimised.step reads) Legal s ((List.range' n k).map connect) := by
  induction k generalizing n s with
  | zero => trivial
  | succ k ih =>
    refine ⟨h.legal, ?_⟩
    rcases Nat.lt_or_ge n 1020 with hn | hn
    · obtain ⟨t, hstep, ht⟩ := h.step reads (show 4 + n < 1024 by omega)
      rw [hstep]
      exact ih ht (by omega)
    · obtain rfl : k = 0 := by omega
      split <;> trivial

theorem Filled.not_inSet {n : ℕ} (h : Filled n s) (k : ℕ) (hk : n + k = 1020) :
    ¬ Runs.Admissible (Optimised.step reads) (InSet reads) s
      ((List.range' n (k + 1)).map connect) := by
  induction k generalizing n s with
  | zero =>
    rintro ⟨hin, -⟩
    have hcall : SetCall.set (4 + n) ∈ s.calls reads (connect n) := by
      simp [calls, connect, h.listening]
    have hlt : 4 + n < 1024 := hin _ hcall
    omega
  | succ k ih =>
    obtain ⟨t, hstep, ht⟩ := h.step reads (show 4 + n < 1024 by omega)
    intro hin
    exact ih ht (by omega) (hin.tail hstep)

/-- When 1020 clients are there, the next one is given to `FD_SET` as 1024. -/
theorem next_client_outside_set :
    ¬ ∀ (reads : ℕ → ℕ → ReadResult) (inherited : ℕ → Bool) (listenfd : ℕ) (rounds : List Round),
      Lowest inherited listenfd →
      Runs.Admissible (Optimised.step reads) Legal (start inherited listenfd) rounds →
      Runs.Admissible (Optimised.step reads) (InSet reads) (start inherited listenfd) rounds := by
  intro h
  apply start_filled.not_inSet 1020 rfl
  exact h (fun _ _ => none) (fun fd => fd ≤ 2) 3 _ (by decide) (start_filled.admissible 1021 le_rfl)

end Optimised
end NetworkPrograms.Select
