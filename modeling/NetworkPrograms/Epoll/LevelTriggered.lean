import NetworkPrograms.Foundations.Runs
import NetworkPrograms.Kernel.Calls

/-!
# The level-triggered server

The server of `epoll.c`. `epoll_wait` fills `ep` with registered descriptors, and the
loop over `ep` either accepts a connection and registers it or reads from a client once.
A client that resets its connection or ends its stream is taken off the interest list.

The program has no `close` for a client. What is open is therefore what has been
accepted, and it agrees with the interest list only as long as no client has left.
-/
namespace NetworkPrograms.Epoll.LevelTriggered

open Function
open Kernel (ReadResult toupper)

inductive Exit where
  | epoll
  | accept
  | read
  deriving DecidableEq

/-- The descriptors that are open and those on the interest list, and what has been
written to which descriptor. -/
structure Server where
  opened : ℕ → Bool
  interest : ℕ → Bool
  written : List (ℕ × Bytes)

/-- An entry of `ep` with the answers to the calls that are made for it: what `accept`
returns, whether `epoll_ctl` adds the new descriptor, and what `read` gives. -/
structure Event where
  fd : ℕ
  accept : Option ℕ := none
  add : Bool := true
  read : ReadResult := .error

abbrev Round := Option (List Event)

def init (lfd : ℕ) : Server where
  opened := fun fd => fd == lfd
  interest := fun fd => fd == lfd
  written := []

variable (lfd : ℕ)

namespace Server

/-- The body of the loop over `ep`. -/
def handle (s : Server) (e : Event) : Except Exit Server :=
  if e.fd = lfd then
    match e.accept with
    | none => .error .accept
    | some cfd => .ok { s with
        opened := update s.opened cfd true
        interest := if e.add then update s.interest cfd true else s.interest }
  else
    match e.read with
    | .error => .error .read
    | .reset | .got [] => .ok { s with interest := update s.interest e.fd false }
    | .got buf => .ok { s with
        written := s.written ++ [(1, buf), (e.fd, buf.map toupper)] }

def round (s : Server) : Round → Except Exit Server
  | none => .error .epoll
  | some ep => Runs.run (handle lfd) s ep

def Fresh (s : Server) (e : Event) : Prop := ∀ cfd ∈ e.accept, s.opened cfd = false

instance (s : Server) (e : Event) : Decidable (s.Fresh e) :=
  inferInstanceAs (Decidable (∀ cfd ∈ e.accept, _))

/-- `epoll_wait` reports descriptors of the interest list. -/
def Legal (s : Server) (r : Round) : Prop :=
  ∀ ep ∈ r, (∀ e ∈ ep, s.interest e.fd = true) ∧ Runs.Admissible (handle lfd) Fresh s ep

instance (s : Server) (r : Round) : Decidable (s.Legal lfd r) :=
  inferInstanceAs (Decidable (∀ ep ∈ r, (∀ e ∈ ep, _) ∧ _))

/-- The clients that have been accepted and not been closed are those on the interest
list. -/
def Accounted (s : Server) : Prop :=
  ∀ fd, fd ≠ lfd → (s.opened fd = true ↔ s.interest fd = true)

end Server

/-- A new connection is registered, or a client that stays is read. -/
def Event.Keeps (e : Event) : Prop :=
  if e.fd = lfd then e.add = true else e.read ≠ .reset ∧ e.read ≠ .got []

instance (e : Event) : Decidable (e.Keeps lfd) :=
  inferInstanceAs (Decidable (ite _ _ _))

/-- The program ends with the answer to `accept` or to `read`. -/
def Event.Ends (e : Event) : Prop := if e.fd = lfd then e.accept = none else e.read = .error

instance (e : Event) : Decidable (e.Ends lfd) :=
  inferInstanceAs (Decidable (ite _ _ _))

/-- A round keeps every client, unless `epoll_wait`, `accept` or `read` fails in it. -/
def Round.Keeps (r : Round) : Prop :=
  ∀ ep ∈ r, (∃ e ∈ ep, e.Ends lfd) ∨ ∀ e ∈ ep, e.Keeps lfd

instance (r : Round) : Decidable (r.Keeps lfd) :=
  inferInstanceAs (Decidable (∀ ep ∈ r, _ ∨ _))

variable {lfd}

/-- What is registered is open, and the listening socket is registered. -/
structure Server.Inv (lfd : ℕ) (s : Server) : Prop where
  listening : s.interest lfd = true
  opened : ∀ fd, s.interest fd = true → s.opened fd = true

def Server.Registered (s : Server) : Prop := ∀ fd, s.opened fd = true → s.interest fd = true

inductive Server.Handled (lfd : ℕ) (s : Server) (e : Event) : Server → Prop
  | registered (listening : e.fd = lfd) (cfd : ℕ) (accepted : e.accept = some cfd)
      (add : e.add = true) :
      Handled lfd s e
        { s with opened := update s.opened cfd true, interest := update s.interest cfd true }
  | unregistered (listening : e.fd = lfd) (cfd : ℕ) (accepted : e.accept = some cfd)
      (add : e.add = false) :
      Handled lfd s e { s with opened := update s.opened cfd true }
  | left (client : e.fd ≠ lfd) (ended : e.read = .reset ∨ e.read = .got []) :
      Handled lfd s e { s with interest := update s.interest e.fd false }
  | served (client : e.fd ≠ lfd) (buf : Bytes) (nonempty : buf ≠ []) (got : e.read = .got buf) :
      Handled lfd s e
        { s with written := s.written ++ [(1, buf), (e.fd, buf.map toupper)] }

section

variable {s t : Server} {e : Event}

theorem handle_eq_error_iff : (∃ exit, s.handle lfd e = .error exit) ↔ e.Ends lfd := by
  rw [Server.handle, Event.Ends]
  by_cases hlistening : e.fd = lfd
  · rw [if_pos hlistening, if_pos hlistening]
    cases e.accept <;> simp
  · rw [if_neg hlistening, if_neg hlistening]
    split <;> simp_all

theorem handle_handled (h : s.handle lfd e = .ok t) : s.Handled lfd e t := by
  unfold Server.handle at h
  split at h
  next listening =>
    cases ha : e.accept with
    | none => simp [ha] at h
    | some cfd =>
      rw [ha] at h
      cases h
      cases hadd : e.add with
      | true => exact .registered listening cfd ha hadd
      | false => exact .unregistered listening cfd ha hadd
  next client =>
    split at h
    next => cases h
    next hread =>
      cases h
      exact .left client (.inl hread)
    next hread =>
      cases h
      exact .left client (.inr hread)
    next buf hne hread =>
      cases h
      exact .served client buf hne hread

namespace Server.Handled

theorem opened_mono (h : s.Handled lfd e t) (fd : ℕ) (hopen : s.opened fd = true) :
    t.opened fd = true := by
  have hupdate : ∀ cfd, update s.opened cfd true fd = true := by
    intro cfd
    rw [update_apply, hopen, ite_self]
  cases h with
  | registered listening cfd => exact hupdate cfd
  | unregistered listening cfd => exact hupdate cfd
  | left => exact hopen
  | served => exact hopen

theorem inv (h : s.Handled lfd e t) (hs : s.Inv lfd) : t.Inv lfd := by
  cases h with
  | registered listening cfd =>
    constructor
    · simp only [update_apply, hs.listening, ite_self]
    · intro fd hfd
      rcases eq_or_ne fd cfd with rfl | hne
      · exact update_self _ _ _
      · simp only [update_of_ne hne] at hfd ⊢
        exact hs.opened fd hfd
  | unregistered listening cfd accepted add =>
    constructor
    · exact hs.listening
    · intro fd hfd
      exact (Handled.unregistered listening cfd accepted add).opened_mono fd (hs.opened fd hfd)
  | left client =>
    constructor
    · simp only [update_of_ne client.symm, hs.listening]
    · intro fd hfd
      rcases eq_or_ne fd e.fd with rfl | hne
      · simp at hfd
      · simp only [update_of_ne hne] at hfd
        exact hs.opened fd hfd
  | served => exact ⟨hs.listening, hs.opened⟩

/-- An event can only lose a descriptor. It loses one exactly when a client leaves or a
new one is not registered. -/
theorem registered_iff (h : s.Handled lfd e t) (hs : s.Inv lfd) (hfresh : s.Fresh e)
    (hopen : s.opened e.fd = true) : t.Registered ↔ s.Registered ∧ e.Keeps lfd := by
  cases h with
  | registered listening cfd accepted add =>
    have hcfd := hfresh cfd accepted
    have hkeeps : e.Keeps lfd := by simp [Event.Keeps, listening, add]
    constructor
    · intro ht
      refine ⟨?_, hkeeps⟩
      intro fd hfd
      have hne : fd ≠ cfd := by
        rintro rfl
        rw [hcfd] at hfd
        cases hfd
      simpa [hne] using ht fd (by simpa [hne] using hfd)
    · rintro ⟨hreg, -⟩ fd hfd
      rcases eq_or_ne fd cfd with rfl | hne
      · exact update_self _ _ _
      · simp only [update_of_ne hne] at hfd ⊢
        exact hreg fd hfd
  | unregistered listening cfd accepted add =>
    apply iff_of_false
    · intro ht
      have hreg := hs.opened cfd (ht cfd (update_self _ _ _))
      rw [hfresh cfd accepted] at hreg
      cases hreg
    · simp [Event.Keeps, listening, add]
  | left client ended =>
    apply iff_of_false
    · intro ht
      have hreg : update s.interest e.fd false e.fd = true := ht e.fd hopen
      rw [update_self] at hreg
      cases hreg
    · rintro ⟨-, hkeeps⟩
      rw [Event.Keeps, if_neg client] at hkeeps
      exact ended.elim hkeeps.1 hkeeps.2
  | served client buf nonempty got =>
    have hkeeps : e.Keeps lfd := by simp [Event.Keeps, client, got, nonempty]
    exact ⟨fun ht => ⟨ht, hkeeps⟩, fun hreg => hreg.1⟩

end Server.Handled

theorem run_handle_eq_error_iff {ep : List Event} :
    (∃ exit, Runs.run (Server.handle lfd) s ep = .error exit) ↔ ∃ e ∈ ep, e.Ends lfd := by
  induction ep generalizing s with
  | nil => simp [Runs.run]
  | cons e ep ih =>
    rw [List.exists_mem_cons_iff, ← handle_eq_error_iff (s := s)]
    cases hu : s.handle lfd e with
    | error exit => simp [Runs.run, hu]
    | ok u => simp [Runs.run_cons hu, ih]

theorem run_handle_registered_iff {ep : List Event} (hs : s.Inv lfd)
    (hfresh : Runs.Admissible (Server.handle lfd) Server.Fresh s ep)
    (hopen : ∀ e ∈ ep, s.opened e.fd = true) (h : Runs.run (Server.handle lfd) s ep = .ok t) :
    t.Inv lfd ∧ (t.Registered ↔ s.Registered ∧ ∀ e ∈ ep, e.Keeps lfd) := by
  induction ep generalizing s with
  | nil =>
    cases h
    exact ⟨hs, by simp⟩
  | cons e ep ih =>
    cases hu : s.handle lfd e with
    | error exit => simp [Runs.run, hu] at h
    | ok u =>
      rw [Runs.run_cons hu] at h
      have hstep := handle_handled hu
      have hrest : ∀ e' ∈ ep, u.opened e'.fd = true := by
        intro e' he'
        exact hstep.opened_mono e'.fd (hopen e' (List.mem_cons_of_mem e he'))
      obtain ⟨hinv, hiff⟩ := ih (hstep.inv hs) (hfresh.tail hu) hrest h
      refine ⟨hinv, ?_⟩
      rw [hiff, hstep.registered_iff hs hfresh.1 (hopen e List.mem_cons_self),
        List.forall_mem_cons, and_assoc]

theorem Server.Inv.accounted_iff_registered (hs : s.Inv lfd) :
    s.Accounted lfd ↔ s.Registered := by
  constructor
  · intro h fd hfd
    rcases eq_or_ne fd lfd with rfl | hne
    · exact hs.listening
    · exact (h fd hne).mp hfd
  · intro h fd _
    exact ⟨h fd, hs.opened fd⟩

theorem Server.Inv.round {r : Round} (hs : s.Inv lfd) (hlegal : s.Legal lfd r)
    (h : s.round lfd r = .ok t) :
    t.Inv lfd ∧ (t.Registered ↔ s.Registered ∧ r.Keeps lfd) := by
  cases r with
  | none => cases h
  | some ep =>
    obtain ⟨hreported, hfresh⟩ := hlegal ep rfl
    have hgoes : ¬ ∃ e ∈ ep, e.Ends lfd := by
      rw [← run_handle_eq_error_iff (s := s)]
      rintro ⟨exit, hexit⟩
      cases h.symm.trans hexit
    have hkeeps : Round.Keeps lfd (some ep) ↔ ∀ e ∈ ep, e.Keeps lfd := by
      simp only [Round.Keeps, Option.mem_some_iff, forall_eq', hgoes, false_or]
    rw [hkeeps]
    apply run_handle_registered_iff hs hfresh _ h
    intro e he
    exact hs.opened e.fd (hreported e he)

theorem inv_init (lfd : ℕ) : (init lfd).Inv lfd where
  listening := beq_self_eq_true lfd
  opened := fun _ h => h

end

/-- In every state at `epoll_wait` of a legal run the clients that have been accepted and
not closed are those on the interest list, exactly when no round in which every `accept` and
`read` has succeeded has met a reset, the end of a stream, or a connection that is not
registered. -/
theorem accounted_iff_keeps (lfd : ℕ) (rounds : List Round)
    (h : Runs.Admissible (Server.round lfd) (Server.Legal lfd) (init lfd) rounds) :
    (∀ pre t, pre <+: rounds → Runs.run (Server.round lfd) (init lfd) pre = .ok t →
      t.Accounted lfd) ↔
    Runs.Admissible (Server.round lfd) (fun _ r => r.Keeps lfd) (init lfd) rounds := by
  have hinit : (init lfd).Registered := fun _ hfd => hfd
  have hnext : ∀ (s : Server) r, s.Inv lfd ∧ s.Registered → s.Legal lfd r →
      ((∀ t, s.round lfd r = .ok t → t.Accounted lfd) ↔ r.Keeps lfd) := by
    rintro s r ⟨hs, hreg⟩ hlegal
    cases ht : s.round lfd r with
    | error exit =>
      refine iff_of_true (by simp) ?_
      rintro ep rfl
      exact .inl (run_handle_eq_error_iff.mp ⟨exit, ht⟩)
    | ok t =>
      obtain ⟨hinv, hiff⟩ := hs.round hlegal ht
      simp only [Except.ok.injEq, forall_eq']
      rw [hinv.accounted_iff_registered, hiff]
      exact and_iff_right hreg
  rw [Runs.forall_isPrefix_iff]
  rw [and_iff_right ((inv_init lfd).accounted_iff_registered.mpr hinit)]
  apply Runs.admissible_congr (fun s => s.Inv lfd ∧ s.Registered) hnext _ ⟨inv_init lfd, hinit⟩ h
  rintro s r t ⟨hs, hreg⟩ hlegal hkeeps ht
  obtain ⟨hinv, hiff⟩ := hs.round hlegal ht
  exact ⟨hinv, hiff.mpr ⟨hreg, hkeeps⟩⟩

/-- Two clients connect, and one of them sends. -/
theorem accounted_iff_keeps_two_clients :
    ∃ t, Runs.run (Server.round 3) (init 3) [some [{ fd := 3, accept := some 5 }],
        some [{ fd := 3, accept := some 6 }, { fd := 5, read := .got [104] }]] = .ok t ∧
      t.Accounted 3 := by
  have hall := (accounted_iff_keeps 3 [some [{ fd := 3, accept := some 5 }],
    some [{ fd := 3, accept := some 6 }, { fd := 5, read := .got [104] }]] (by decide)).mpr
    (by decide)
  exact ⟨_, rfl, hall _ _ List.prefix_rfl rfl⟩

/-- A client connects and ends its stream: its descriptor stays open. -/
theorem ended_client_stays_open :
    ¬ ∀ (lfd : ℕ) (rounds : List Round) (t : Server),
      Runs.Admissible (Server.round lfd) (Server.Legal lfd) (init lfd) rounds →
      Runs.run (Server.round lfd) (init lfd) rounds = .ok t → t.Accounted lfd := by
  intro h
  have hacc := h 3 [some [{ fd := 3, accept := some 5 }], some [{ fd := 5, read := .got [] }]] _
    (by decide) rfl
  exact absurd ((hacc 5 (by decide)).mp (by decide)) (by decide)

end NetworkPrograms.Epoll.LevelTriggered
