import NetworkPrograms.Framing.Socket

/-!
# The two loops that write a buffer

`writen` of `socket.c` and `Writen` of `HEAD.h` call the kernel until nothing is left.
The first one tries again when nothing was taken and gives up on every error. The second
one tries again when it was interrupted and gives up when nothing was taken. `write` on a
connection is `send` without flags.
-/
namespace NetworkPrograms.Head

open Transport Framing

/-- The body of `Writen`. Its locals are those of `writen` under other names: `ptr` points
at the rest of the buffer, and `nleft` counts it. -/
def writenPass (σ : Schedule) (n : ℤ) (s : WritenState) : Loop.Pass WritenState (ℤ × Outgoing) :=
  let ptr := s.buf
  let nleft := s.count
  if nleft > 0 then
    let r := send σ s.out ptr nleft
    let nwritten := r.1
    if nwritten ≤ 0 then
      if nwritten < 0 ∧ σ.errno s.out.calls = some .EINTR then
        let nwritten := 0
        .again ⟨ptr.drop nwritten, nleft - nwritten, r.2⟩
      else .leave (-1, r.2)
    else .again ⟨ptr.drop nwritten.toNat, nleft - nwritten, r.2⟩
  else .leave (n, s.out)

def writen (σ : Schedule) (fuel : ℕ) (out : Outgoing) (vptr : Bytes) (n : ℤ) :
    Option (ℤ × Outgoing) :=
  Loop.run (writenPass σ n) fuel ⟨vptr, n, out⟩

theorem writenPass_writes (σ : Schedule) (n : ℤ) (s : WritenState) :
    Writes σ (.fail .EINTR) n s (writenPass σ n s) := by
  by_cases hpos : 0 < s.count
  · cases hσ : σ s.out.calls with
    | fail e =>
      by_cases hintr : e = .EINTR
      · subst hintr
        have he : writenPass σ n s =
            .again { s with out := { s.out with calls := s.out.calls + 1 } } := by
          simp [writenPass, send, Schedule.errno, hpos, hσ]
        rw [he]
        exact .retried hσ
      · have he : writenPass σ n s = .leave (-1, { s.out with calls := s.out.calls + 1 }) := by
          simp [writenPass, send, Schedule.errno, hpos, hσ, hintr]
        rw [he]
        exact .failed hpos ⟨by simp [hσ, hintr], by simp [hσ]⟩
    | upTo m =>
      have hsend := send_upTo hσ s.buf s.count
      by_cases hzero : m = 0
      · have he : writenPass σ n s = .leave (-1, { s.out with calls := s.out.calls + 1 }) := by
          simp [writenPass, hsend, hpos, hzero]
        rw [he]
        refine .failed hpos ⟨by simp [hσ], ?_⟩
        intro k hk
        rw [hσ, hzero]
        intro h
        cases h
        exact lt_irrefl 0 hk
      · have hlen : ¬ ((min m s.count.toNat : ℕ) : ℤ) ≤ 0 := by omega
        simp only [writenPass, hsend]
        rw [if_pos hpos, if_neg hlen, Int.toNat_natCast]
        exact .sent _ (by omega) (by omega)
  · have he : writenPass σ n s = .leave (n, s.out) := by simp [writenPass, hpos]
    rw [he]
    exact .finished (by omega)

theorem writenPass_eq {σ : Schedule} (hσ : ∀ i, ∃ m, 0 < m ∧ σ i = .upTo m) (n : ℤ) :
    Framing.writenPass σ n = writenPass σ n := by
  funext s
  by_cases hpos : 0 < s.count
  · obtain ⟨m, hm, hanswer⟩ := hσ s.out.calls
    have hsend := send_upTo hanswer s.buf s.count
    have hneg : ¬ ((min m s.count.toNat : ℕ) : ℤ) = -1 := by omega
    have hne : ¬ ((min m s.count.toNat : ℕ) : ℤ) = 0 := by omega
    have hle : ¬ ((min m s.count.toNat : ℕ) : ℤ) ≤ 0 := by omega
    simp only [Framing.writenPass, writenPass, hsend]
    rw [if_pos hpos, if_pos hpos, if_neg hneg, if_neg hne, if_neg hle]
  · simp [Framing.writenPass, writenPass, hpos]

/-- Both loops write a buffer exactly. Each returns on every schedule that does not make
it try again for ever: `writen` after empty results, `Writen` after interrupts, whatever
other errors there are. When it returns the size, the bytes put on the connection are the
buffer; when it returns -1, they are a proper part of it. On schedules in which every call
takes something, both do the same. -/
theorem writen_exact (out : Outgoing) (data : Bytes) :
    (∀ σ : Schedule, σ.FinitelyManyZeros →
      ∃ N r, (∀ fuel, N ≤ fuel → Framing.writen σ fuel out data data.length = some r) ∧
        Written out data r) ∧
    (∀ σ : Schedule, σ.Leaves (.fail .EINTR) →
      ∃ N r, (∀ fuel, N ≤ fuel → writen σ fuel out data data.length = some r) ∧
        Written out data r) ∧
    (∀ σ : Schedule, (∀ i, ∃ m, 0 < m ∧ σ i = .upTo m) →
      ∃ N r, (∀ fuel, N ≤ fuel → Framing.writen σ fuel out data data.length = some r ∧
        writen σ fuel out data data.length = some r) ∧ r.1 = data.length ∧
        r.2.wire = out.wire ++ data) := by
  refine ⟨?_, ?_, ?_⟩
  · intro σ hσ
    obtain ⟨N, r, hrun, hwritten, -⟩ :=
      exists_written (Framing.writenPass_writes σ data.length) hσ.leaves out
    exact ⟨N, r, hrun, hwritten⟩
  · intro σ hσ
    obtain ⟨N, r, hrun, hwritten, -⟩ := exists_written (writenPass_writes σ data.length) hσ out
    exact ⟨N, r, hrun, hwritten⟩
  · intro σ hσ
    have hfails : σ.NeverFails := by
      intro i
      obtain ⟨m, -, hm⟩ := hσ i
      exact ⟨m, hm⟩
    have hzeros : σ.FinitelyManyZeros := by
      refine ⟨0, ?_⟩
      intro i _ hzero
      obtain ⟨m, hpos, hm⟩ := hσ i
      rw [hm] at hzero
      cases hzero
      exact lt_irrefl 0 hpos
    obtain ⟨N, out', hrun, hwire⟩ := writen_spec hfails hzeros out data
    refine ⟨N, ((data.length : ℤ), out'), ?_, rfl, hwire⟩
    intro fuel hfuel
    refine ⟨hrun fuel hfuel, ?_⟩
    rw [writen, ← writenPass_eq hσ]
    exact hrun fuel hfuel

/-- Two bytes behind another one. The first call is interrupted, and all later ones take a
byte: `Writen` returns and has written both or a proper part. If every call takes a byte,
both loops return 2. -/
theorem writen_exact_two :
    (∃ N r, (∀ fuel, N ≤ fuel → writen (fun i => if i = 0 then .fail .EINTR else .upTo 1) fuel
        { wire := [64] } [65, 66] 2 = some r) ∧ Written { wire := [64] } [65, 66] r) ∧
    ∃ N r, (∀ fuel, N ≤ fuel →
        Framing.writen (fun _ => .upTo 1) fuel { wire := [64] } [65, 66] 2 = some r ∧
        writen (fun _ => .upTo 1) fuel { wire := [64] } [65, 66] 2 = some r) ∧ r.1 = 2 ∧
      r.2.wire = [64, 65, 66] := by
  obtain ⟨-, hinterrupted, hboth⟩ := writen_exact { wire := [64] } [65, 66]
  refine ⟨hinterrupted _ ?_, hboth _ fun _ => ⟨1, Nat.one_pos, rfl⟩⟩
  intro i
  exact ⟨i + 1, Nat.le_succ i, by simp⟩

end NetworkPrograms.Head
