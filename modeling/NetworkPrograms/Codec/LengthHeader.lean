import NetworkPrograms.Foundations.Frames
import NetworkPrograms.Foundations.Loop

/-!
# The chat codec

`LengthHeaderCodec` of the chat program. The connection's input `Buffer` is a
byte queue: `peek` and `readableBytes` look at it, `retrieve` drops bytes from
its front. The message callback appends to the list of delivered messages and
does not touch the queue. `onMessage` is a loop, given by its body.
-/
namespace NetworkPrograms.Codec

open Words Frames

/-- A connection as the codec sees it: its input buffer, the messages given to
`messageCallback_` so far, and whether `shutdown` has been called. -/
structure Connection where
  buf : Bytes
  delivered : List Bytes
  shutdown : Bool
  deriving DecidableEq

/-- Largest payload the decoder accepts. -/
def maxLen : ℤ := 65536

/-- One pass of the `while` loop. The chain of tests has no last branch: with a
sound header and too few bytes behind it the loop goes round again. -/
def onMessagePass (c : Connection) : Loop.Pass Connection Connection :=
  if c.buf.length ≥ 4 then
    let len := headerLength (c.buf.take 4)
    if len > maxLen ∨ len < 0 then .leave { c with shutdown := true }
    else if (c.buf.length : ℤ) ≥ len + 4 then
      let rest := c.buf.drop 4
      let message := rest.take len.toNat
      .again { c with buf := rest.drop len.toNat, delivered := c.delivered ++ [message] }
    else .again c
  else .leave c

def onMessage (fuel : ℕ) (c : Connection) : Option Connection := Loop.run onMessagePass fuel c

def BadHeader (buf : Bytes) : Prop :=
  headerLength (buf.take 4) > maxLen ∨ headerLength (buf.take 4) < 0

instance (buf : Bytes) : Decidable (BadHeader buf) :=
  inferInstanceAs (Decidable (_ ∨ _))

def Fits (p : Bytes) : Prop := (p.length : ℤ) ≤ maxLen

theorem Fits.headerLength {p : Bytes} (h : Fits p) : headerLength (netBytes p.length) = p.length :=
  headerLength_netBytes (by unfold Fits maxLen at h; omega)

theorem onMessagePass_frame {p rest : Bytes} (hp : Fits p) (ds : List Bytes) (b : Bool) :
    onMessagePass ⟨frame p ++ rest, ds, b⟩ = .again ⟨rest, ds ++ [p], b⟩ := by
  have h4 : (frame p ++ rest).length ≥ 4 := by simp; omega
  have hgood : ¬ ((p.length : ℤ) > maxLen ∨ (p.length : ℤ) < 0) := by
    unfold Fits at hp
    omega
  have hroom : (((frame p ++ rest).length : ℕ) : ℤ) ≥ p.length + 4 := by
    simp only [List.length_append, length_frame]
    push_cast
    omega
  simp only [onMessagePass, take_frame, drop_frame, hp.headerLength]
  rw [if_pos h4, if_neg hgood, if_pos hroom, Int.toNat_natCast, List.drop_left, List.take_left]

theorem onMessagePass_header {c : Connection} (h4 : 4 ≤ c.buf.length) :
    onMessagePass c =
      if BadHeader c.buf then .leave { c with shutdown := true }
      else if (c.buf.length : ℤ) ≥ headerLength (c.buf.take 4) + 4 then
        .again { c with
          buf := (c.buf.drop 4).drop (headerLength (c.buf.take 4)).toNat
          delivered := c.delivered ++ [(c.buf.drop 4).take (headerLength (c.buf.take 4)).toNat] }
      else .again c :=
  if_pos h4

/-- All that one pass can do. -/
theorem onMessagePass_cases (c : Connection) :
    (c.buf.length < 4 ∧ onMessagePass c = .leave c) ∨
    (4 ≤ c.buf.length ∧ BadHeader c.buf ∧ onMessagePass c = .leave { c with shutdown := true }) ∨
    (∃ p rest, Fits p ∧ c.buf = frame p ++ rest ∧
      onMessagePass c = .again { c with buf := rest, delivered := c.delivered ++ [p] }) ∨
    (4 ≤ c.buf.length ∧ ¬ BadHeader c.buf ∧
      (c.buf.length : ℤ) < headerLength (c.buf.take 4) + 4 ∧ onMessagePass c = .again c) := by
  by_cases h4 : 4 ≤ c.buf.length
  · right
    by_cases hbad : BadHeader c.buf
    · exact .inl ⟨h4, hbad, by rw [onMessagePass_header h4, if_pos hbad]⟩
    · right
      by_cases hroom : (c.buf.length : ℤ) ≥ headerLength (c.buf.take 4) + 4
      · have hrange : 0 ≤ headerLength (c.buf.take 4) ∧ headerLength (c.buf.take 4) ≤ maxLen := by
          unfold BadHeader at hbad
          omega
        have hsplit := eq_frame_append h4 hrange.1 hroom
        refine .inl ⟨_, _, ?_, hsplit, by rw [onMessagePass_header h4, if_neg hbad, if_pos hroom]⟩
        simp only [Fits, List.length_take, List.length_drop]
        omega
      · exact .inr ⟨h4, hbad, by omega,
          by rw [onMessagePass_header h4, if_neg hbad, if_neg hroom]⟩
  · exact .inl ⟨by omega, by rw [onMessagePass, if_neg h4]⟩

theorem onMessage_stuck {c : Connection} (h4 : 4 ≤ c.buf.length) (hgood : ¬ BadHeader c.buf)
    (hshort : (c.buf.length : ℤ) < headerLength (c.buf.take 4) + 4) (r : Connection) :
    ¬ Loop.Returns onMessagePass c r := by
  apply Loop.not_returns_of_invariant (fun s => s = c) ?_ rfl
  rintro s rfl
  refine ⟨s, ?_, rfl⟩
  rw [onMessagePass_header h4, if_neg hgood, if_neg (by omega)]

/-- No complete frame follows: fewer bytes than a header, or a header out of range. -/
def Boundary (rest : Bytes) : Prop := rest.length < 4 ∨ BadHeader rest

/-- The contents on which the loop can end: complete frames, then a boundary. -/
def EndsAtBoundary (buf : Bytes) : Prop :=
  ∃ ps rest, (∀ p ∈ ps, Fits p) ∧ buf = stream ps ++ rest ∧ Boundary rest

theorem EndsAtBoundary.cons {p rest : Bytes} (hp : Fits p) (h : EndsAtBoundary rest) :
    EndsAtBoundary (frame p ++ rest) := by
  obtain ⟨ps, tail, hps, rfl, htail⟩ := h
  refine ⟨p :: ps, tail, ?_, by simp, htail⟩
  intro q hq
  rcases List.mem_cons.mp hq with rfl | hq
  · exact hp
  · exact hps q hq

theorem onMessage_returns_of_frames (ps : List Bytes) (hps : ∀ p ∈ ps, Fits p) {rest : Bytes}
    (hrest : Boundary rest) (ds : List Bytes) (b : Bool) :
    Loop.Returns onMessagePass ⟨stream ps ++ rest, ds, b⟩
      ⟨rest, ds ++ ps, if rest.length < 4 then b else true⟩ := by
  induction ps generalizing ds with
  | nil =>
    simp only [stream_nil, List.nil_append, List.append_nil]
    apply Loop.Returns.of_leave
    by_cases h4 : rest.length < 4
    · rw [onMessagePass, if_neg (by simpa using h4), if_pos h4]
    · have hbad : BadHeader rest := hrest.resolve_left h4
      rw [onMessagePass_header (by simpa using h4), if_pos hbad, if_neg h4]
  | cons p ps ih =>
    have hp : Fits p := hps p (by simp)
    rw [stream_cons, List.append_assoc]
    apply Loop.Returns.of_again (onMessagePass_frame hp ds b)
    have := ih (fun q hq => hps q (by simp [hq])) (ds ++ [p])
    rwa [List.append_assoc] at this

theorem endsAtBoundary_of_run {fuel : ℕ} {c r : Connection} (h : onMessage fuel c = some r) :
    EndsAtBoundary c.buf := by
  induction fuel generalizing c with
  | zero => simp [onMessage, Loop.run] at h
  | succ fuel ih =>
    rcases onMessagePass_cases c with ⟨hlt, -⟩ | ⟨-, hbad, -⟩ | ⟨p, rest, hp, hbuf, he⟩ |
      ⟨h4, hgood, hshort, -⟩
    · exact ⟨[], c.buf, by simp, by simp, .inl hlt⟩
    · exact ⟨[], c.buf, by simp, by simp, .inr hbad⟩
    · rw [onMessage, Loop.run_again he] at h
      rw [hbuf]
      exact (ih h).cons hp
    · exact absurd ⟨_, h⟩ (onMessage_stuck h4 hgood hshort r)

/-- `onMessage` returns exactly when the buffer, after its complete frames, holds
fewer than four bytes or an out-of-range header. -/
theorem onMessage_returns_iff (c : Connection) :
    (∃ fuel r, onMessage fuel c = some r) ↔ EndsAtBoundary c.buf := by
  constructor
  · rintro ⟨fuel, r, h⟩
    exact endsAtBoundary_of_run h
  · rintro ⟨ps, rest, hps, hbuf, hrest⟩
    obtain ⟨fuel, hf⟩ := onMessage_returns_of_frames ps hps hrest c.delivered c.shutdown
    rw [← hbuf] at hf
    exact ⟨fuel, _, hf⟩

/-- Five payload bytes announced, two of them there: the loop never ends. -/
theorem onMessage_partial_frame_diverges :
    ¬ ∀ buf : Bytes, ∃ fuel r, onMessage fuel ⟨buf, [], false⟩ = some r := by
  intro h
  obtain ⟨fuel, r, hr⟩ := h [0, 0, 0, 5, 104, 105]
  exact onMessage_stuck (c := ⟨[0, 0, 0, 5, 104, 105], [], false⟩) (by decide) (by decide)
    (by decide) r ⟨fuel, hr⟩

end NetworkPrograms.Codec
