import NetworkPrograms.Codec.LengthHeader

/-!
# What the chat codec makes of a byte stream

Bytes reach the input buffer in arrivals of any size, and each arrival is
followed by one call of `onMessage`. While these calls return, the messages
delivered are the complete frames at the start of the stream, however the
stream was cut. The second part compares `send` with the decoder.
-/
namespace NetworkPrograms.Codec

open Words Frames

/-- Each arrival is appended to the buffer and followed by one call of `onMessage`. -/
def arriveAll (fuel : ℕ) (c : Connection) (arrivals : List Bytes) : Option Connection :=
  arrivals.foldlM (fun c chunk => onMessage fuel { c with buf := c.buf ++ chunk }) c

/-! ## The complete frames of a stream -/

theorem Fits.length_lt {p : Bytes} (h : Fits p) : p.length < 2 ^ 31 := by
  unfold Fits maxLen at h
  omega

theorem boundary_nil : Boundary [] := .inl (by decide)

theorem not_boundary_frame {p : Bytes} (hp : Fits p) (rest : Bytes) :
    ¬ Boundary (frame p ++ rest) := by
  rintro (hshort | hbad)
  · simp only [List.length_append, length_frame] at hshort
    omega
  · unfold BadHeader at hbad
    rw [take_frame, hp.headerLength] at hbad
    unfold Fits at hp
    omega

theorem isPrefix_of_stream_eq {ps qs : List Bytes} {rest tail : Bytes} (hps : ∀ p ∈ ps, Fits p)
    (hqs : ∀ q ∈ qs, Fits q) (hrest : Boundary rest)
    (h : stream qs ++ tail = stream ps ++ rest) : qs <+: ps := by
  induction qs generalizing ps with
  | nil => exact List.nil_prefix
  | cons q qs ih =>
    have hq := hqs q (by simp)
    cases ps with
    | nil =>
      rw [stream_cons, List.append_assoc, stream_nil, List.nil_append] at h
      exact absurd (h ▸ hrest) (not_boundary_frame hq _)
    | cons p ps =>
      have hp := hps p (by simp)
      rw [stream_cons, stream_cons, List.append_assoc, List.append_assoc] at h
      obtain ⟨rfl, htail⟩ := frame_append_inj hq.length_lt hp.length_lt h
      apply (List.prefix_cons_inj q).mpr
      exact ih (fun p' hp' => hps p' (by simp [hp'])) (fun q' hq' => hqs q' (by simp [hq'])) htail

theorem stream_append_inj {ps qs : List Bytes} {rest tail : Bytes} (hps : ∀ p ∈ ps, Fits p)
    (hqs : ∀ q ∈ qs, Fits q) (hrest : Boundary rest) (htail : Boundary tail)
    (h : stream qs ++ tail = stream ps ++ rest) : qs = ps ∧ tail = rest := by
  have hle := isPrefix_of_stream_eq hps hqs hrest h
  have hge := isPrefix_of_stream_eq hqs hps htail h.symm
  have heq : qs = ps := hle.eq_of_length_le hge.length_le
  subst heq
  exact ⟨rfl, List.append_cancel_left h⟩

/-- A call that returns has split its buffer into the frames it delivered and a
boundary. -/
theorem onMessage_split {fuel : ℕ} {c r : Connection} (h : onMessage fuel c = some r) :
    ∃ ps, (∀ p ∈ ps, Fits p) ∧ c.buf = stream ps ++ r.buf ∧ Boundary r.buf ∧
      r.delivered = c.delivered ++ ps ∧
      r.shutdown = if r.buf.length < 4 then c.shutdown else true := by
  obtain ⟨ps, rest, hps, hbuf, hrest⟩ := endsAtBoundary_of_run h
  have hreturns := onMessage_returns_of_frames ps hps hrest c.delivered c.shutdown
  rw [← hbuf] at hreturns
  have hr := Loop.Returns.unique ⟨fuel, h⟩ hreturns
  subst hr
  exact ⟨ps, hps, hbuf, hrest, rfl, rfl⟩

/-! ## Any way of cutting the stream -/

/-- What holds between two arrivals when `bytes` have come in so far. -/
structure Decoded (bytes : Bytes) (c : Connection) : Prop where
  split : bytes = stream c.delivered ++ c.buf
  fits : ∀ p ∈ c.delivered, Fits p
  rest : c.buf.length < 4 ∧ c.shutdown = false ∨
    4 ≤ c.buf.length ∧ BadHeader c.buf ∧ c.shutdown = true

theorem Decoded.boundary {bytes : Bytes} {c : Connection} (hc : Decoded bytes c) :
    Boundary c.buf := by
  rcases hc.rest with ⟨hshort, -⟩ | ⟨-, hbad, -⟩
  · exact .inl hshort
  · exact .inr hbad

theorem decoded_init : Decoded [] ⟨[], [], false⟩ where
  split := rfl
  fits := by simp
  rest := .inl ⟨by simp, rfl⟩

theorem BadHeader.append {buf : Bytes} (h4 : 4 ≤ buf.length) (h : BadHeader buf) (chunk : Bytes) :
    BadHeader (buf ++ chunk) := by
  unfold BadHeader at h ⊢
  rwa [List.take_append_of_le_length h4]

theorem Decoded.arrive {bytes chunk : Bytes} {c r : Connection} {fuel : ℕ} (hc : Decoded bytes c)
    (h : onMessage fuel { c with buf := c.buf ++ chunk } = some r) :
    Decoded (bytes ++ chunk) r := by
  obtain ⟨ps, hps, hbuf, hbound, hdel, hshut⟩ := onMessage_split h
  simp only at hbuf hdel hshut
  refine ⟨?_, ?_, ?_⟩
  · rw [hc.split, hdel, stream_append, List.append_assoc, List.append_assoc, hbuf]
  · intro p hp
    rw [hdel] at hp
    rcases List.mem_append.mp hp with hp | hp
    · exact hc.fits p hp
    · exact hps p hp
  · by_cases hlen : r.buf.length < 4
    · rw [if_pos hlen] at hshut
      rcases hc.rest with ⟨-, hopen⟩ | ⟨h4, hbad, -⟩
      · exact .inl ⟨hlen, hshut.trans hopen⟩
      · -- the bad header was in the buffer already and no call takes it out
        have hstill : Boundary (c.buf ++ chunk) := .inr (hbad.append h4 chunk)
        have hnil : ∀ q ∈ ([] : List Bytes), Fits q := by simp
        obtain ⟨-, hsame⟩ := stream_append_inj hps hnil hbound hstill (by simpa using hbuf)
        rw [← hsame, List.length_append] at hlen
        omega
    · rw [if_neg hlen] at hshut
      exact .inr ⟨by omega, hbound.resolve_left hlen, hshut⟩

theorem Decoded.arriveAll {bytes : Bytes} {c r : Connection} {fuel : ℕ} {arrivals : List Bytes}
    (hc : Decoded bytes c) (h : arriveAll fuel c arrivals = some r) :
    Decoded (bytes ++ arrivals.flatten) r := by
  induction arrivals generalizing bytes c with
  | nil =>
    cases h
    simpa using hc
  | cons chunk arrivals ih =>
    rw [Codec.arriveAll, List.foldlM_cons] at h
    obtain ⟨mid, hmid, hrest⟩ := Option.bind_eq_some_iff.mp h
    rw [List.flatten_cons, ← List.append_assoc]
    exact ih (hc.arrive hmid) hrest

theorem Decoded.unique {bytes : Bytes} {c d : Connection} (hc : Decoded bytes c)
    (hd : Decoded bytes d) : c = d := by
  obtain ⟨hdel, hbuf⟩ := stream_append_inj hd.fits hc.fits hd.boundary hc.boundary
    (hc.split.symm.trans hd.split)
  have hshut : c.shutdown = d.shutdown := by
    have hcr := hc.rest
    have hdr := hd.rest
    rw [hbuf] at hcr
    rcases hcr with ⟨hs, h⟩ | ⟨hl, -, h⟩ <;> rcases hdr with ⟨hs', h'⟩ | ⟨hl', -, h'⟩
    · rw [h, h']
    · omega
    · omega
    · rw [h, h']
  cases c
  cases d
  simp_all

/-- Chunk independence. Whenever the calls after all arrivals return, the
messages delivered are the payloads of the longest run of complete frames at the
start of the stream, the buffer holds the rest, and `shutdown` has been called
exactly when the rest starts with a header out of range. Another way of cutting
the same stream leads to the same connection. -/
theorem arrivals_decoded (arrivals : List Bytes) (fuel : ℕ) (r : Connection)
    (h : arriveAll fuel ⟨[], [], false⟩ arrivals = some r) :
    arrivals.flatten = stream r.delivered ++ r.buf ∧
      (∀ p ∈ r.delivered, p.length ≤ 65536) ∧
      (∀ ps rest, (∀ p ∈ ps, p.length ≤ 65536) → arrivals.flatten = stream ps ++ rest →
        ps <+: r.delivered) ∧
      (r.buf.length < 4 ∧ r.shutdown = false ∨
        4 ≤ r.buf.length ∧ BadHeader r.buf ∧ r.shutdown = true) ∧
      ∀ arrivals' fuel' r', arrivals'.flatten = arrivals.flatten →
        arriveAll fuel' ⟨[], [], false⟩ arrivals' = some r' → r' = r := by
  have hfits : ∀ p : Bytes, Fits p ↔ p.length ≤ 65536 := by
    intro p
    unfold Fits maxLen
    omega
  have hr := decoded_init.arriveAll h
  rw [List.nil_append] at hr
  refine ⟨hr.split, fun p hp => (hfits p).mp (hr.fits p hp), ?_, hr.rest, ?_⟩
  · intro ps rest hps hsplit
    exact isPrefix_of_stream_eq hr.fits (fun p hp => (hfits p).mpr (hps p hp)) hr.boundary
      (hsplit.symm.trans hr.split)
  · intro arrivals' fuel' r' hflat h'
    have hr' := decoded_init.arriveAll h'
    rw [List.nil_append, hflat] at hr'
    exact hr'.unique hr

/-- The header of the first frame comes in two parts, and two bytes are left over. -/
theorem arrivals_decoded_split_header :
    arriveAll 3 ⟨[], [], false⟩ [[0, 0, 0], [2, 104, 105, 0, 0]] =
        some ⟨[0, 0], [[104, 105]], false⟩ ∧
      ∀ arrivals' fuel' r', arrivals'.flatten = [[0, 0, 0], [2, 104, 105, 0, 0]].flatten →
        arriveAll fuel' ⟨[], [], false⟩ arrivals' = some r' →
        r' = ⟨[0, 0], [[104, 105]], false⟩ :=
  ⟨by decide, (arrivals_decoded [[0, 0, 0], [2, 104, 105, 0, 0]] 3 ⟨[0, 0], [[104, 105]], false⟩
    (by decide)).2.2.2.2⟩

/-! ## The encoder -/

/-- `LengthHeaderCodec::send` on a connection that has been given the bytes
`out`: the size is narrowed to an `int32_t` and put in front of the message. -/
def send (out message : Bytes) : Bytes :=
  let len := toInt32 (message.length % 2 ^ 32)
  let be32 := htonl (ofInt32 len)
  out ++ (hostBytes be32 ++ message)

theorem send_eq (out message : Bytes) : send out message = out ++ frame message := by
  have hword : ofInt32 (toInt32 (message.length % 2 ^ 32)) = message.length % 2 ^ 32 := by
    unfold ofInt32 toInt32
    split_ifs <;> omega
  rw [send, hword, hostBytes_htonl, netBytes_mod, frame]

theorem fits_of_decoded {fuel : ℕ} {bytes rest m : Bytes} {b : Bool}
    (h : onMessage fuel ⟨bytes, [], false⟩ = some ⟨rest, [m], b⟩) : m.length ≤ 65536 := by
  obtain ⟨ps, hps, -, -, hdel, -⟩ := onMessage_split h
  have hm : Fits m := hps m (by simp only [List.nil_append] at hdel; simp [← hdel])
  unfold Fits maxLen at hm
  omega

/-- The decoder gives back exactly the messages of at most 65536 bytes. The
encoder does not know this limit. -/
theorem send_decoded_iff (m : Bytes) :
    (∃ fuel, onMessage fuel ⟨send [] m, [], false⟩ = some ⟨[], [m], false⟩) ↔
      m.length ≤ 65536 := by
  constructor
  · rintro ⟨fuel, h⟩
    exact fits_of_decoded h
  · intro hlen
    have hm : Fits m := by
      unfold Fits maxLen
      omega
    obtain ⟨fuel, hf⟩ := onMessage_returns_of_frames [m] (by simpa using hm)
      boundary_nil [] false
    refine ⟨fuel, ?_⟩
    rw [send_eq, List.nil_append]
    simpa [onMessage] using hf

/-- A line of 65537 bytes is not given back. -/
theorem long_message_refused :
    ¬ ∀ m : Bytes, ∃ fuel, onMessage fuel ⟨send [] m, [], false⟩ = some ⟨[], [m], false⟩ := by
  intro h
  obtain ⟨fuel, hf⟩ := h (List.replicate 65537 97)
  have hle := fits_of_decoded hf
  rw [List.length_replicate] at hle
  omega

end NetworkPrograms.Codec
