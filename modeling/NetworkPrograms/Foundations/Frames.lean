import NetworkPrograms.Foundations.Words

/-!
# Length-prefixed frames

A frame is the length of a payload as a 32-bit word in network order, followed
by the payload. The lemmas say what a reader finds at the head of a stream
that starts with a frame, and which streams start with one.
-/
namespace NetworkPrograms.Frames

open Words

def frame (m : Bytes) : Bytes := netBytes m.length ++ m

/-- The frames of a list of payloads, one after the other. -/
def stream (ms : List Bytes) : Bytes := (ms.map frame).flatten

/-- The signed length announced by the four bytes of a header. -/
def headerLength (hdr : Bytes) : ℤ := toInt32 (ntohl (hostWord hdr))

@[simp] theorem length_frame (m : Bytes) : (frame m).length = 4 + m.length := by simp [frame]

@[simp] theorem stream_nil : stream [] = [] := rfl

@[simp] theorem stream_cons (m : Bytes) (ms : List Bytes) :
    stream (m :: ms) = frame m ++ stream ms := rfl

theorem stream_append (ms ns : List Bytes) : stream (ms ++ ns) = stream ms ++ stream ns := by
  simp [stream]

theorem headerLength_netBytes {n : ℕ} (h : n < 2 ^ 31) : headerLength (netBytes n) = n := by
  rw [headerLength, ntohl_hostWord_netBytes, Nat.mod_eq_of_lt (by omega), toInt32_of_lt h]

theorem take_frame (m rest : Bytes) : (frame m ++ rest).take 4 = netBytes m.length := by
  rw [frame, List.append_assoc, ← length_netBytes m.length, List.take_left]

theorem drop_netBytes_append (n : ℕ) (rest : Bytes) : (netBytes n ++ rest).drop 4 = rest := by
  rw [← length_netBytes n, List.drop_left]

theorem drop_frame (m rest : Bytes) : (frame m ++ rest).drop 4 = m ++ rest := by
  rw [frame, List.append_assoc, drop_netBytes_append]

theorem take_frame_of_le (m : Bytes) {k : ℕ} (h : 4 ≤ k) :
    (frame m).take k = netBytes m.length ++ m.take (k - 4) := by
  rw [frame, List.take_append, length_netBytes, List.take_of_length_le (by simpa using h)]

theorem frame_append_inj {m n rest tail : Bytes} (hm : m.length < 2 ^ 31) (hn : n.length < 2 ^ 31)
    (h : frame m ++ rest = frame n ++ tail) : m = n ∧ rest = tail := by
  have hlen : m.length = n.length := by
    have htake := congrArg (List.take 4) h
    rw [take_frame, take_frame] at htake
    have hhdr := congrArg headerLength htake
    rw [headerLength_netBytes hm, headerLength_netBytes hn] at hhdr
    exact_mod_cast hhdr
  have hdrop := congrArg (List.drop 4) h
  rw [drop_frame, drop_frame] at hdrop
  exact List.append_inj hdrop hlen

theorem netBytes_headerLength {hdr : Bytes} (h4 : hdr.length = 4) (h : 0 ≤ headerLength hdr) :
    netBytes (headerLength hdr).toNat = hdr := by
  rw [headerLength, toInt32_nonneg (ntohl_lt _) h, Int.toNat_natCast,
    netBytes_ntohl_hostWord _ h4]

theorem headerLength_lt (hdr : Bytes) : headerLength hdr < 2 ^ 31 := by
  have := ntohl_lt (hostWord hdr)
  unfold headerLength toInt32
  split_ifs <;> omega

theorem headerLength_of_bytes (a b c d : UInt8) (h : a.toNat < 2 ^ 7) :
    headerLength [a, b, c, d] =
      (d.toNat + 2 ^ 8 * (c.toNat + 2 ^ 8 * (b.toNat + 2 ^ 8 * a.toNat)) : ℕ) := by
  have hswap : ntohl (hostWord [a, b, c, d]) = hostWord [d, c, b, a] := by
    rw [ntohl, byteSwap, hostBytes_hostWord _ rfl]
    rfl
  have hval : hostWord [d, c, b, a] =
      d.toNat + 2 ^ 8 * (c.toNat + 2 ^ 8 * (b.toNat + 2 ^ 8 * a.toNat)) := by
    simp [hostWord]
  have := d.toNat_lt
  have := c.toNat_lt
  have := b.toNat_lt
  rw [headerLength, hswap, hval, toInt32_of_lt (by omega)]

/-- A stream that holds the announced number of bytes behind its header starts
with a frame. -/
theorem eq_frame_append {buf : Bytes} (h4 : 4 ≤ buf.length)
    (h0 : 0 ≤ headerLength (buf.take 4)) (hlen : headerLength (buf.take 4) + 4 ≤ buf.length) :
    buf = frame ((buf.drop 4).take (headerLength (buf.take 4)).toNat) ++
      (buf.drop 4).drop (headerLength (buf.take 4)).toNat := by
  have hp : ((buf.drop 4).take (headerLength (buf.take 4)).toNat).length =
      (headerLength (buf.take 4)).toNat := by
    simp only [List.length_take, List.length_drop]
    omega
  rw [frame, hp, netBytes_headerLength (by simpa using h4) h0, List.append_assoc,
    List.take_append_drop, List.take_append_drop]

end NetworkPrograms.Frames
