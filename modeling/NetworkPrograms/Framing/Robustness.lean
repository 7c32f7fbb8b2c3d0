import NetworkPrograms.Framing.Delivery

/-!
# `recvMsg` against its peer and its kernel

Two things that `recvMsg` takes on trust. The length in the header comes from the peer
and goes unchecked into `malloc`, into the second `readn` and into an index. The result
of the first `readn` is not looked at, so that a failed `recv` between the bytes of a
header goes unnoticed.
-/
namespace NetworkPrograms.Framing

open Transport Words Frames

/-! ## An arbitrary peer -/

/-- The stores of `recvMsg` to the block it has allocated: the bytes received and the
terminator. -/
theorem mem_received_log {size len : ℤ} {junk : ℤ → UInt8} {got : Bytes} {i : ℤ} :
    i ∈ (((Block.alloc size junk).write 0 got).write len [0]).log ↔
      (0 ≤ i ∧ i < got.length) ∨ i = len := by
  simp only [Block.write, Block.alloc, List.nil_append, List.mem_append, List.mem_map,
    List.mem_range, zero_add, List.length_singleton, Nat.lt_one_iff, exists_eq_left,
    Nat.cast_zero, add_zero]
  constructor
  · rintro (⟨j, hj, rfl⟩ | hlen)
    · exact .inl ⟨by omega, by exact_mod_cast hj⟩
    · exact .inr hlen.symm
  · rintro (⟨h0, hlt⟩ | rfl)
    · exact .inl ⟨i.toNat, by omega, by omega⟩
    · exact .inr rfl

/-- Whatever a peer sends before it closes, in whatever pieces it arrives: `recvMsg`
returns, and it computes the size of the block without an overflow and stores inside the
block exactly when the length in the header is neither negative nor the largest `int`. -/
theorem recvMsg_safe_iff (env : Env) (hσ : env.answers.NeverFails) (inc : Incoming)
    (heof : inc.eof = true) (fuel : ℕ) (hfuel : 2 ^ 32 < fuel) :
    ∃ r inc', recvMsg env fuel inc = some (r, inc') ∧
      ((r.len + 1 ≤ INT_MAX ∧ ∀ i ∈ r.data.log, 0 ≤ i ∧ i < r.data.size) ↔
        0 ≤ headerLength (headerObject inc.pending) ∧
          headerLength (headerObject inc.pending) < INT_MAX) := by
  have hbound := headerLength_lt (headerObject inc.pending)
  set len := headerLength (headerObject inc.pending) with hlen
  obtain ⟨inc', hrun, -, -⟩ := recvMsg_spec hσ inc hlen (.inl heof)
    (show 4 + len.toNat < fuel by omega)
  refine ⟨_, inc', hrun, ?_⟩
  simp only [mem_received_log, Block.write_size, Block.alloc_size]
  constructor
  · rintro ⟨hmax, hin⟩
    have hstore := hin len (.inr rfl)
    exact ⟨hstore.1, by omega⟩
  · rintro ⟨h0, hmax⟩
    have hsize : (len + 1) % 2 ^ 64 = len + 1 := Int.emod_eq_of_lt (by omega) (by omega)
    have hgot : ((inc.pending.drop 4).take len.toNat).length ≤ len.toNat := by simp
    refine ⟨by omega, ?_⟩
    rw [hsize]
    rintro i (⟨hlo, hhi⟩ | hi)
    · exact ⟨hlo, by omega⟩
    · exact ⟨by omega, by omega⟩

/-- A frame that is cut off in its payload, one byte per call. -/
theorem recvMsg_safe_iff_cut :
    ∃ r inc', recvMsg ⟨fun _ => .upTo 1, fun _ _ => 170⟩ (2 ^ 32 + 1)
        { pending := [0, 0, 0, 3, 104, 105], eof := true } = some (r, inc') ∧
      r.len + 1 ≤ INT_MAX ∧ ∀ i ∈ r.data.log, 0 ≤ i ∧ i < r.data.size := by
  obtain ⟨r, inc', hrun, hiff⟩ := recvMsg_safe_iff ⟨fun _ => .upTo 1, fun _ _ => 170⟩
    (fun _ => ⟨1, rfl⟩) { pending := [0, 0, 0, 3, 104, 105], eof := true } rfl (2 ^ 32 + 1)
    (by decide)
  exact ⟨r, inc', hrun, hiff.mpr (by decide +kernel)⟩

/-- A peer announces the length -1: the block has no byte, and the terminator goes in
front of it. -/
theorem negative_length_writes_outside :
    ¬ ∀ (env : Env) (inc : Incoming) (fuel : ℕ) (r : Received) (inc' : Incoming),
      env.answers.NeverFails → inc.eof = true → recvMsg env fuel inc = some (r, inc') →
      r.len + 1 ≤ INT_MAX ∧ ∀ i ∈ r.data.log, 0 ≤ i ∧ i < r.data.size := by
  intro h
  have hin := (h ⟨fun _ => .upTo 4, fun _ _ => 170⟩ { pending := [255, 255, 255, 255], eof := true }
    10 _ _ (fun _ => ⟨4, rfl⟩) rfl rfl).2
  exact absurd hin (by decide +kernel)

/-! ## Failing calls -/

/-- What a call of `readn` for `n` bytes has done when it returns, whatever the kernel
answered: it has taken bytes off the stream and stored them, and it returns -1 when one
of its calls failed and otherwise their number, which is `n` unless the stream has
ended. -/
structure ReadnDone (σ : Schedule) (inc : Incoming) (buf : Block) (n : ℕ)
    (r : ℤ × Block × Incoming) : Prop where
  calls : inc.calls ≤ r.2.2.calls
  ret_eq_neg_one_iff : r.1 = -1 ↔ σ.Fails inc.calls r.2.2.calls
  taken : ∃ got, inc.pending = got ++ r.2.2.pending ∧ r.2.1 = buf.write 0 got ∧ got.length ≤ n ∧
    (r.1 ≠ -1 → r.1 = got.length ∧ (got.length = n ∨ r.2.2.pending = []))

/-- A call that returns -1 has done so at the first of its calls of `recv` that failed, and
has stored what those before offered. -/
structure ReadnFailed (σ : Schedule) (inc : Incoming) (buf : Block) (n t : ℕ)
    (r : ℤ × Block × Incoming) : Prop where
  after : σ.FailsAfter inc.calls n inc.pending.length t
  calls : r.2.2.calls = inc.calls + t + 1
  buf : r.2.1 = buf.write 0 (inc.pending.take (min (σ.offered inc.calls t) inc.pending.length))
  pending : r.2.2.pending =
    inc.pending.drop (min (σ.offered inc.calls t) inc.pending.length)

section

variable {env : Env} {fuel n : ℕ} {inc : Incoming} {buf : Block} {r : ℤ × Block × Incoming}

theorem readn_done (h : env.platform.readn fuel inc buf n = some r) :
    ReadnDone env.answers inc buf n r := by
  obtain ⟨s, hinv, hs, hstep⟩ := Env.readn_last h
  obtain ⟨t, hcalls, hanswered, -⟩ := hs.calls
  obtain ⟨got, hgot, hbuf, -, hcount⟩ := hinv.filling
  have h0 := hinv.count
  have hnot : ¬ env.answers.Fails inc.calls s.inc.calls := by
    rw [hcalls]
    exact hanswered.answered
  cases hstep with
  | finished hend =>
    refine ⟨by dsimp only; omega, ?_, got, hgot, hbuf, by omega, ?_⟩
    · exact ⟨fun hneg => absurd hneg (by dsimp only; omega), fun hf => absurd hf hnot⟩
    · intro _
      exact ⟨by dsimp only; omega, .inl (by omega)⟩
  | failed pos call =>
    obtain ⟨⟨e, hfail⟩, rfl⟩ := recv_eq_neg_one pos call
    refine ⟨by dsimp only; omega, ?_, got, hgot, hbuf, by omega, fun hne => absurd rfl hne⟩
    exact ⟨fun _ => ⟨s.inc.calls, by omega, Nat.lt_succ_self _, e, hfail⟩, fun _ => rfl⟩
  | ended pos call =>
    obtain ⟨⟨m, hm⟩, hnil, -, rfl⟩ := recv_eq_zero pos call
    refine ⟨by dsimp only; omega, ?_, got, hgot, hbuf, by omega, ?_⟩
    · exact ⟨fun hneg => absurd hneg (by dsimp only; omega),
        fun hf => absurd hf (Schedule.not_fails_succ hnot hm)⟩
    · intro _
      exact ⟨by dsimp only; omega, .inr hnil⟩

theorem exists_readnFailed (h : env.platform.readn fuel inc buf n = some r) (hret : r.1 = -1) :
    ∃ t, ReadnFailed env.answers inc buf n t r := by
  obtain ⟨s, hinv, hs, hstep⟩ := Env.readn_last h
  obtain ⟨t, hcalls, hanswered, hpt⟩ := hs.calls
  obtain ⟨hcount, hlen⟩ := hinv.lengths
  obtain ⟨got, hgot, hbuf, hgotlen, -⟩ := hinv.filling
  have h0 := hinv.count
  cases hstep with
  | finished hend =>
    dsimp only at hret
    omega
  | ended pos call =>
    dsimp only at hret
    omega
  | failed pos call =>
    obtain ⟨⟨e, hfail⟩, rfl⟩ := recv_eq_neg_one pos call
    have hoffered : got.length = min (env.answers.offered inc.calls t) inc.pending.length := by
      omega
    refine ⟨t, ⟨hanswered, ⟨e, by rw [← hcalls, hfail]⟩, by omega⟩, by dsimp only; omega, ?_, ?_⟩
    · rw [← hoffered, hgot, List.take_left]
      exact hbuf
    · rw [← hoffered, hgot, List.drop_left]

/-- `readn` returns -1 exactly when one of its calls fails before it has all bytes or the
end of the stream. -/
theorem ret_eq_neg_one_iff_failsAfter (h : env.platform.readn fuel inc buf n = some r) :
    r.1 = -1 ↔ ∃ t, env.answers.FailsAfter inc.calls n inc.pending.length t := by
  constructor
  · intro hret
    obtain ⟨t, ht⟩ := exists_readnFailed h hret
    exact ⟨t, ht.after⟩
  · rintro ⟨u, hu⟩
    obtain ⟨s, hinv, hs, hstep⟩ := Env.readn_last h
    obtain ⟨t, hcalls, hanswered, hpt⟩ := hs.calls
    obtain ⟨hcount, hlen⟩ := hinv.lengths
    have htu := hu.le hanswered
    have hmono := env.answers.offered_mono inc.calls htu
    have h0 := hinv.count
    cases hstep with
    | failed => rfl
    | finished hend =>
      -- all bytes had come before the call that fails
      have := hu.short
      omega
    | ended pos call =>
      -- the stream had ended before it
      obtain ⟨⟨m, hm⟩, hnil, -, rfl⟩ := recv_eq_zero pos call
      rw [hnil, List.length_nil] at hlen
      rcases htu.eq_or_lt with rfl | hlt
      · obtain ⟨e, he⟩ := hu.fails
        rw [← hcalls, hm] at he
        cases he
      · have := hu.more t hlt
        omega

end

/-- A call at the start of the frames of `ms`. If it returns a positive number, it has
taken the header and that many bytes of the payload off the stream; and it returns -1 if
one of its `recv` calls has failed. -/
structure Aligned (σ : Schedule) (ms : List Bytes) (inc : Incoming) (r : Received)
    (inc' : Incoming) : Prop where
  consumed : 0 < r.ret → ∃ m ∈ ms.head?, r.ret ≤ m.length ∧
    inc.pending = netBytes m.length ++ m.take r.ret.toNat ++ inc'.pending ∧
    r.data.read 0 r.ret.toNat = m.take r.ret.toNat
  failed : σ.Fails inc.calls inc'.calls → r.ret = -1

theorem eq_netBytes_of_take {ms : List Bytes} {k : ℕ} {got rest : Bytes}
    (hp : (stream ms).take k = got ++ rest) (h4 : got.length = 4) :
    ∃ m ms', ms = m :: ms' ∧ got = netBytes m.length ∧ rest <+: m ++ stream ms' := by
  have hpre : got ++ rest <+: stream ms := hp ▸ List.take_prefix k _
  cases ms with
  | nil =>
    have hlen := hpre.length_le
    simp only [List.length_append, stream_nil, List.length_nil] at hlen
    omega
  | cons m ms' =>
    rw [stream_cons, frame, List.append_assoc] at hpre
    have hlen : got.length = (netBytes m.length).length := by rw [h4, length_netBytes]
    have hgot : got = netBytes m.length := by
      have hfirst : got <+: netBytes m.length ++ (m ++ stream ms') :=
        (List.prefix_append _ _).trans hpre
      rw [List.prefix_iff_eq_take] at hfirst
      rw [hfirst, hlen, List.take_left]
    rw [hgot, List.prefix_append_right_inj] at hpre
    exact ⟨m, ms', rfl, hgot, hpre⟩

theorem eq_take_of_isPrefix {got rest m tail : Bytes} (h : got ++ rest <+: m ++ tail)
    (hlen : got.length ≤ m.length) : got = m.take got.length := by
  have hgot : got <+: m ++ tail := (List.prefix_append _ _).trans h
  rw [List.prefix_iff_eq_take, List.take_append_of_le_length hlen] at hgot
  exact hgot

theorem recvMsg_returns (env : Env) {inc : Incoming} (heof : inc.eof = true) {fuel : ℕ}
    (hfuel : 2 ^ 32 < fuel) : ∃ r inc', recvMsg env fuel inc = some (r, inc') := by
  obtain ⟨⟨hdr, obj, mid⟩, hhdr⟩ := env.readn_returns (.inl heof : Ready inc 4)
    (Block.alloc 4 fun _ => 0) (show 4 < fuel by omega)
  have hbound := headerLength_lt (obj.read 0 4)
  have hmid : mid.eof = true := (readn_eof hhdr).trans heof
  have hready : Ready (env.platform.malloc mid).2 (headerLength (obj.read 0 4)).toNat := .inl hmid
  obtain ⟨⟨Len, data, fin⟩, hdata⟩ := env.readn_returns hready
    (Block.alloc ((headerLength (obj.read 0 4) + 1) % 2 ^ 64) (env.junk mid.mallocs))
    (show (headerLength (obj.read 0 4)).toNat < fuel by omega)
  exact ⟨_, _, Platform.recvMsg_of_readn hhdr rfl ((Platform.readn_toNat ..).trans hdata)⟩

theorem headerLength_read_write {m : Bytes} (hm : Sendable m) :
    headerLength (((Block.alloc 4 fun _ => 0).write 0 (netBytes m.length)).read 0 4) =
      m.length := by
  have hlt := (Nat.le_add_left m.length 4).trans_lt (frame_length_lt hm.2)
  have hlen := length_netBytes m.length
  rw [Block.read_write _ _ _ hlen.ge, List.take_of_length_le hlen.le, headerLength_netBytes hlt]

/-- What a call of `recvMsg` has done when it returns: it has read a header, and then at
most as many bytes as the header announces. -/
structure RecvMsgDone (env : Env) (inc : Incoming) (r : Received) (inc' : Incoming) (hdr : ℤ)
    (obj : Block) (mid : Incoming) : Prop where
  header : ReadnDone env.answers inc (Block.alloc 4 fun _ => 0) 4 (hdr, obj, mid)
  len : r.len = headerLength (obj.read 0 4)
  calls : mid.calls ≤ inc'.calls
  ret_eq_neg_one_iff : r.ret = -1 ↔ env.answers.Fails mid.calls inc'.calls
  failsAfter_iff : r.ret = -1 ↔
    ∃ u, env.answers.FailsAfter mid.calls r.len.toNat mid.pending.length u
  taken : ∃ got, mid.pending = got ++ inc'.pending ∧ got.length ≤ r.len.toNat ∧
    r.data.read 0 got.length = got ∧ (r.ret ≠ -1 → r.ret = got.length)

theorem recvMsg_done {env : Env} {fuel : ℕ} {inc inc' : Incoming} {r : Received}
    (h : recvMsg env fuel inc = some (r, inc')) :
    ∃ hdr obj mid,
      env.platform.readn fuel inc (Block.alloc 4 fun _ => 0) (4 : ℕ) = some (hdr, obj, mid) ∧
      RecvMsgDone env inc r inc' hdr obj mid := by
  obtain ⟨hdr, obj, mid, data, fin, hhdr, hlen, hdata, hblock, hinc⟩ := Platform.recvMsg_eq_some h
  rw [Platform.readn_toNat] at hdata
  have hpayload := readn_done hdata
  have hafter := ret_eq_neg_one_iff_failsAfter hdata
  have hsame : inc'.pending = fin.pending ∧ inc'.calls = fin.calls := by
    rw [hinc]
    split_ifs
    · exact ⟨rfl, rfl⟩
    · exact ⟨rfl, rfl⟩
  obtain ⟨hpend, hcalls⟩ := hsame
  refine ⟨hdr, obj, mid, hhdr, readn_done hhdr, hlen, ?_, ?_, hafter, ?_⟩
  · rw [hcalls]
    exact hpayload.calls
  · rw [hcalls]
    exact hpayload.ret_eq_neg_one_iff
  · obtain ⟨got, hgot, hstore, hle, hcount⟩ := hpayload.taken
    dsimp only at hgot hstore hcount
    refine ⟨got, by rw [hpend]; exact hgot, hle, ?_, fun hret => (hcount hret).1⟩
    rcases Nat.eq_zero_or_pos got.length with hzero | hpos
    · rw [List.length_eq_zero_iff.mp hzero]
      rfl
    · rw [hblock, Block.read_write_of_le _ _ _ _ (by omega), hstore,
        Block.read_write _ _ _ le_rfl, List.take_length]

theorem RecvMsgDone.consumed {env : Env} {inc inc' mid : Incoming} {r : Received} {hdr : ℤ}
    {obj : Block} (h : RecvMsgDone env inc r inc' hdr obj mid) {ms : List Bytes}
    (hms : ∀ m ∈ ms, Sendable m) {k : ℕ} (hp : inc.pending = (stream ms).take k)
    (hok : hdr ≠ -1) (hret : 0 < r.ret) :
    ∃ m ∈ ms.head?, r.ret ≤ m.length ∧
      inc.pending = netBytes m.length ++ m.take r.ret.toNat ++ inc'.pending ∧
      r.data.read 0 r.ret.toNat = m.take r.ret.toNat := by
  obtain ⟨got, hgot, hobj, -, hall⟩ := h.header.taken
  obtain ⟨body, hbody, hle, hread, hcount⟩ := h.taken
  have hnum := hcount (by omega)
  dsimp only at hgot hobj hall
  rcases (hall hok).2 with h4 | hnil
  · -- the header is there, and what follows is the payload of its frame
    obtain ⟨m, ms', rfl, rfl, hpre⟩ := eq_netBytes_of_take (hp.symm.trans hgot) h4
    have hlen := h.len
    rw [hobj, headerLength_read_write (hms m (by simp))] at hlen
    rw [hbody] at hpre
    have hm := eq_take_of_isPrefix hpre (by omega)
    have htake : r.ret.toNat = body.length := by omega
    refine ⟨m, rfl, by omega, ?_, ?_⟩
    · rw [htake, ← hm, List.append_assoc, ← hbody, hgot]
    · rw [htake, ← hm, hread]
  · -- the stream has ended in the header
    rw [hnil] at hbody
    have hzero := (List.append_eq_nil_iff.mp hbody.symm).1
    rw [hzero, List.length_nil, Nat.cast_zero] at hnum
    omega

/-- When a call of `recv` fails while the header is read, one fails again while those bytes
are read that the part of the header that has come announces. -/
def ErrorsRepeat (σ : Schedule) (inc : Incoming) : Prop :=
  ∀ t, σ.FailsAfter inc.calls 4 inc.pending.length t →
    let come := min (σ.offered inc.calls t) inc.pending.length
    let announced := headerLength (headerObject (inc.pending.take come))
    ∃ u, σ.FailsAfter (inc.calls + t + 1) announced.toNat (inc.pending.length - come) u

theorem RecvMsgDone.errorsRepeat_iff {env : Env} {fuel : ℕ} {inc inc' mid : Incoming}
    {r : Received} {hdr : ℤ} {obj : Block}
    (hhdr : env.platform.readn fuel inc (Block.alloc 4 fun _ => 0) (4 : ℕ) = some (hdr, obj, mid))
    (h : RecvMsgDone env inc r inc' hdr obj mid) :
    ErrorsRepeat env.answers inc ↔ (hdr = -1 → r.ret = -1) := by
  have hagree : ∀ t, ReadnFailed env.answers inc (Block.alloc 4 fun _ => 0) 4 t (hdr, obj, mid) →
      let come := min (env.answers.offered inc.calls t) inc.pending.length
      (r.ret = -1 ↔ ∃ u, env.answers.FailsAfter (inc.calls + t + 1)
        (headerLength (headerObject (inc.pending.take come))).toNat
        (inc.pending.length - come) u) := by
    intro t ht
    obtain ⟨hafter, hcalls, hbuf, hpend⟩ := ht
    dsimp only at hcalls hbuf hpend ⊢
    have hobj : headerObject (inc.pending.take
        (min (env.answers.offered inc.calls t) inc.pending.length)) = obj.read 0 4 := by
      rw [hbuf, headerObject, List.take_take, min_eq_right hafter.short.le]
    rw [h.failsAfter_iff, h.len, hcalls, hpend, List.length_drop, hobj]
  constructor
  · intro hrepeat hneg
    obtain ⟨t, ht⟩ := exists_readnFailed hhdr hneg
    exact (hagree t ht).mpr (hrepeat t ht.after)
  · intro himp t ht
    have hneg := (ret_eq_neg_one_iff_failsAfter hhdr).mpr ⟨t, ht⟩
    obtain ⟨t', ht'⟩ := exists_readnFailed hhdr hneg
    obtain rfl := ht.unique ht'.after
    exact (hagree t ht').mp (himp hneg)

/-- For every stream that `sendMsg` produces, cut anywhere, and every schedule. `recvMsg`
returns if the stream has an end, and a call that starts at a frame and returns stays
aligned exactly when an error while it reads the header is followed by one while it reads
what the part of the header announces. -/
theorem recvMsg_aligned_iff (env : Env) (ms : List Bytes) (hms : ∀ m ∈ ms, Sendable m) (k : ℕ)
    (inc : Incoming) (hp : inc.pending = (stream ms).take k) :
    (inc.eof = true → ∀ fuel, 2 ^ 32 < fuel → ∃ r inc', recvMsg env fuel inc = some (r, inc')) ∧
    ∀ fuel r inc', recvMsg env fuel inc = some (r, inc') →
      (Aligned env.answers ms inc r inc' ↔ ErrorsRepeat env.answers inc) := by
  refine ⟨fun heof fuel hfuel => recvMsg_returns env heof hfuel, ?_⟩
  intro fuel r inc' hrun
  obtain ⟨hdr, obj, mid, hhdr, hdone⟩ := recvMsg_done hrun
  rw [hdone.errorsRepeat_iff hhdr]
  constructor
  · intro halign hneg
    have hfails : env.answers.Fails inc.calls mid.calls := hdone.header.ret_eq_neg_one_iff.mp hneg
    exact halign.failed (hfails.mono le_rfl hdone.calls)
  · intro himp
    constructor
    · intro hret
      apply hdone.consumed hms hp _ hret
      intro hneg
      have := himp hneg
      omega
    · intro hfails
      rcases hfails.split mid.calls with hf | hf
      · exact himp (hdone.header.ret_eq_neg_one_iff.mpr hf)
      · exact hdone.ret_eq_neg_one_iff.mpr hf

/-- The header in two pieces and a payload of one byte; the next call would fail. -/
theorem recvMsg_aligned_iff_one_byte :
    ∃ r inc', recvMsg ⟨fun i => if i = 3 then .fail .other else .upTo 2, fun _ _ => 170⟩ 10
        { pending := [0, 0, 0, 1, 65], eof := true } = some (r, inc') ∧
      Aligned (fun i => if i = 3 then .fail .other else .upTo 2) [[65]]
        { pending := [0, 0, 0, 1, 65], eof := true } r inc' := by
  have hsome : (recvMsg ⟨fun i => if i = 3 then .fail .other else .upTo 2, fun _ _ => 170⟩ 10
    { pending := [0, 0, 0, 1, 65], eof := true }).isSome := by decide
  obtain ⟨⟨r, inc'⟩, hrun⟩ := Option.isSome_iff_exists.mp hsome
  refine ⟨r, inc', hrun, ((recvMsg_aligned_iff _ [[65]] (by simp [Sendable, INT_MAX]) 5 _
    (by decide)).2 10 r inc' hrun).mpr ?_⟩
  -- the two calls before the one that fails have offered the whole header
  intro t ht
  have h3 : t = 3 := by
    obtain ⟨e, he⟩ := ht.fails
    dsimp only at he
    split_ifs at he with heq
    omega
  subst h3
  exact absurd ht.short (by decide)

/-- Two bytes of the header arrive and then an error: the length is that of the two bytes,
and the call returns 0. -/
theorem header_error_unnoticed :
    ¬ ∀ (env : Env) (ms : List Bytes) (k : ℕ) (inc : Incoming) (fuel : ℕ) (r : Received)
      (inc' : Incoming), (∀ m ∈ ms, Sendable m) → inc.pending = (stream ms).take k →
      recvMsg env fuel inc = some (r, inc') → Aligned env.answers ms inc r inc' := by
  intro h
  have halign := h ⟨fun i => if i = 1 then .fail .other else .upTo 2, fun _ _ => 170⟩ [[65]] 5
    { pending := [0, 0, 0, 1, 65], eof := true } 10 _ _ (by simp [Sendable, INT_MAX]) (by decide)
    rfl
  have hneg := halign.failed ⟨1, by decide, by decide, .other, rfl⟩
  exact absurd hneg (by decide)

end NetworkPrograms.Framing
