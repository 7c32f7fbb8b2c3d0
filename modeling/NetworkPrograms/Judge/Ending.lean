import NetworkPrograms.Framing.Delivery

/-!
# A connection of the lab task that ends

The receiving side of `test_server.cpp` on a connection that ends after some of
the bytes that the client has sent. While bytes remain `recv` hands over some of
them; after the last byte each call returns 0 or -1. `recvMsg` does not look at
the result of reading the header, and the main loop takes every result but 0 for
the length of a message.
-/
namespace NetworkPrograms.Judge.Ending

open Transport Words Frames Framing

/-- What the server does not decide: the counts that `recv` returns while bytes
remain, which of the calls after the last byte return -1 instead of 0, and the
contents of the blocks `malloc` returns. -/
structure Kernel where
  count : ℕ → ℕ
  fails : ℕ → Bool
  junk : ℕ → ℤ → UInt8

/-- The bytes before the end, the calls of `recv` that handed over bytes and those
after the last byte, and the allocations. -/
structure Connection where
  pending : Bytes
  calls : ℕ := 0
  ended : ℕ := 0
  mallocs : ℕ := 0

def recv (k : Kernel) (c : Connection) (count : ℤ) : (ℤ × Bytes) × Connection :=
  if c.pending = [] then
    ((if k.fails c.ended then -1 else 0, []), { c with ended := c.ended + 1 })
  else
    let len := min (max 1 (k.count c.calls)) (min count.toNat c.pending.length)
    ((len, c.pending.take len), { c with pending := c.pending.drop len, calls := c.calls + 1 })

/-- `readn` and `recvMsg` run on such a connection. Nothing is read from it once it has been
closed. -/
def Kernel.platform (k : Kernel) : Platform Connection where
  recv c count := some (recv k c count)
  malloc c := (k.junk c.mallocs, { c with mallocs := c.mallocs + 1 })
  close c := c

/-- The server: the connection, whether it is in the interest list, the strings
passed to `commit`, and whether the constructor of `std::string` has thrown. -/
structure Server where
  conn : Connection
  watched : Bool := true
  committed : List Bytes := []
  thrown : Bool := false

/-- An event on the connection. A negative length is a size no string can have. -/
def Server.event (k : Kernel) (fuel : ℕ) (s : Server) : Option Server :=
  if s.watched = true ∧ s.thrown = false then do
    let (r, conn) ← k.platform.recvMsg fuel s.conn
    let len := r.ret
    if len = 0 then some { s with conn := conn, watched := false }
    else if len < 0 then some { s with conn := conn, thrown := true }
    else some { s with conn := conn, committed := s.committed ++ [r.data.read 0 len.toNat] }
  else some s

def Server.run (k : Kernel) (fuel : ℕ) : ℕ → Server → Option Server
  | 0, s => some s
  | n + 1, s => do
    let t ← s.event k fuel
    Server.run k fuel n t

/-- The server reaches a state by handling `n` events, every call returning. -/
def Reaches (k : Kernel) (n : ℕ) (s t : Server) : Prop :=
  ∃ N, ∀ fuel, N ≤ fuel → s.run k fuel n = some t

/-- The bytes that come of the message at which the stream is cut. -/
def remainder : List Bytes → ℕ → Bytes
  | [], _ => []
  | m :: ms, cut =>
    if 4 + m.length ≤ cut then remainder ms (cut - (4 + m.length)) else (frame m).take cut

/-- The cut falls before a header, or into one whose bytes so far are zero; or it
falls into or right behind a header and the call that waits for the message finds
the end of the stream, not an error. -/
def CleanEnd (k : Kernel) (rest : Bytes) : Prop :=
  (rest.length < 4 ∧ ((∀ b ∈ rest, b = 0) ∨ k.fails 1 = false)) ∨
    (rest.length = 4 ∧ k.fails 0 = false)

variable {k : Kernel}

/-! ## Reading -/

theorem recv_of_nil {c : Connection} (h : c.pending = []) (count : ℤ) :
    recv k c count =
      ((if k.fails c.ended then -1 else 0, []), { c with ended := c.ended + 1 }) := by
  rw [recv, if_pos h]

theorem recv_of_ne_nil {c : Connection} (h : c.pending ≠ []) {count : ℤ} (hc : 0 < count) :
    ∃ len : ℕ, 0 < len ∧ len ≤ count ∧ len ≤ c.pending.length ∧
      recv k c count = (((len : ℤ), c.pending.take len),
        { c with pending := c.pending.drop len, calls := c.calls + 1 }) := by
  have hl : 0 < c.pending.length := List.length_pos_iff.mpr h
  refine ⟨min (max 1 (k.count c.calls)) (min count.toNat c.pending.length), ?_, ?_, ?_, ?_⟩
  · omega
  · omega
  · omega
  · rw [recv, if_neg h]

theorem Kernel.hands (k : Kernel) : k.platform.Hands Connection.pending := by
  intro c count hc len bytes c' hcall
  have hrecv : recv k c count = ((len, bytes), c') := Option.some.inj hcall
  by_cases hnil : c.pending = []
  · rw [recv_of_nil hnil] at hrecv
    cases hrecv
    cases k.fails c.ended
    · exact .inr (.inl rfl)
    · exact .inl rfl
  · obtain ⟨j, h0, hle, havail, he⟩ := recv_of_ne_nil (k := k) hnil hc
    rw [he] at hrecv
    cases hrecv
    exact .inr (.inr ⟨j, rfl, h0, hle, havail, rfl, rfl⟩)

/-- Between two passes of `readn` no call has met the end, and nothing was allocated. -/
structure Kept (c : Connection) (s : ReadnState Connection) : Prop where
  ended : s.inc.ended = c.ended
  mallocs : s.inc.mallocs = c.mallocs

theorem Kept.again {c : Connection} {n : ℕ} {s t : ReadnState Connection} (hs : Kept c s)
    (h : k.platform.ReadnStep Connection.pending n s (.again t)) : Kept c t := by
  cases h with
  | blocked => exact hs
  | handed pos le avail call taken rest =>
    have hcall := Option.some.inj call
    have hnil : s.inc.pending ≠ [] := List.length_pos_iff.mp (pos.trans_le avail)
    obtain ⟨j, -, -, -, he⟩ :=
      recv_of_ne_nil (k := k) hnil ((Int.natCast_pos.mpr pos).trans_le le)
    rw [he] at hcall
    cases hcall
    exact ⟨hs.ended, hs.mallocs⟩

/-- What `readn` does with a request for `n` bytes: it stores them, or what there is
before the end, and reports the end by the last call. -/
structure ReadnSpec (k : Kernel) (c : Connection) (buf : Block) (n : ℕ) (ret : ℤ) (buf' : Block)
    (c' : Connection) : Prop where
  ret : ret = if n ≤ c.pending.length then (n : ℤ)
    else if k.fails c.ended then -1 else c.pending.length
  buf : buf' = buf.write 0 (c.pending.take n)
  pending : c'.pending = c.pending.drop n
  ended : c'.ended = if n ≤ c.pending.length then c.ended else c.ended + 1
  mallocs : c'.mallocs = c.mallocs

theorem recv_nonpos {c c' : Connection} {count len : ℤ} {bytes : Bytes} (hc : 0 < count)
    (h : k.platform.recv c count = some ((len, bytes), c')) (hlen : len ≤ 0) :
    c.pending = [] ∧ len = (if k.fails c.ended then -1 else 0) ∧
      c' = { c with ended := c.ended + 1 } := by
  have hrecv : recv k c count = ((len, bytes), c') := Option.some.inj h
  by_cases hnil : c.pending = []
  · rw [recv_of_nil hnil] at hrecv
    cases hrecv
    exact ⟨hnil, rfl, rfl⟩
  · obtain ⟨j, h0, -, -, he⟩ := recv_of_ne_nil (k := k) hnil hc
    rw [he] at hrecv
    cases hrecv
    omega

theorem ReadnSpec.of_end {c : Connection} {buf : Block} {n : ℕ} {s : ReadnState Connection}
    (hinv : Platform.ReadnInv Connection.pending c buf n s) (hs : Kept c s) (pos : 0 < s.count)
    (hnil : s.inc.pending = []) :
    ReadnSpec k c buf n (if k.fails s.inc.ended then -1 else n - s.count) s.buf
      { s.inc with ended := s.inc.ended + 1 } := by
  have hfill := hinv.filling
  rw [hnil] at hfill
  obtain ⟨hlt, hbuf, hrest, hcount⟩ := hfill.exhausted pos
  refine ⟨?_, hbuf, hnil.trans hrest.symm, ?_, hs.mallocs⟩
  · rw [if_neg hlt.not_ge, hs.ended, hcount, sub_sub_cancel]
  · rw [if_neg hlt.not_ge, ← hs.ended]

theorem readn_spec (k : Kernel) (c : Connection) (buf : Block) {n : ℕ} {fuel : ℕ}
    (hfuel : n < fuel) : ∃ ret buf' c', k.platform.readn fuel c buf n = some (ret, buf', c') ∧
      ReadnSpec k c buf n ret buf' c' := by
  have hkept : ∀ s t, Platform.ReadnInv Connection.pending c buf n s → Kept c s →
      k.platform.ReadnStep Connection.pending n s (.again t) → Kept c t :=
    fun _ _ _ hs hstep => hs.again hstep
  have hinit : Kept c ⟨buf, 0, n, c⟩ := ⟨rfl, rfl⟩
  obtain ⟨⟨ret, buf', c'⟩, hrun⟩ := Platform.readn_returns k.hands hkept hinit
    (fun _ _ _ _ => Option.some_ne_none _) hfuel
  refine ⟨ret, buf', c', hrun, ?_⟩
  obtain ⟨s, hinv, hs, hstep⟩ := Platform.readn_last k.hands hkept hinit hrun
  have h0 := hinv.count
  cases hstep with
  | finished hend =>
    obtain ⟨hle, hbuf, hrest⟩ := hinv.filling.complete (by omega)
    refine ⟨?_, hbuf, hrest, ?_, hs.mallocs⟩
    · rw [if_pos hle]
      omega
    · rw [if_pos hle]
      exact hs.ended
  | failed pos call =>
    obtain ⟨hnil, hlen, rfl⟩ := recv_nonpos pos call (by decide)
    have hspec := ReadnSpec.of_end (k := k) hinv hs pos hnil
    cases hf : k.fails s.inc.ended
    · rw [hf] at hlen
      cases hlen
    · rwa [hf] at hspec
  | ended pos call =>
    obtain ⟨hnil, hlen, rfl⟩ := recv_nonpos pos call le_rfl
    have hspec := ReadnSpec.of_end (k := k) hinv hs pos hnil
    cases hf : k.fails s.inc.ended
    · rwa [hf] at hspec
    · rw [hf] at hlen
      cases hlen

/-! ## One message -/

/-- What `recvMsg` returns when a header announces `n` bytes. -/
def returned (k : Kernel) (c : Connection) (n : ℕ) : ℤ :=
  if n ≤ (c.pending.drop 4).length then n
  else if k.fails (if 4 ≤ c.pending.length then c.ended else c.ended + 1) then -1
  else (c.pending.drop 4).length

/-- `recvMsg` reads a header, of which bytes may be missing, and then the message. -/
theorem recvMsg_spec (k : Kernel) (c : Connection) {n : ℕ}
    (hlen : headerLength (headerObject c.pending) = n) :
    ∃ buf c', (∀ fuel, 4 + n < fuel →
        k.platform.recvMsg fuel c = some (⟨returned k c n, n, buf⟩, c')) ∧
      (∀ j ≤ n, j ≤ (c.pending.drop 4).length → buf.read 0 j = (c.pending.drop 4).take j) ∧
      c'.pending = (c.pending.drop 4).drop n ∧
      (n ≤ (c.pending.drop 4).length → 4 ≤ c.pending.length → c'.ended = c.ended) := by
  obtain ⟨ret, obj, mid, hmid, hobj⟩ :=
    readn_spec k c (Block.alloc 4 fun _ => 0) (Nat.lt_succ_self 4)
  obtain ⟨Len, data, fin, hfin, hdata⟩ := readn_spec k { mid with mallocs := mid.mallocs + 1 }
    (Block.alloc ((n + 1 : ℤ) % 2 ^ 64) (k.junk mid.mallocs)) (Nat.lt_succ_self n)
  have hhdr : headerLength (obj.read 0 4) = n := by
    rw [hobj.buf]
    exact hlen
  have hret := hdata.ret
  have hended := hdata.ended
  simp only [hobj.pending, hobj.ended] at hret hended
  refine ⟨data.write n [0], fin, ?_, ?_, ?_, ?_⟩
  · intro fuel hfuel
    have hrun := Platform.recvMsg_of_readn (p := k.platform)
      (Loop.run_mono hmid (show 5 ≤ fuel by omega)) hhdr
      (Loop.run_mono hfin (show n + 1 ≤ fuel by omega))
    rw [hrun, hret, returned]
    simp only [Kernel.platform, ite_self]
  · intro j hj hle
    rw [Block.read_write_of_le _ _ _ _ (by omega), hdata.buf, hobj.pending,
      Block.read_write _ _ _ (by rw [List.length_take]; omega), List.take_take, min_eq_left hj]
  · rw [hdata.pending, hobj.pending]
  · intro hn h4
    rw [hended, if_pos hn, if_pos h4]

theorem headerLength_partial {w j : ℕ} (hw : w < 2 ^ 31) (hj : j < 4) :
    ∃ n : ℕ, headerLength (headerObject ((netBytes w).take j)) = n ∧
      (n = 0 ↔ ∀ b ∈ (netBytes w).take j, b = 0) := by
  have ha : (UInt8.ofNat (w / 2 ^ 24)).toNat < 2 ^ 7 := by
    rw [UInt8.toNat_ofNat']
    omega
  have hzero : ∀ b : UInt8, b = 0 ↔ b.toNat = 0 := fun b => UInt8.toNat_inj.symm
  interval_cases j
  · exact ⟨0, headerLength_of_bytes 0 0 0 0 (by decide), by simp⟩
  · refine ⟨_, headerLength_of_bytes (UInt8.ofNat (w / 2 ^ 24)) 0 0 0 ha, ?_⟩
    simp [netBytes, hostBytes, hzero]
  · refine ⟨_, headerLength_of_bytes (UInt8.ofNat (w / 2 ^ 24)) (UInt8.ofNat (w / 2 ^ 16))
      0 0 ha, ?_⟩
    simp [netBytes, hostBytes, hzero]
    omega
  · refine ⟨_, headerLength_of_bytes (UInt8.ofNat (w / 2 ^ 24)) (UInt8.ofNat (w / 2 ^ 16))
      (UInt8.ofNat (w / 2 ^ 8)) 0 ha, ?_⟩
    simp [netBytes, hostBytes, hzero]
    omega

/-! ## Events -/

/-- A server that runs and has the connection in its interest list. No call has met
the end yet. -/
structure Live (s : Server) (pending : Bytes) : Prop where
  watched : s.watched = true
  thrown : s.thrown = false
  pending : s.conn.pending = pending
  ended : s.conn.ended = 0

/-- The state after an event in which `recvMsg` returned some length. -/
def Server.after (s : Server) (len : ℤ) (buf : Block) (conn : Connection) : Server :=
  if len = 0 then { s with conn := conn, watched := false }
  else if len < 0 then { s with conn := conn, thrown := true }
  else { s with conn := conn, committed := s.committed ++ [buf.read 0 len.toNat] }

theorem event_of_recvMsg {s : Server} (hw : s.watched = true) (ht : s.thrown = false) {fuel : ℕ}
    {r : Received} {conn : Connection} (h : k.platform.recvMsg fuel s.conn = some (r, conn)) :
    s.event k fuel = some (s.after r.ret r.data conn) := by
  simp only [Server.event, hw, ht, h, Server.after, and_self, if_true, Option.bind_eq_bind,
    Option.bind_some]
  split_ifs <;> rfl

/-- The server handles the next event and is in a new state. -/
def Handles (k : Kernel) (s t : Server) : Prop := ∃ N, ∀ fuel, N ≤ fuel → s.event k fuel = some t

theorem Live.handles {s : Server} {pending : Bytes} (h : Live s pending) {n : ℕ}
    (hlen : headerLength (headerObject pending) = n) :
    ∃ buf conn, Handles k s (s.after (returned k s.conn n) buf conn) ∧
      (∀ j ≤ n, j ≤ (pending.drop 4).length → buf.read 0 j = (pending.drop 4).take j) ∧
      conn.pending = (pending.drop 4).drop n ∧
      (n ≤ (pending.drop 4).length → 4 ≤ pending.length → conn.ended = 0) := by
  obtain ⟨hw, ht, rfl, hended⟩ := h
  obtain ⟨buf, conn, hrun, hread, hpending, hsame⟩ := recvMsg_spec k s.conn hlen
  refine ⟨buf, conn, ⟨4 + n + 1, ?_⟩, hread, hpending, ?_⟩
  · intro fuel hfuel
    exact event_of_recvMsg hw ht (hrun fuel (by omega))
  · intro hn h4
    exact (hsame hn h4).trans hended

theorem Live.handles_whole {s : Server} {m rest : Bytes} (h : Live s (frame m ++ rest))
    (hm : Sendable m) :
    ∃ t, Handles k s t ∧ Live t rest ∧ t.committed = s.committed ++ [m] := by
  have hlt := (Nat.le_add_left m.length 4).trans_lt (frame_length_lt hm.2)
  have hlen : headerLength (headerObject (frame m ++ rest)) = m.length := by
    rw [frame, List.append_assoc, headerLength_headerObject hlt]
  obtain ⟨buf, conn, hs, hread, hpending, hended⟩ := h.handles (k := k) hlen
  rw [drop_frame] at hread hpending hended
  have hle : m.length ≤ (m ++ rest).length := by simp
  have hret : returned k s.conn m.length = m.length := by
    rw [returned, h.pending, drop_frame, if_pos hle]
  have hpos := hm.1
  rw [hret, Server.after, if_neg (by omega), if_neg (by omega), Int.toNat_natCast,
    hread _ le_rfl hle, List.take_left] at hs
  refine ⟨_, hs, ⟨h.watched, h.thrown, ?_, hended hle (by simp; omega)⟩, rfl⟩
  rw [hpending, List.drop_left]

theorem Live.handles_nothing {s : Server} (h : Live s []) :
    ∃ conn, Handles k s { s with conn := conn, watched := false } := by
  have hlen : headerLength (headerObject []) = (0 : ℕ) :=
    headerLength_of_bytes 0 0 0 0 (by decide)
  obtain ⟨buf, conn, hs, -⟩ := h.handles (k := k) hlen
  exact ⟨conn, hs⟩

/-- The stream is cut inside a header. If the part that has come is not zero, the call
that waits for the message decides. -/
theorem Live.handles_cut_header {s : Server} {m : Bytes} {cut : ℕ}
    (h : Live s ((frame m).take cut)) (hm : Sendable m) (hcut : cut < 4) :
    ∃ len buf conn, Handles k s (s.after len buf conn) ∧ len ≤ 0 ∧
      (len = 0 ↔ CleanEnd k ((frame m).take cut)) := by
  have hlt := (Nat.le_add_left m.length 4).trans_lt (frame_length_lt hm.2)
  have htake : (frame m).take cut = (netBytes m.length).take cut := by
    rw [frame, List.take_append_of_le_length (by rw [length_netBytes]; omega)]
  have hcutlen : ((frame m).take cut).length = cut :=
    List.length_take_of_le (by rw [length_frame]; omega)
  obtain ⟨n, hlen, hzero⟩ := headerLength_partial hlt hcut
  rw [← htake] at hlen hzero
  obtain ⟨buf, conn, hs, -⟩ := h.handles (k := k) hlen
  have hret : returned k s.conn n = if n = 0 then 0 else if k.fails 1 then -1 else 0 := by
    have hnil : ((frame m).take cut).drop 4 = [] := List.drop_of_length_le (by omega)
    rw [returned, h.pending, h.ended, hnil, hcutlen, if_neg (show ¬ 4 ≤ cut by omega)]
    by_cases hn : n = 0 <;> simp [hn]
  refine ⟨_, buf, conn, hs, ?_, ?_⟩
  · rw [hret]
    split_ifs <;> omega
  · rw [hret, CleanEnd, hcutlen, ← hzero]
    have hne : cut ≠ 4 := by omega
    cases k.fails 1 <;> simp [hcut, hne]

/-- The stream is cut behind a header: the part of the message that has come is taken
for the message, unless it is empty. -/
theorem Live.handles_cut_message {s : Server} {m : Bytes} {cut : ℕ}
    (h : Live s ((frame m).take cut)) (hm : Sendable m) (h4 : 4 ≤ cut)
    (hcut : cut < 4 + m.length) :
    ∃ len buf conn, Handles k s (s.after len buf conn) ∧
      (len = 0 ↔ CleanEnd k ((frame m).take cut)) ∧
      (0 < len → buf.read 0 len.toNat = m.take (cut - 4)) := by
  have hlt := (Nat.le_add_left m.length 4).trans_lt (frame_length_lt hm.2)
  have htake := take_frame_of_le m h4
  have hlen : headerLength (headerObject ((frame m).take cut)) = m.length := by
    rw [htake, headerLength_headerObject hlt]
  have hdrop : ((frame m).take cut).drop 4 = m.take (cut - 4) := by
    rw [htake, drop_netBytes_append]
  have hshort : (m.take (cut - 4)).length = cut - 4 := by
    rw [List.length_take]
    omega
  have hcutlen : ((frame m).take cut).length = cut :=
    List.length_take_of_le (by rw [length_frame]; omega)
  obtain ⟨buf, conn, hs, hread, -⟩ := h.handles (k := k) hlen
  have hret : returned k s.conn m.length = if k.fails 0 then -1 else ((cut - 4 : ℕ) : ℤ) := by
    rw [returned, h.pending, h.ended, hdrop, hshort, hcutlen, if_pos h4,
      if_neg (show ¬ m.length ≤ cut - 4 by omega)]
  refine ⟨_, buf, conn, hs, ?_, ?_⟩
  · rw [hret, CleanEnd, hcutlen]
    cases k.fails 0 <;> simp <;> omega
  · rw [hret]
    split_ifs
    · intro hneg
      omega
    · intro _
      rw [Int.toNat_natCast, hread _ (by omega) (by rw [hdrop, hshort]), hdrop,
        List.take_of_length_le hshort.le]

theorem Live.handles_last {s : Server} {m : Bytes} {cut : ℕ} (h : Live s ((frame m).take cut))
    (hm : Sendable m) (hcut : cut < 4 + m.length) :
    ∃ len buf conn, Handles k s (s.after len buf conn) ∧
      (len = 0 ↔ CleanEnd k ((frame m).take cut)) ∧
      (0 < len → buf.read 0 len.toNat ≠ m) := by
  rcases lt_or_ge cut 4 with h4 | h4
  · obtain ⟨len, buf, conn, hs, hle, hclean⟩ := h.handles_cut_header (k := k) hm h4
    exact ⟨len, buf, conn, hs, hclean, fun hpos => absurd hpos hle.not_gt⟩
  · obtain ⟨len, buf, conn, hs, hclean, hread⟩ := h.handles_cut_message (k := k) hm h4 hcut
    refine ⟨len, buf, conn, hs, hclean, ?_⟩
    intro hpos heq
    rw [hread hpos] at heq
    have hlen := congrArg List.length heq
    have := hm.1
    rw [List.length_take] at hlen
    omega

/-! ## Runs -/

theorem Reaches.zero (k : Kernel) (s : Server) : Reaches k 0 s s := ⟨0, fun _ _ => rfl⟩

theorem Reaches.of_handles {n : ℕ} {s t u : Server} (h : Handles k s t) (ht : Reaches k n t u) :
    Reaches k (n + 1) s u := by
  obtain ⟨N, hN⟩ := h
  obtain ⟨N', hN'⟩ := ht
  refine ⟨max N N', ?_⟩
  intro fuel hfuel
  simp only [Server.run, hN fuel (by omega), Option.bind_eq_bind, Option.bind_some]
  exact hN' fuel (by omega)

theorem Reaches.unique {n : ℕ} {s t u : Server} (ht : Reaches k n s t) (hu : Reaches k n s u) :
    t = u := by
  obtain ⟨N, hN⟩ := ht
  obtain ⟨N', hN'⟩ := hu
  have h := hN (max N N') (by omega)
  rw [hN' (max N N') (by omega)] at h
  exact (Option.some.inj h).symm

theorem reaches_of_removed {s : Server} (h : s.watched = false) (n : ℕ) : Reaches k n s s := by
  induction n with
  | zero => exact .zero k s
  | succ n ih =>
    refine .of_handles ⟨0, fun fuel _ => ?_⟩ ih
    simp [Server.event, h]

/-- The stream of some messages, cut: either the cut is inside the first frame, or
the first message is whole. -/
theorem take_stream_cons (m : Bytes) (ms : List Bytes) (cut : ℕ) :
    (stream (m :: ms)).take cut = if 4 + m.length ≤ cut
      then frame m ++ (stream ms).take (cut - (4 + m.length)) else (frame m).take cut := by
  rw [stream_cons]
  split_ifs with hcut
  · rw [List.take_append, List.take_of_length_le (by rw [length_frame]; exact hcut), length_frame]
  · rw [List.take_append_of_le_length (by rw [length_frame]; omega)]

/-- After a clean end every message that has come whole has been committed and
nothing else is. -/
theorem Live.good_of_cleanEnd {s : Server} {ms : List Bytes} {cut : ℕ}
    (h : Live s ((stream ms).take cut)) (hms : ∀ m ∈ ms, Sendable m)
    (hclean : CleanEnd k (remainder ms cut)) (n : ℕ) :
    ∃ t pre, Reaches k n s t ∧ pre <+: ms ∧ t.committed = s.committed ++ pre ∧
      t.thrown = false := by
  induction ms generalizing s cut n with
  | nil =>
    cases n with
    | zero => exact ⟨s, [], .zero k s, by simp, by simp, h.thrown⟩
    | succ n =>
      rw [stream_nil, List.take_nil] at h
      obtain ⟨conn, hs⟩ := h.handles_nothing (k := k)
      exact ⟨_, [], (reaches_of_removed rfl n).of_handles hs, by simp, by simp, h.thrown⟩
  | cons m ms ih =>
    cases n with
    | zero => exact ⟨s, [], .zero k s, by simp, by simp, h.thrown⟩
    | succ n =>
      have hm := hms m (by simp)
      rw [take_stream_cons] at h
      rw [remainder] at hclean
      split_ifs at h hclean with hcut
      · obtain ⟨t, hst, ht, hcommitted⟩ := h.handles_whole (k := k) hm
        obtain ⟨u, pre, htu, hpre, hu, hthrown⟩ :=
          ih ht (fun m' hm' => hms m' (by simp [hm'])) hclean n
        refine ⟨u, m :: pre, htu.of_handles hst, ?_, ?_, hthrown⟩
        · exact (List.prefix_cons_inj m).mpr hpre
        · rw [hu, hcommitted, List.append_assoc, List.singleton_append]
      · obtain ⟨len, buf, conn, hs, hzero, -⟩ := h.handles_last (k := k) hm (by omega)
        rw [hzero.mpr hclean, Server.after, if_pos rfl] at hs
        refine ⟨_, [], (reaches_of_removed rfl n).of_handles hs, by simp, by simp, h.thrown⟩

/-- After any other end the server throws, or commits a string in place of a
message. -/
theorem Live.bad_of_not_cleanEnd {s : Server} {ms : List Bytes} {cut : ℕ}
    (h : Live s ((stream ms).take cut)) (hms : ∀ m ∈ ms, Sendable m)
    (hclean : ¬ CleanEnd k (remainder ms cut)) :
    ∃ n t, Reaches k n s t ∧ (t.thrown = true ∨ ∃ pre m rest str, ms = pre ++ m :: rest ∧
      t.committed = s.committed ++ (pre ++ [str]) ∧ str ≠ m) := by
  induction ms generalizing s cut with
  | nil =>
    refine absurd (.inl ⟨?_, .inl ?_⟩) hclean
    · exact Nat.succ_pos 3
    · intro b hb
      cases hb
  | cons m ms ih =>
    have hm := hms m (by simp)
    rw [take_stream_cons] at h
    rw [remainder] at hclean
    split_ifs at h hclean with hcut
    · obtain ⟨t, hst, ht, hcommitted⟩ := h.handles_whole (k := k) hm
      obtain ⟨n, u, htu, hu⟩ := ih ht (fun m' hm' => hms m' (by simp [hm'])) hclean
      refine ⟨n + 1, u, htu.of_handles hst, hu.imp_right ?_⟩
      rintro ⟨pre, m', rest, str, rfl, hcomm, hne⟩
      refine ⟨m :: pre, m', rest, str, rfl, ?_, hne⟩
      rw [hcomm, hcommitted, List.append_assoc, List.singleton_append, List.cons_append]
    · obtain ⟨len, buf, conn, hs, hzero, hread⟩ := h.handles_last (k := k) hm (by omega)
      have hne : len ≠ 0 := fun h0 => hclean (hzero.mp h0)
      refine ⟨1, _, (Reaches.zero k _).of_handles hs, ?_⟩
      rw [Server.after, if_neg hne]
      split_ifs with hneg
      · exact .inl rfl
      · exact .inr ⟨[], m, ms, _, rfl, rfl, hread (by omega)⟩

/-- The server behind a connection that ends after some bytes of the stream. -/
def start (wire : Bytes) (cut : ℕ) : Server := { conn := { pending := wire.take cut } }

/-- The strings committed are the first of the messages sent, and no string of a
negative length is built, exactly when the connection ends cleanly. -/
theorem commits_prefix_iff {σ : Schedule} (hσ : σ.NeverFails) (hz : σ.FinitelyManyZeros) {fd : ℤ}
    (hfd : 0 ≤ fd) (ms : List Bytes) (hms : ∀ m ∈ ms, Sendable m) (k : Kernel) (cut : ℕ) :
    ∃ N out, (∀ fuel, N ≤ fuel → sendAll σ fuel fd ms {} = some out) ∧
      ((∀ n, ∃ t, Reaches k n (start out.wire cut) t ∧ t.committed <+: ms ∧ t.thrown = false) ↔
        CleanEnd k (remainder ms cut)) := by
  obtain ⟨N, out, hrun, hwire⟩ := sendAll_spec hσ hz hfd ms hms {}
  rw [List.nil_append] at hwire
  have hlive : Live (start out.wire cut) ((stream ms).take cut) := by
    rw [← hwire]
    exact ⟨rfl, rfl, rfl, rfl⟩
  refine ⟨N, out, hrun, ?_, ?_⟩
  · intro hgood
    by_contra hclean
    obtain ⟨n, t, hreach, hbad⟩ := hlive.bad_of_not_cleanEnd hms hclean
    obtain ⟨t', hreach', hprefix, hthrown⟩ := hgood n
    cases hreach.unique hreach'
    rcases hbad with hbad | ⟨pre, m, rest, str, rfl, hcomm, hne⟩
    · rw [hthrown] at hbad
      cases hbad
    · rw [hcomm] at hprefix
      change [] ++ (pre ++ [str]) <+: pre ++ m :: rest at hprefix
      rw [List.nil_append, List.prefix_append_right_inj, List.cons_prefix_cons] at hprefix
      exact hne hprefix.1
  · intro hclean n
    obtain ⟨t, pre, hreach, hpre, hcomm, hthrown⟩ := hlive.good_of_cleanEnd hms hclean n
    refine ⟨t, hreach, ?_, hthrown⟩
    rw [hcomm]
    exact hpre

/-- A stream of two bytes with their header that ends in order, read byte by byte. -/
theorem commits_prefix_iff_whole :
    ∃ N out, (∀ fuel, N ≤ fuel → sendAll (fun _ => .upTo 1) fuel 3 [[65, 66]] {} = some out) ∧
      ∀ n, ∃ t, Reaches ⟨fun _ => 1, fun _ => false, fun _ _ => 0⟩ n (start out.wire 6) t ∧
        t.committed <+: [[65, 66]] ∧ t.thrown = false := by
  have hσ : Schedule.NeverFails fun _ => .upTo 1 := fun _ => ⟨1, rfl⟩
  obtain ⟨N, out, hrun, hiff⟩ := commits_prefix_iff hσ ⟨0, fun _ _ h => by cases h⟩
    (show (0 : ℤ) ≤ 3 by decide) [[65, 66]] (by simp [Sendable, INT_MAX])
    ⟨fun _ => 1, fun _ => false, fun _ _ => 0⟩ 6
  exact ⟨N, out, hrun, hiff.mpr (.inl ⟨by decide, .inl fun _ hb => absurd hb List.not_mem_nil⟩)⟩

/-- The peer closes after the first of the two bytes: the server commits that byte as
a message. The connection is reset right behind the header: the server builds a
string of length -1. -/
theorem truncated_message_committed :
    ((start (stream [[65, 66]]) 5).run ⟨fun _ => 1, fun _ => false, fun _ _ => 0⟩ 8 1).map
        Server.committed = some [[65]] ∧ ¬ [[65]] <+: [([65, 66] : Bytes)] ∧
      ((start (stream [[65, 66]]) 4).run ⟨fun _ => 1, fun _ => true, fun _ _ => 0⟩ 8 1).map
        Server.thrown = some true := by
  decide

end NetworkPrograms.Judge.Ending
