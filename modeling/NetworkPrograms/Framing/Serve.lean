import NetworkPrograms.Foundations.Interleaving
import NetworkPrograms.Framing.Robustness

/-!
# The server of framed messages

`main` of `serve.c` watches any number of connections with one epoll instance, level
triggered, and calls `recvMsg` for each that is ready. The call blocks until the message is
complete or the peer has closed, and the server handles nothing else in the meantime. Bytes
that arrive during the call are those that arrive before it returns, so a call is one step
that waits until it can return.

`recvMsg` closes the descriptor in the same case in which the loop removes it from the
interest set, so the open connections are those that are watched.
-/
namespace NetworkPrograms.Serve

open Function Transport Words Frames Framing Interleaving

/-- What the loop prints for a message, with `%s`. -/
def text (r : Received) : Bytes := cstring (r.data.read 0 r.data.size.toNat)

/-- A connection: the kernel's end of it, all that has arrived on it, and what the server has
printed for it. -/
structure Conn where
  inc : Incoming := { pending := [], eof := false }
  arrived : Bytes := []
  printed : List Bytes := []

namespace Conn

def arrive (c : Conn) (bytes : Bytes) : Conn :=
  { c with inc := { c.inc with pending := c.inc.pending ++ bytes }, arrived := c.arrived ++ bytes }

def hangup (c : Conn) : Conn := { c with inc := { c.inc with eof := true } }

/-- The connection after a message has been printed and its block freed. -/
def print (c : Conn) (r : Received) (inc : Incoming) : Conn :=
  { c with inc := inc, printed := c.printed ++ [text r] }

end Conn

/-- The open connections, the rest of the array `ep` with `none` for `listenfd`, and the
connections that have been closed. -/
structure Server where
  conn : ℕ → Option Conn := fun _ => none
  ep : List (Option ℕ) := []
  past : List Conn := []

/-- Bytes arrive or a peer closes; `epoll_wait` returns; `accept` returns a descriptor; a call
of `recvMsg` returns, with what the kernel has decided in it. -/
inductive Input where
  | arrive (fd : ℕ) (bytes : Bytes)
  | hangup (fd : ℕ)
  | wait (ep : List (Option ℕ))
  | accept (cfd : ℕ)
  | message (env : Env) (fuel : ℕ)

namespace Server

/-- The call of `recvMsg` for the first entry, if it returns. -/
def received (s : Server) (env : Env) (fuel : ℕ) : Option (ℕ × Conn × Received × Incoming) :=
  match s.ep with
  | some ccfd :: _ => do
    let c ← s.conn ccfd
    let (r, inc) ← recvMsg env fuel c.inc
    pure (ccfd, c, r, inc)
  | _ => none

def next (s : Server) : Input → Server
  | .arrive fd bytes => { s with conn := update s.conn fd ((s.conn fd).map (·.arrive bytes)) }
  | .hangup fd => { s with conn := update s.conn fd ((s.conn fd).map Conn.hangup) }
  | .wait ep => { s with ep := ep }
  | .accept cfd => { s with conn := update s.conn cfd (some {}), ep := s.ep.tail }
  | .message env fuel =>
    match s.received env fuel with
    | some (ccfd, c, r, inc) =>
      if r.ret = 0 then
        { conn := update s.conn ccfd none, ep := s.ep.tail,
          past := s.past ++ [{ c with inc := inc }] }
      else { s with conn := update s.conn ccfd (some (c.print r inc)), ep := s.ep.tail }
    | none => s

/-- `epoll_wait` reports connections with something to read, each of them once. A new
descriptor is not in use. No `recv` fails. -/
def Enabled (s : Server) : Input → Prop
  | .arrive fd _ | .hangup fd => ∃ c, s.conn fd = some c ∧ c.inc.eof = false
  | .wait ep => s.ep = [] ∧ ep.Nodup ∧
      ∀ fd, some fd ∈ ep → ∃ c, s.conn fd = some c ∧ (c.inc.pending ≠ [] ∨ c.inc.eof = true)
  | .accept cfd => s.ep.head? = some none ∧ s.conn cfd = none
  | .message env fuel => env.answers.NeverFails ∧ (s.received env fuel).isSome = true

def Reachable (s : Server) : Prop := Interleaving.Reachable next Enabled {} s

end Server

/-! ## When a call returns -/

/-- The message at the head of the stream is not complete, and more may come. -/
def Short (inc : Incoming) : Prop :=
  inc.eof = false ∧ inc.pending.length < 4 + (headerLength (headerObject inc.pending)).toNat

section
variable {env : Env} {inc : Incoming} {fuel : ℕ}

theorem readn_short (hσ : env.answers.NeverFails) (heof : inc.eof = false) {n : ℕ}
    (hshort : inc.pending.length < n) (buf : Block) :
    env.platform.readn fuel inc buf n = none := by
  by_contra hsome
  obtain ⟨r, hr⟩ := Option.ne_none_iff_exists'.mp hsome
  obtain ⟨s, hinv, hs, hstep⟩ := Env.readn_last hr
  obtain ⟨hcount, hlen⟩ := hinv.lengths
  cases hstep with
  | finished hend => omega
  | failed pos call =>
    obtain ⟨⟨e, hfail⟩, -⟩ := recv_eq_neg_one pos call
    obtain ⟨m, hm⟩ := hσ s.inc.calls
    rw [hm] at hfail
    cases hfail
  | ended pos call =>
    obtain ⟨-, -, hend, -⟩ := recv_eq_zero pos call
    rw [hs.eof, heof] at hend
    cases hend

theorem recvMsg_short (hσ : env.answers.NeverFails) (h : Short inc) :
    recvMsg env fuel inc = none := by
  obtain ⟨heof, hshort⟩ := h
  by_contra hsome
  obtain ⟨⟨r, inc'⟩, hrun⟩ := Option.ne_none_iff_exists'.mp hsome
  obtain ⟨hdr, obj, mid, data, fin, hhdr, hlen, hdata, -⟩ := Platform.recvMsg_eq_some hrun
  by_cases h4 : 4 ≤ inc.pending.length
  · -- the header is there, so the call waits for the payload
    obtain ⟨mid', hmid, hpend, hmideof, -⟩ := readn_spec hσ inc (Block.alloc 4 fun _ => 0)
      (.inr h4) (show 4 < fuel + 5 by omega)
    have heq := Loop.run_mono hhdr (show fuel ≤ fuel + 5 by omega)
    rw [Nat.cast_ofNat] at hmid
    cases hmid.symm.trans heq
    change r.len = headerLength (headerObject inc.pending) at hlen
    have hrest : (env.platform.malloc mid).2.eof = false := hmideof.trans heof
    have hleft : (env.platform.malloc mid).2.pending.length < r.len.toNat := by
      change mid.pending.length < _
      rw [hpend, List.length_drop, hlen]
      omega
    rw [Platform.readn_toNat, readn_short hσ hrest hleft] at hdata
    cases hdata
  · have hnone : env.platform.readn fuel inc (Block.alloc 4 fun _ => 0) (4 : ℕ) = none :=
      readn_short hσ heof (not_le.mp h4) _
    rw [Nat.cast_ofNat, hhdr] at hnone
    cases hnone

theorem recvMsg_isSome_iff (hσ : env.answers.NeverFails) :
    (∃ fuel, (recvMsg env fuel inc).isSome = true) ↔ ¬ Short inc := by
  constructor
  · rintro ⟨fuel, hsome⟩ hshort
    rw [recvMsg_short hσ hshort] at hsome
    cases hsome
  · intro hready
    have hbound : Ready inc (4 + (headerLength (headerObject inc.pending)).toNat) := by
      by_contra hnot
      simp only [Ready, not_or, Bool.not_eq_true, not_le] at hnot
      exact hready hnot
    obtain ⟨inc', hrun, -⟩ := recvMsg_spec hσ inc rfl hbound (Nat.lt_succ_self _)
    exact ⟨_, by rw [hrun]; rfl⟩

end

/-- What a call can return at the start of the frames of `rest`: nothing, when not even a
first byte of a payload has come; a whole message; a part of one. -/
inductive Returned (rest : List Bytes) (inc : Incoming) (r : Received) (inc' : Incoming) : Prop
  | ended (ret : r.ret = 0) (short : ∀ m ∈ rest.head?, inc.pending.length < 4 + m.length)
  | whole (m : Bytes) (tail : List Bytes) (split : rest = m :: tail) (ret : r.ret ≠ 0)
      (data : Delivery.Matches r (.whole m)) (pending : inc.pending = frame m ++ inc'.pending)
  | part (m : Bytes) (tail : List Bytes) (split : rest = m :: tail) (ret : r.ret ≠ 0) (k : ℕ)
      (pos : 0 < k) (short : k < m.length) (pending : inc.pending = (frame m).take (4 + k))
      (size : r.data.size = m.length + 1) (data : r.data.read 0 k = m.take k)
      (nul : r.data.read m.length 1 = [0])
      (nothing : inc'.pending = []) (eof : inc'.eof = true)

theorem short_of_part {inc : Incoming} {m : Bytes} (hm : Sendable m) (heof : inc.eof = false)
    (hlen : inc.pending.length < 4 + m.length)
    (hpart : inc.pending = (frame m).take inc.pending.length) : Short inc := by
  refine ⟨heof, ?_⟩
  by_cases h4 : 4 ≤ inc.pending.length
  · have hlt := (Nat.le_add_left m.length 4).trans_lt (frame_length_lt hm.2)
    rw [take_frame_of_le m h4] at hpart
    have hheader : headerLength (headerObject inc.pending) = m.length := by
      rw [hpart, headerLength_headerObject hlt]
    rw [hheader, Int.toNat_natCast]
    exact hlen
  · omega

theorem recvMsg_returned {env : Env} (hσ : env.answers.NeverFails) {fuel : ℕ}
    {inc inc' : Incoming} {r : Received} (hrun : recvMsg env fuel inc = some (r, inc'))
    {rest : List Bytes} (hrest : ∀ m ∈ rest, Sendable m) (hpre : inc.pending <+: stream rest) :
    Returned rest inc r inc' := by
  have hshort : ¬ Short inc := (recvMsg_isSome_iff hσ).mp ⟨fuel, by rw [hrun]; rfl⟩
  have hbig := Platform.recvMsg_mono hrun (show fuel ≤ fuel + 2 ^ 32 + 1 by omega)
  -- without a payload byte the call returns 0
  have hended : inc.eof = true → inc.pending.length ≤ 4 → r.ret = 0 := by
    intro heof hlen
    obtain ⟨r', inc'', hclosed, hret⟩ := recvMsg_closed hσ inc hlen heof
      (show 2 ^ 32 < fuel + 2 ^ 32 + 1 by omega)
    cases hbig.symm.trans hclosed
    exact hret
  cases rest with
  | nil =>
    have hnil : inc.pending = [] := List.prefix_nil.mp hpre
    have heof : inc.eof = true := by
      by_contra hopen
      apply hshort
      exact ⟨by simpa using hopen, by simp [hnil]⟩
    exact .ended (hended heof (by simp [hnil])) (by simp)
  | cons m tail =>
    have hm := hrest m List.mem_cons_self
    have hfuel : 4 + m.length < fuel + 2 ^ 32 + 1 := (frame_length_lt hm.2).trans (by omega)
    rw [stream_cons] at hpre
    by_cases hlen : 4 + m.length ≤ inc.pending.length
    · obtain ⟨p, hp⟩ : frame m <+: inc.pending :=
        List.prefix_of_prefix_length_le (List.prefix_append _ _) hpre (by simpa using hlen)
      obtain ⟨r', inc'', hwhole, hmatch, hpend, -⟩ := recvMsg_whole hσ hm.2 hp.symm hfuel
      cases hbig.symm.trans hwhole
      refine .whole m tail rfl ?_ hmatch (by rw [hpend, hp])
      have hpos := hm.1
      rw [hmatch.1]
      omega
    · have hlt : inc.pending.length < 4 + m.length := not_le.mp hlen
      have hpart : inc.pending = (frame m).take inc.pending.length := by
        have heq := List.prefix_iff_eq_take.mp hpre
        rwa [List.take_append_of_le_length (by simpa using hlt.le)] at heq
      have heof : inc.eof = true := by
        by_contra hopen
        exact hshort (short_of_part hm (by simpa using hopen) hlt hpart)
      by_cases h4 : 4 < inc.pending.length
      · obtain ⟨r', inc'', hrun', ⟨hret, hread⟩, hsize, hnul, hpend, hend⟩ :=
          recvMsg_part hσ hm.2 h4 hpart heof hfuel
        cases hbig.symm.trans hrun'
        have hk : (m.take (inc.pending.length - 4)).length = inc.pending.length - 4 := by
          rw [List.length_take]
          omega
        rw [hk] at hret hread
        refine .part m tail rfl (by omega) (inc.pending.length - 4) (by omega) (by omega) ?_ hsize
          hread hnul hpend hend
        rw [Nat.add_sub_cancel' h4.le]
        exact hpart
      · exact .ended (hended heof (not_lt.mp h4)) (by simpa using hlt)

/-! ## One connection -/

namespace Conn

variable {ms : List Bytes} {c : Conn} {env : Env} {fuel : ℕ} {r : Received} {inc : Incoming}

/-- The messages `done` have been printed, and the stream stands at the next frame. -/
def Follows (ms : List Bytes) (c : Conn) : Prop :=
  ∃ done rest, ms = done ++ rest ∧ c.printed = done.map cstring ∧
    c.arrived = stream done ++ c.inc.pending

/-- The peer has closed inside the payload of a message, of which `k` bytes have come. These
have been printed, with the bytes that the rest of the block held before. -/
def Truncated (ms : List Bytes) (c : Conn) : Prop :=
  c.inc.eof = true ∧ c.inc.pending = [] ∧ ∃ done m rest k junk, ms = done ++ m :: rest ∧
    0 < k ∧ k < m.length ∧ c.arrived = stream done ++ (frame m).take (4 + k) ∧
    k + junk.length = m.length ∧
    c.printed = done.map cstring ++ [cstring (m.take k ++ junk)]

/-- What is true of a connection on which frames of `ms` arrive. -/
def Sound (ms : List Bytes) (c : Conn) : Prop :=
  c.arrived <+: stream ms → c.Follows ms ∨ c.Truncated ms

/-- What is true of a connection that has been closed. -/
def Served (ms : List Bytes) (c : Conn) : Prop := c.arrived = stream ms → c.printed = ms.map cstring

theorem sound_init : Sound ms {} := by
  intro _
  exact .inl ⟨[], ms, rfl, rfl, rfl⟩

theorem Sound.arrive (h : Sound ms c) (heof : c.inc.eof = false) (bytes : Bytes) :
    Sound ms (c.arrive bytes) := by
  intro hpre
  rcases h ((List.prefix_append _ _).trans hpre) with
    ⟨done, rest, hms, hprinted, harrived⟩ | ⟨hend, -⟩
  · refine .inl ⟨done, rest, hms, hprinted, ?_⟩
    simp only [Conn.arrive, harrived, List.append_assoc]
  · rw [heof] at hend
    cases hend

theorem Sound.hangup (h : Sound ms c) : Sound ms c.hangup := by
  intro hpre
  rcases h hpre with hfollows | ⟨-, hcut⟩
  · exact .inl hfollows
  · exact .inr ⟨rfl, hcut⟩

theorem text_whole {m : Bytes} (h : Delivery.Matches r (.whole m)) : text r = cstring m := by
  obtain ⟨-, hsize, hread⟩ := h
  have hnat : r.data.size.toNat = m.length + 1 := by omega
  rw [text, hnat, hread, cstring_append_nul]

theorem text_part {m : Bytes} {k : ℕ} (hk : k ≤ m.length) (hsize : r.data.size = m.length + 1)
    (hread : r.data.read 0 k = m.take k) (hnul : r.data.read m.length 1 = [0]) :
    text r = cstring (m.take k ++ r.data.read k (m.length - k)) := by
  have hnat : r.data.size.toNat = k + (m.length - k) + 1 := by omega
  have hend : (0 : ℤ) + (k + (m.length - k) : ℕ) = m.length := by omega
  rw [text, hnat, Block.read_add, Block.read_add, hread, hend, hnul, zero_add, cstring_append_nul]

theorem stream_ne_of_short {done rest : List Bytes} {m pending : Bytes}
    (hlen : pending.length < 4 + m.length) :
    stream done ++ pending ≠ stream (done ++ m :: rest) := by
  intro heq
  rw [stream_append, stream_cons] at heq
  have hlen' := congrArg List.length (List.append_cancel_left heq)
  rw [List.length_append, length_frame] at hlen'
  omega

theorem Sound.message (h : Sound ms c) (hms : ∀ m ∈ ms, Sendable m)
    (hσ : env.answers.NeverFails) (hrun : recvMsg env fuel c.inc = some (r, inc)) :
    (r.ret = 0 → Served ms { c with inc := inc }) ∧ (r.ret ≠ 0 → Sound ms (c.print r inc)) := by
  have hreturned : ∀ done rest, ms = done ++ rest → c.arrived = stream done ++ c.inc.pending →
      c.arrived <+: stream ms → Returned rest c.inc r inc := by
    intro done rest hsplit harrived hpre
    rw [harrived, hsplit, stream_append, List.prefix_append_right_inj] at hpre
    refine recvMsg_returned hσ hrun ?_ hpre
    intro m hm
    exact hms m (by rw [hsplit]; exact List.mem_append_right done hm)
  have htruncated : c.Truncated ms → Returned [] c.inc r inc := by
    rintro ⟨-, hnil, -⟩
    exact recvMsg_returned hσ hrun (by simp) (by simp [hnil])
  constructor
  · intro hret harrived
    change c.arrived = stream ms at harrived
    have hpre : c.arrived <+: stream ms := by rw [harrived]
    rcases h hpre with ⟨done, rest, hsplit, hprinted, hdone⟩ | hcut
    · cases hreturned done rest hsplit hdone hpre with
      | ended _ hshort =>
        cases rest with
        | nil =>
          rw [List.append_nil] at hsplit
          rw [hsplit]
          exact hprinted
        | cons m rest =>
          rw [hdone, hsplit] at harrived
          exact absurd harrived (stream_ne_of_short (hshort m rfl))
      | whole m tail _ hne => exact absurd hret hne
      | part m tail _ hne => exact absurd hret hne
    · obtain ⟨-, -, done, m, rest, k, junk, hsplit, -, hcut, hdone, -⟩ := hcut
      rw [hdone, hsplit] at harrived
      refine absurd harrived (stream_ne_of_short ?_)
      rw [List.length_take]
      omega
  · intro hret hpre
    change c.arrived <+: stream ms at hpre
    rcases h hpre with ⟨done, rest, hsplit, hprinted, hdone⟩ | hcut
    · cases hreturned done rest hsplit hdone hpre with
      | ended hzero => exact absurd hzero hret
      | whole m tail hrest _ hmatch hpend =>
        refine .inl ⟨done ++ [m], tail, by rw [hsplit, hrest]; simp, ?_, ?_⟩
        · simp [Conn.print, hprinted, text_whole hmatch]
        · simp [Conn.print, hdone, hpend, stream_append]
      | part m tail hrest _ k hpos hlt hpart hsize hread hnul hnil heof =>
        refine .inr ⟨heof, hnil, done, m, tail, k, r.data.read k (m.length - k),
          by rw [hsplit, hrest], hpos, hlt, ?_, ?_, ?_⟩
        · rw [← hpart]
          exact hdone
        · rw [Block.length_read]
          omega
        · rw [← hprinted, ← text_part hlt.le hsize hread hnul]
          rfl
    · cases htruncated hcut with
      | ended hzero => exact absurd hzero hret
      | whole m tail hrest => cases hrest
      | part m tail hrest => cases hrest

end Conn

/-! ## The server -/

namespace Server

variable {ms : List Bytes} {s : Server}

/-- All connections, open and closed, on which frames of `ms` arrive. -/
structure Inv (ms : List Bytes) (s : Server) : Prop where
  conn : ∀ fd c, s.conn fd = some c → c.Sound ms
  past : ∀ c ∈ s.past, c.Served ms

theorem received_eq_some {env : Env} {fuel ccfd : ℕ} {c : Conn} {r : Received} {inc : Incoming}
    (h : s.received env fuel = some (ccfd, c, r, inc)) :
    s.ep.head? = some (some ccfd) ∧ s.conn ccfd = some c ∧
      recvMsg env fuel c.inc = some (r, inc) := by
  unfold received at h
  split at h
  · next fd rest hep =>
    simp only [Option.bind_eq_bind, Option.bind_eq_some_iff, Option.pure_def, Option.some.injEq,
      Prod.mk.injEq] at h
    obtain ⟨c', hc, ⟨r', inc'⟩, hrun, rfl, rfl, rfl, rfl⟩ := h
    exact ⟨by rw [hep]; rfl, hc, hrun⟩
  · cases h

theorem received_of_head {fd : ℕ} {c : Conn} (hep : s.ep.head? = some (some fd))
    (hc : s.conn fd = some c) (env : Env) (fuel : ℕ) :
    s.received env fuel = (recvMsg env fuel c.inc).map fun p => (fd, c, p.1, p.2) := by
  obtain ⟨rest, hrest⟩ := List.head?_eq_some_iff.mp hep
  simp only [received, hrest, hc, Option.bind_eq_bind, Option.bind_some]
  cases recvMsg env fuel c.inc <;> rfl

theorem Inv.update (h : Inv ms s) (fd : ℕ) {o : Option Conn} (ho : ∀ c, o = some c → c.Sound ms)
    (ep : List (Option ℕ)) : Inv ms { s with conn := Function.update s.conn fd o, ep := ep } where
  conn := by
    intro fd' c hc
    dsimp only at hc
    by_cases hfd : fd' = fd
    · subst hfd
      rw [update_self] at hc
      exact ho c hc
    · rw [update_of_ne hfd] at hc
      exact h.conn fd' c hc
  past := h.past

theorem Inv.next (h : Inv ms s) (hms : ∀ m ∈ ms, Sendable m) {i : Input} (hen : s.Enabled i) :
    Inv ms (s.next i) := by
  cases i with
  | arrive fd bytes =>
    obtain ⟨c, hc, heof⟩ := hen
    apply h.update
    intro c' hc'
    rw [hc] at hc'
    cases hc'
    exact (h.conn fd c hc).arrive heof bytes
  | hangup fd =>
    obtain ⟨c, hc, -⟩ := hen
    apply h.update
    intro c' hc'
    rw [hc] at hc'
    cases hc'
    exact (h.conn fd c hc).hangup
  | wait ep => exact ⟨h.conn, h.past⟩
  | accept cfd =>
    apply h.update
    intro c hc
    cases hc
    exact Conn.sound_init
  | message env fuel =>
    obtain ⟨hσ, hsome⟩ := hen
    obtain ⟨⟨ccfd, c, r, inc⟩, hrec⟩ := Option.isSome_iff_exists.mp hsome
    obtain ⟨-, hc, hrun⟩ := received_eq_some hrec
    obtain ⟨hzero, hpos⟩ := (h.conn ccfd c hc).message hms hσ hrun
    simp only [Server.next, hrec]
    by_cases hret : r.ret = 0
    · rw [if_pos hret]
      have hgone := h.update ccfd (o := none) (by simp) s.ep.tail
      refine ⟨hgone.conn, ?_⟩
      intro c' hc'
      rcases List.mem_append.mp hc' with hc' | hc'
      · exact h.past c' hc'
      · rw [List.mem_singleton.mp hc']
        exact hzero hret
    · rw [if_neg hret]
      apply h.update
      intro c' hc'
      cases hc'
      exact hpos hret

theorem Reachable.inv (h : s.Reachable) (hms : ∀ m ∈ ms, Sendable m) : Inv ms s := by
  apply Interleaving.Reachable.invariant h (Inv ms)
  · exact ⟨by simp, by simp⟩
  · intro s i hinv hen
    exact hinv.next hms hen

end Server

/-- The connection on which a client does something. -/
def Input.client : Input → Option ℕ
  | .arrive fd _ | .hangup fd => some fd
  | _ => none

namespace Server

variable {s t : Server} {fd : ℕ} {c : Conn}

/-- The server waits for a client, and everything is as it was in `s` but what the others
have sent. -/
structure Halted (s : Server) (fd : ℕ) (c : Conn) (t : Server) : Prop where
  ep : t.ep = s.ep
  conn : t.conn fd = some c
  past : t.past = s.past
  printed : ∀ fd', (t.conn fd').map Conn.printed = (s.conn fd').map Conn.printed

theorem Halted.update (h : Halted s fd c t) {fd' : ℕ} (hne : fd' ≠ fd) {f : Conn → Conn}
    (hf : ∀ c, (f c).printed = c.printed) :
    Halted s fd c { t with conn := Function.update t.conn fd' ((t.conn fd').map f) } where
  ep := h.ep
  conn := by
    dsimp only
    rw [Function.update_of_ne hne.symm]
    exact h.conn
  past := h.past
  printed := by
    intro fd''
    dsimp only
    rw [← h.printed fd'']
    by_cases heq : fd'' = fd'
    · subst heq
      rw [Function.update_self, Option.map_map]
      congr 1
      funext c
      exact hf c
    · rw [Function.update_of_ne heq]

theorem Halted.next (h : Halted s fd c t) (hep : s.ep.head? = some (some fd))
    (hshort : Short c.inc) {i : Input} (hen : t.Enabled i) (hi : i.client ≠ some fd) :
    Halted s fd c (t.next i) := by
  have hhead : t.ep.head? = some (some fd) := by rw [h.ep, hep]
  cases i with
  | arrive fd' bytes => exact h.update (fun heq => hi (congrArg some heq)) fun _ => rfl
  | hangup fd' => exact h.update (fun heq => hi (congrArg some heq)) fun _ => rfl
  | wait ep =>
    rw [hen.1] at hhead
    cases hhead
  | accept cfd =>
    rw [hen.1] at hhead
    cases hhead
  | message env fuel =>
    obtain ⟨hσ, hsome⟩ := hen
    obtain ⟨⟨ccfd, c', r, inc⟩, hrec⟩ := Option.isSome_iff_exists.mp hsome
    obtain ⟨hfd, hc, hrun⟩ := received_eq_some hrec
    cases hhead.symm.trans hfd
    cases h.conn.symm.trans hc
    rw [recvMsg_short hσ hshort] at hrun
    cases hrun

end Server

open Server in
/-- As long as no `recv` fails, the server goes on with the connection it has come to exactly
when the message there is complete or the client has closed. A client that sends a part of a
message and nothing more stops it: whatever the other clients do, nothing is accepted, printed
or closed. -/
theorem short_frame_blocks {s : Server} {fd : ℕ} {c : Conn} (hep : s.ep.head? = some (some fd))
    (hc : s.conn fd = some c) :
    (∀ env : Env, env.answers.NeverFails →
      ((∃ fuel, s.Enabled (.message env fuel)) ↔ ¬ Short c.inc)) ∧
    (Short c.inc → ∀ t, Interleaving.Reachable next
      (fun s i => s.Enabled i ∧ i.client ≠ some fd) s t → Halted s fd c t) := by
  constructor
  · intro env hσ
    rw [← recvMsg_isSome_iff hσ]
    apply exists_congr
    intro fuel
    simp [Enabled, hσ, received_of_head hep hc]
  · intro hshort t ht
    apply ht.invariant (Halted s fd c)
    · exact ⟨rfl, hc, rfl, fun _ => rfl⟩
    · rintro t i h ⟨hen, hi⟩
      exact h.next hep hshort hen hi

open Server in
/-- One client has sent the first three bytes of a header, and another one is connected. -/
theorem short_frame_blocks_header : ∃ s : Server, ∃ c₁ c₂ : Conn, s.ep.head? = some (some 5) ∧
    s.conn 5 = some c₁ ∧ s.conn 6 = some c₂ ∧ ∀ t, Interleaving.Reachable next
      (fun s i => s.Enabled i ∧ i.client ≠ some 5) s t →
        (t.conn 6).map Conn.printed = some c₂.printed := by
  let c : Conn := { inc := { pending := [0, 0, 0], eof := false }, arrived := [0, 0, 0] }
  let s : Server := { conn := fun fd => if fd = 5 then some c else some {}, ep := [some 5] }
  refine ⟨s, c, {}, rfl, rfl, rfl, ?_⟩
  intro t ht
  have hhead : s.ep.head? = some (some 5) := rfl
  have hhalted := (short_frame_blocks hhead rfl).2 ⟨rfl, by decide⟩ t ht
  exact hhalted.printed 6

end NetworkPrograms.Serve
