import NetworkPrograms.Foundations.Interleaving
import NetworkPrograms.Foundations.Words

/-!
# Requests and replies over datagrams

`dg_send_recv` of `rtt/dg_send_recv.c`, with the counting of `lib/rtt.c`, against the server
`dg_echo` of `lib/dg_echo.c`. The client puts a sequence number and a timestamp before its
data, sends it again when the timer expires, and takes the first datagram that comes back
with its sequence number. A timeout ends everything that the loop was doing, also when the
reply has just been received.

Datagrams may be lost, duplicated and reordered: what was sent once may be delivered at any
later time, any number of times. The length of a timeout plays no role, so the estimates of
the round-trip time are left out.
-/
namespace NetworkPrograms.Exchange

open Function Words

def MAXLINE : ℕ := 4096

def RTT_MAXNREXMT : ℕ := 3

def hdrSize : ℕ := 8

/-- `struct hdr` as it lies in memory. -/
def hdr (seq ts : ℕ) : Bytes := hostBytes seq ++ hostBytes ts

/-- `recvhdr.seq` and `recvhdr.ts` when a datagram has been received. -/
def seqOf (dgram : Bytes) : ℕ := hostWord (dgram.take 4)

def tsOf (dgram : Bytes) : ℕ := hostWord ((dgram.drop 4).take 4)

/-- The arguments of a call that matter here. -/
structure Call where
  outbuff : Bytes
  inbytes : ℕ

/-- How a call ended: with a reply in `inbuff` and `rtt_stop` called at the time `now` with
the argument `ms`, or without one. In both cases `sends` datagrams were sent. -/
inductive Outcome where
  | replied (call : Call) (inbuff : Bytes) (sends now ms : ℕ)
  | timedOut (call : Call) (sends : ℕ)

/-- What `dg_send_recv` returns. -/
def Outcome.ret : Outcome → ℤ
  | .replied _ inbuff _ _ _ => inbuff.length
  | .timedOut _ _ => -1

def Outcome.call : Outcome → Call
  | .replied call _ _ _ _ => call
  | .timedOut call _ => call

/-- Where a client is: in no call, at `sendagain`, in `Recvmsg`, or before `alarm(0)`. -/
inductive Phase where
  | idle
  | sendagain (call : Call)
  | waiting (call : Call)
  | received (call : Call) (inbuff : Bytes) (ts : ℕ)

def Phase.call : Phase → List Call
  | .idle => []
  | .sendagain call | .waiting call | .received call _ _ => [call]

/-- The static variables of a client, the datagrams sent in this call, all calls so far and
how they ended, and the timestamps that were sent, each with the number of its call. -/
structure Client where
  seq : ℕ := 0
  rtt_nrexmt : ℕ := 0
  phase : Phase := .idle
  sends : ℕ := 0
  calls : List Call := []
  outcomes : List Outcome := []
  stamps : List (ℕ × ℕ) := []

namespace Client

variable (c : Client)

/-- `dg_send_recv` is called: `sendhdr.seq++` and `rtt_newpack`. -/
def start (call : Call) : Client :=
  { c with
    seq := (c.seq + 1) % 2 ^ 32
    rtt_nrexmt := 0
    phase := .sendagain call
    sends := 0
    calls := c.calls ++ [call] }

/-- `Sendmsg`, with the time that `rtt_ts` returns. -/
def sendmsg (call : Call) (now : ℕ) : Client :=
  { c with
    phase := .waiting call
    sends := c.sends + 1
    stamps := c.stamps ++ [(c.calls.length, now)] }

/-- `sig_alrm` and what comes behind `sigsetjmp`: `rtt_timeout` counts. -/
def timeout (call : Call) : Client :=
  if c.rtt_nrexmt + 1 > RTT_MAXNREXMT then
    { c with
      rtt_nrexmt := c.rtt_nrexmt + 1
      phase := .idle
      outcomes := c.outcomes ++ [.timedOut call c.sends] }
  else { c with rtt_nrexmt := c.rtt_nrexmt + 1, phase := .sendagain call }

/-- `Recvmsg` returns, with the header apart from the data. -/
def recvmsg (call : Call) (dgram : Bytes) : Client :=
  let n := min dgram.length (hdrSize + call.inbytes)
  if n < hdrSize ∨ seqOf dgram ≠ c.seq then c
  else { c with phase := .received call ((dgram.drop hdrSize).take call.inbytes) (tsOf dgram) }

/-- `alarm(0)` and `rtt_stop`, with a difference of two `uint32_t`. -/
def stop (call : Call) (inbuff : Bytes) (ts now : ℕ) : Client :=
  { c with
    phase := .idle
    outcomes := c.outcomes ++
      [.replied call inbuff c.sends now ((now % 2 ^ 32 + 2 ^ 32 - ts) % 2 ^ 32)] }

end Client

/-- The clients by their addresses, and all requests and replies that were ever sent, with
the address of the client. -/
structure System (α : Type*) where
  client : α → Client := fun _ => {}
  requests : List (α × Bytes) := []
  replies : List (α × Bytes) := []

/-- A client calls the function, sends, is interrupted by the alarm, receives a datagram, or
returns; or the server echoes a datagram. -/
inductive Input (α : Type*) where
  | call (a : α) (call : Call)
  | sendmsg (a : α) (now : ℕ)
  | alarm (a : α)
  | recvmsg (a : α) (dgram : Bytes)
  | stop (a : α) (now : ℕ)
  | echo (a : α) (dgram : Bytes)

namespace System

variable {α : Type*}

/-- A datagram can be received if it was sent. -/
def Enabled (s : System α) : Input α → Prop
  | .call a _ => (s.client a).phase = .idle
  | .sendmsg a _ => ∃ call, (s.client a).phase = .sendagain call
  | .alarm a => (∃ call, (s.client a).phase = .waiting call) ∨
      ∃ call inbuff ts, (s.client a).phase = .received call inbuff ts
  | .recvmsg a dgram => (∃ call, (s.client a).phase = .waiting call) ∧ (a, dgram) ∈ s.replies
  | .stop a _ => ∃ call inbuff ts, (s.client a).phase = .received call inbuff ts
  | .echo a dgram => (a, dgram) ∈ s.requests

variable [DecidableEq α]

def set (s : System α) (a : α) (c : Client) : System α := { s with client := update s.client a c }

def next (s : System α) : Input α → System α
  | .call a call => s.set a ((s.client a).start call)
  | .sendmsg a now => match (s.client a).phase with
    | .sendagain call =>
      { s.set a ((s.client a).sendmsg call now) with
        requests := s.requests ++ [(a, hdr (s.client a).seq now ++ call.outbuff)] }
    | _ => s
  | .alarm a => match (s.client a).phase with
    | .waiting call | .received call _ _ => s.set a ((s.client a).timeout call)
    | _ => s
  | .recvmsg a dgram => match (s.client a).phase with
    | .waiting call => s.set a ((s.client a).recvmsg call dgram)
    | _ => s
  | .stop a now => match (s.client a).phase with
    | .received call inbuff ts => s.set a ((s.client a).stop call inbuff ts now)
    | _ => s
  -- the pass of `dg_echo` that receives the datagram
  | .echo a dgram => { s with replies := s.replies ++ [(a, dgram.take MAXLINE)] }

def Reachable (s : System α) : Prop := Interleaving.Reachable next Enabled {} s

end System

/-! ## What a datagram says -/

section

variable {seq ts : ℕ} {out : Bytes}

@[simp] theorem length_hdr (seq ts : ℕ) : (hdr seq ts).length = hdrSize := rfl

theorem take_request (seq ts : ℕ) (out : Bytes) :
    (hdr seq ts ++ out).take MAXLINE = hdr seq ts ++ out.take (MAXLINE - hdrSize) := by
  rw [List.take_append, length_hdr, List.take_of_length_le (show hdrSize ≤ MAXLINE by decide)]

theorem seqOf_hdr (seq ts : ℕ) (out : Bytes) : seqOf (hdr seq ts ++ out) = seq % 2 ^ 32 := by
  rw [seqOf, hdr, List.append_assoc, ← length_hostBytes seq, List.take_left, hostWord_hostBytes]

theorem tsOf_hdr (seq ts : ℕ) (out : Bytes) : tsOf (hdr seq ts ++ out) = ts % 2 ^ 32 := by
  have hdrop : (hdr seq ts ++ out).drop 4 = hostBytes ts ++ out := by
    rw [hdr, List.append_assoc, ← length_hostBytes seq, List.drop_left]
  rw [tsOf, hdrop, ← length_hostBytes ts, List.take_left, hostWord_hostBytes]

theorem drop_hdr (seq ts : ℕ) (out : Bytes) : (hdr seq ts ++ out).drop hdrSize = out := by
  rw [← length_hdr seq ts, List.drop_left]

end

/-! ## The invariant -/

/-- The reply belongs to the call with the number `k`: it is its data, as far as the server
echoes and the caller takes it, and a timestamp that was sent in this call. -/
structure Answers (stamps : List (ℕ × ℕ)) (k : ℕ) (call : Call) (inbuff : Bytes) (ts : ℕ) :
    Prop where
  data : inbuff = call.outbuff.take (min call.inbytes (MAXLINE - hdrSize))
  stamp : ∃ now, (k, now) ∈ stamps ∧ ts = now % 2 ^ 32

/-- A call that ended well has its own data, and the measured time is that since one of its
own datagrams was sent. A call that was given up has sent four times. -/
def Outcome.Fine (stamps : List (ℕ × ℕ)) (k : ℕ) : Outcome → Prop
  | .replied call inbuff sends now ms =>
      inbuff = call.outbuff.take (min call.inbytes (MAXLINE - hdrSize)) ∧
      1 ≤ sends ∧ sends ≤ RTT_MAXNREXMT + 1 ∧
      ∃ ts, (k, ts) ∈ stamps ∧ (ms : ℤ) = ((now : ℤ) - ts) % 2 ^ 32
  | .timedOut _ sends => sends = RTT_MAXNREXMT + 1

theorem Answers.mono {stamps : List (ℕ × ℕ)} {k : ℕ} {call : Call} {inbuff : Bytes} {ts : ℕ}
    (h : Answers stamps k call inbuff ts) (more : List (ℕ × ℕ)) :
    Answers (stamps ++ more) k call inbuff ts := by
  obtain ⟨now, hmem, hts⟩ := h.stamp
  exact ⟨h.data, now, List.mem_append_left more hmem, hts⟩

theorem Outcome.Fine.mono {stamps : List (ℕ × ℕ)} {k : ℕ} {o : Outcome} (h : o.Fine stamps k)
    (more : List (ℕ × ℕ)) : o.Fine (stamps ++ more) k := by
  cases o with
  | replied call inbuff sends now ms =>
    obtain ⟨hdata, hpos, hle, ts, hmem, hms⟩ := h
    exact ⟨hdata, hpos, hle, ts, List.mem_append_left more hmem, hms⟩
  | timedOut call sends => exact h

/-- How often the timer has been started since the last timeout. -/
def Phase.started : Phase → ℕ
  | .idle | .sendagain _ => 0
  | .waiting _ | .received _ _ _ => 1

/-- The part of the invariant that is about one client. Sequence numbers tell the calls
apart as long as there are fewer than `2 ^ 32`. -/
structure Client.Inv (c : Client) : Prop where
  seq : c.seq = c.calls.length % 2 ^ 32
  calls : c.outcomes.map Outcome.call ++ c.phase.call = c.calls
  sends : c.phase ≠ .idle → c.sends = c.rtt_nrexmt + c.phase.started
  nrexmt : c.phase ≠ .idle → c.rtt_nrexmt ≤ RTT_MAXNREXMT
  reply : c.calls.length < 2 ^ 32 → ∀ call inbuff ts, c.phase = .received call inbuff ts →
    Answers c.stamps c.calls.length call inbuff ts
  outcomes : c.calls.length < 2 ^ 32 →
    ∀ (i : ℕ) (o : Outcome), c.outcomes[i]? = some o → o.Fine c.stamps (i + 1)

/-- A request of a client is one of its calls, with a timestamp that it has sent. -/
def Client.Asked (c : Client) (dgram : Bytes) : Prop :=
  ∃ k ts call, c.calls[k]? = some call ∧ (k + 1, ts) ∈ c.stamps ∧
    dgram = hdr ((k + 1) % 2 ^ 32) ts ++ call.outbuff

namespace Client

variable {c : Client} {call : Call}

theorem inv_init : Inv {} where
  seq := rfl
  calls := rfl
  sends := by simp
  nrexmt := by simp
  reply := by simp
  outcomes := by simp

theorem Inv.start (h : c.Inv) (hidle : c.phase = .idle) (call : Call) : (c.start call).Inv where
  seq := by simp [Client.start, h.seq]
  calls := by simpa [Client.start, Phase.call, hidle] using h.calls
  sends := fun _ => rfl
  nrexmt := fun _ => Nat.zero_le _
  reply := by simp [Client.start]
  outcomes := by
    intro hlt
    apply h.outcomes
    simp only [Client.start, List.length_append, List.length_singleton] at hlt
    omega

theorem Inv.sendmsg (h : c.Inv) (hphase : c.phase = .sendagain call) (now : ℕ) :
    (c.sendmsg call now).Inv where
  seq := h.seq
  calls := by simpa [Client.sendmsg, Phase.call, hphase] using h.calls
  sends := by
    intro _
    have hsends := h.sends (by simp [hphase])
    simp [Client.sendmsg, Phase.started, hphase, hsends]
  nrexmt := fun _ => h.nrexmt (by simp [hphase])
  reply := by simp [Client.sendmsg]
  outcomes := fun hlt i o ho => (h.outcomes hlt i o ho).mono _

theorem Inv.getLast (h : c.Inv) (hcall : c.phase.call = [call]) :
    c.calls.length = c.outcomes.length + 1 ∧ c.calls[c.outcomes.length]? = some call := by
  have hcalls := h.calls
  rw [hcall] at hcalls
  rw [← hcalls]
  simp

theorem Inv.finish (h : c.Inv) (hcall : c.phase.call = [call]) {o : Outcome} {n : ℕ}
    (ho : o.call = call) (hfine : c.calls.length < 2 ^ 32 → o.Fine c.stamps c.calls.length) :
    Inv { c with rtt_nrexmt := n, phase := .idle, outcomes := c.outcomes ++ [o] } where
  seq := h.seq
  calls := by
    have hcalls := h.calls
    rw [hcall] at hcalls
    simpa [Phase.call, ho] using hcalls
  sends := by simp
  nrexmt := by simp
  reply := by simp
  outcomes := by
    intro hlt i o' ho'
    rw [List.getElem?_append] at ho'
    split_ifs at ho' with hi
    · exact h.outcomes hlt i o' ho'
    · rw [List.getElem?_singleton] at ho'
      split_ifs at ho' with hzero
      cases ho'
      rw [show i + 1 = c.calls.length by rw [(h.getLast hcall).1]; omega]
      exact hfine hlt

theorem Inv.timeout (h : c.Inv) (hcall : c.phase.call = [call]) (hstarted : c.phase.started = 1) :
    (c.timeout call).Inv := by
  have hbusy : c.phase ≠ .idle := by
    intro hidle
    simp [hidle, Phase.call] at hcall
  have hsends := h.sends hbusy
  have hle := h.nrexmt hbusy
  unfold Client.timeout
  split_ifs with hlast
  · apply h.finish hcall rfl
    intro _
    simp only [Outcome.Fine]
    omega
  · refine ⟨h.seq, ?_, ?_, ?_, by simp, h.outcomes⟩
    · have hcalls := h.calls
      rw [hcall] at hcalls
      exact hcalls
    · intro _
      simp only [Phase.started]
      omega
    · intro _
      exact not_lt.mp hlast

theorem Inv.recvmsg (h : c.Inv) (hphase : c.phase = .waiting call) {dgram : Bytes}
    (hasked : c.Asked dgram) : (c.recvmsg call (dgram.take MAXLINE)).Inv := by
  unfold Client.recvmsg
  dsimp only
  split_ifs with hskip
  · exact h
  · obtain ⟨-, hseq⟩ := not_or.mp hskip
    have hcall : c.phase.call = [call] := by rw [hphase]; rfl
    obtain ⟨hlen, hlast⟩ := h.getLast hcall
    have hbusy : c.phase ≠ .idle := by simp [hphase]
    refine ⟨h.seq, ?_, ?_, fun _ => h.nrexmt hbusy, ?_, h.outcomes⟩
    · simpa [Phase.call, hphase] using h.calls
    · intro _
      simpa [Phase.started, hphase] using h.sends hbusy
    · intro hlt call' inbuff ts heq
      cases heq
      have hbound : c.calls.length < 2 ^ 32 := hlt
      obtain ⟨k, ts, asked, hk, hstamp, rfl⟩ := hasked
      obtain ⟨hlt', -⟩ := List.getElem?_eq_some_iff.mp hk
      rw [take_request, seqOf_hdr, h.seq] at hseq
      have hsame : k + 1 = c.calls.length := by
        have := not_not.mp hseq
        omega
      obtain rfl : asked = call := by
        rw [show k = c.outcomes.length by omega, hlast] at hk
        exact (Option.some.inj hk).symm
      rw [take_request, drop_hdr, tsOf_hdr, ← hsame]
      refine ⟨?_, ts, hstamp, rfl⟩
      rw [List.take_take]

theorem Inv.stop (h : c.Inv) {inbuff : Bytes} {ts : ℕ}
    (hphase : c.phase = .received call inbuff ts) (now : ℕ) :
    (c.stop call inbuff ts now).Inv := by
  have hbusy : c.phase ≠ .idle := by simp [hphase]
  have hsends := h.sends hbusy
  have hle := h.nrexmt hbusy
  have hcall : c.phase.call = [call] := by rw [hphase]; rfl
  rw [hphase, Phase.started] at hsends
  apply h.finish hcall rfl
  intro hlt
  obtain ⟨hdata, sent, hmem, hts⟩ := h.reply hlt call inbuff ts hphase
  refine ⟨hdata, by omega, by omega, sent, hmem, ?_⟩
  rw [hts]
  have hle' : sent % 2 ^ 32 ≤ now % 2 ^ 32 + 2 ^ 32 := by
    have := Nat.mod_lt sent (show 0 < 2 ^ 32 by decide)
    omega
  push_cast [Nat.cast_sub hle']
  omega

section
variable (c : Client) (call : Call) (dgram : Bytes)

@[simp] theorem timeout_calls : (c.timeout call).calls = c.calls := by
  unfold Client.timeout
  split_ifs <;> rfl

@[simp] theorem timeout_stamps : (c.timeout call).stamps = c.stamps := by
  unfold Client.timeout
  split_ifs <;> rfl

@[simp] theorem recvmsg_calls : (c.recvmsg call dgram).calls = c.calls := by
  unfold Client.recvmsg
  dsimp only
  split_ifs <;> rfl

@[simp] theorem recvmsg_stamps : (c.recvmsg call dgram).stamps = c.stamps := by
  unfold Client.recvmsg
  dsimp only
  split_ifs <;> rfl

end

theorem Asked.mono {d : Client} {dgram : Bytes} (h : c.Asked dgram) (hcalls : c.calls <+: d.calls)
    (hstamps : c.stamps <+: d.stamps) : d.Asked dgram := by
  obtain ⟨k, ts, call, hk, hmem, hdgram⟩ := h
  obtain ⟨later, hlater⟩ := hcalls
  refine ⟨k, ts, call, ?_, hstamps.subset hmem, hdgram⟩
  obtain ⟨hlt, -⟩ := List.getElem?_eq_some_iff.mp hk
  rw [← hlater, List.getElem?_append_left hlt, hk]

end Client

namespace System

variable {α : Type*}

/-- Every client is in order, every request was asked by its client, and every reply is the
echo of a request. -/
structure Inv (s : System α) : Prop where
  client : ∀ a, (s.client a).Inv
  requests : ∀ a dgram, (a, dgram) ∈ s.requests → (s.client a).Asked dgram
  replies : ∀ a dgram, (a, dgram) ∈ s.replies →
    ∃ request, (a, request) ∈ s.requests ∧ dgram = request.take MAXLINE

theorem inv_init : Inv ({} : System α) where
  client := fun _ => Client.inv_init
  requests := by simp
  replies := by simp

variable [DecidableEq α] {s : System α}

theorem Inv.set (h : s.Inv) (a : α) {c : Client} (hc : c.Inv)
    (hcalls : (s.client a).calls <+: c.calls) (hstamps : (s.client a).stamps <+: c.stamps) :
    (s.set a c).Inv where
  client := by
    intro b
    by_cases hb : b = a
    · subst hb
      simpa [System.set] using hc
    · simpa [System.set, hb] using h.client b
  requests := by
    intro b dgram hmem
    have hasked := h.requests b dgram hmem
    by_cases hb : b = a
    · subst hb
      simpa [System.set] using hasked.mono hcalls hstamps
    · simpa [System.set, hb] using hasked
  replies := h.replies

theorem Inv.next (h : s.Inv) {i : Input α} (hen : s.Enabled i) : (s.next i).Inv := by
  cases i with
  | call a call =>
    exact h.set a ((h.client a).start hen call) (List.prefix_append _ _) List.prefix_rfl
  | sendmsg a now =>
    obtain ⟨call, hphase⟩ := hen
    have hc := h.client a
    have hset := h.set a (hc.sendmsg hphase now) List.prefix_rfl (List.prefix_append _ _)
    simp only [System.next, hphase]
    refine ⟨hset.client, ?_, ?_⟩
    · intro b dgram hmem
      rcases List.mem_append.mp hmem with hold | hnew
      · exact hset.requests b dgram hold
      · obtain ⟨rfl, rfl⟩ := Prod.mk.inj (List.mem_singleton.mp hnew)
        have hcall : (s.client b).phase.call = [call] := by rw [hphase]; rfl
        obtain ⟨hlen, hlast⟩ := hc.getLast hcall
        refine ⟨(s.client b).outcomes.length, now, call, ?_, ?_, ?_⟩
        · simpa [System.set, Client.sendmsg] using hlast
        · simp [System.set, Client.sendmsg, hlen]
        · rw [hc.seq, hlen]
    · intro b dgram hmem
      obtain ⟨request, hrequest, hecho⟩ := h.replies b dgram hmem
      exact ⟨request, List.mem_append_left _ hrequest, hecho⟩
  | alarm a =>
    have hc := h.client a
    rcases hen with ⟨call, hphase⟩ | ⟨call, inbuff, ts, hphase⟩
    all_goals
      have hcall : (s.client a).phase.call = [call] := by rw [hphase]; rfl
      simp only [System.next, hphase]
      exact h.set a (hc.timeout hcall (by rw [hphase]; rfl))
        (Client.timeout_calls _ _ ▸ List.prefix_rfl) (Client.timeout_stamps _ _ ▸ List.prefix_rfl)
  | recvmsg a dgram =>
    obtain ⟨⟨call, hphase⟩, hmem⟩ := hen
    obtain ⟨request, hrequest, rfl⟩ := h.replies a dgram hmem
    simp only [System.next, hphase]
    exact h.set a ((h.client a).recvmsg hphase (h.requests a request hrequest))
      (Client.recvmsg_calls _ _ _ ▸ List.prefix_rfl) (Client.recvmsg_stamps _ _ _ ▸ List.prefix_rfl)
  | stop a now =>
    obtain ⟨call, inbuff, ts, hphase⟩ := hen
    simp only [System.next, hphase]
    exact h.set a ((h.client a).stop hphase now) List.prefix_rfl List.prefix_rfl
  | echo a dgram =>
    refine ⟨h.client, h.requests, ?_⟩
    intro b dgram' hmem
    rcases List.mem_append.mp hmem with hold | hnew
    · exact h.replies b dgram' hold
    · obtain ⟨rfl, rfl⟩ := Prod.mk.inj (List.mem_singleton.mp hnew)
      exact ⟨dgram, hen, rfl⟩

theorem Reachable.inv (h : s.Reachable) : s.Inv :=
  Interleaving.Reachable.invariant h Inv inv_init fun _ _ hs hen => hs.next hen

end System

/-- Each call gets the reply to its own request, however the network loses, duplicates and
reorders the datagrams of any number of clients, and whenever the timers expire. The calls
of a client end in the order in which they were made. A call that returns data returns its
own data, as much of it as the server echoes and the caller has room for, and measures the
time since one of its own datagrams was sent. A call that is given up has sent its request
four times. The numbers of the calls must not come round. -/
theorem replies_match {α : Type*} [DecidableEq α] {s : System α} (h : s.Reachable) (a : α)
    (hcalls : (s.client a).calls.length < 2 ^ 32) :
    (s.client a).outcomes.map Outcome.call ++ (s.client a).phase.call = (s.client a).calls ∧
      ∀ (i : ℕ) (o : Outcome), (s.client a).outcomes[i]? = some o →
        o.Fine (s.client a).stamps (i + 1) := by
  have hinv := h.inv.client a
  exact ⟨hinv.calls, hinv.outcomes hcalls⟩

/-- The reply to the first of two transmissions comes after the second one. -/
theorem replies_match_late : ∃ s : System Unit, s.Reachable ∧
    (s.client ()).outcomes = [.replied ⟨[104, 105], 10⟩ [104, 105] 2 20 15] ∧
    ∀ (i : ℕ) (o : Outcome), (s.client ()).outcomes[i]? = some o →
      o.Fine (s.client ()).stamps (i + 1) := by
  have hreach : System.Reachable (α := Unit) _ := Interleaving.Reachable.foldl .init
    [.call () ⟨[104, 105], 10⟩, .sendmsg () 5, .echo () (hdr 1 5 ++ [104, 105]), .alarm (),
      .sendmsg () 9, .recvmsg () (hdr 1 5 ++ [104, 105]), .stop () 20]
    (by
      refine ⟨rfl, ⟨_, rfl⟩, List.mem_cons_self, .inl ⟨_, rfl⟩, ⟨_, rfl⟩, ⟨⟨_, rfl⟩, ?_⟩,
        ⟨_, _, _, rfl⟩, trivial⟩
      exact List.mem_cons_self)
  obtain ⟨-, hfine⟩ := replies_match hreach () (by decide)
  exact ⟨_, hreach, rfl, hfine⟩

end NetworkPrograms.Exchange
