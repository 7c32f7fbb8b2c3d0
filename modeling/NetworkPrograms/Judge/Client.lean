import NetworkPrograms.Judge.Invariant

/-!
# The client of the lab task against the judge

`ClientTester` of `test_client.cpp` registers each message with the judge and
asks for results through `Check`. It keeps the highest index known to be good
in `SuccessMaxIdx` and answers queries up to that index itself. Both of its
counters are `uint32_t` fields that start at `-1`.

The numbers behind `TestStatus` come with a header that is not part of the
repository, so they are a parameter `code`.
-/
namespace NetworkPrograms.Judge

open NetworkTestServer

/-- What becomes of a call through the stub. A call that fails may or may not
have reached the server. -/
inductive Rpc where
  | replied
  | lost
  | unanswered
  deriving DecidableEq, Repr

/-- A reply as the client reads it; a field that is not set reads as 0. -/
structure Response where
  id : ℕ := 0
  reason : ℕ := 0
  deriving DecidableEq, Repr

structure ClientTester where
  SendSeq : ℕ := 2 ^ 32 - 1
  SuccessMaxIdx : ℕ := 2 ^ 32 - 1
  deriving DecidableEq, Repr

inductive Stop where
  | runtime_error (what : String)
  | fault (f : Fault)

/-- The client and the judge it talks to. -/
structure World where
  client : ClientTester := {}
  server : NetworkTestServer := {}

section Client

variable (code : TestStatus → ℕ)

def ErrorCode2Msg (s : ℕ) : String :=
  if s = code .Success then "Success"
  else if s = code .Wait then "Wait For Msg"
  else if s = code .WaitRPC then "Wait For Test"
  else if s = code .Diff then "Msg is Error"
  else if s = code .Unknow then "Unknow Error"
  else "Tester is Error"

/-- A call through the stub. The client looks at the outcome but only builds the
exception for a failed call and does not throw it, so that it goes on with the
response as it was. -/
def invoke (handler : NetworkTestServer → Except Fault (NetworkTestServer × Result))
    (s : NetworkTestServer) (response : Response) :
    Rpc → Except Stop (NetworkTestServer × Response)
  | .lost => .ok (s, response)
  | .replied => match handler s with
    | .ok (s, r) => .ok (s, ⟨r.id, code r.reason⟩)
    | .error f => .error (.fault f)
  | .unanswered => match handler s with
    | .ok (s, _) => .ok (s, response)
    | .error f => .error (.fault f)

/-- How `QueryStatus` and `SendAnswer` both treat a response. -/
def ClientTester.settle (c : ClientTester) (response : Response) : Except Stop ClientTester :=
  if response.reason ≥ code .ErrorLevel then
    .error (.runtime_error (ErrorCode2Msg code response.reason))
  else if response.reason = code .Success then
    .ok { c with SuccessMaxIdx := max c.SuccessMaxIdx response.id }
  else .ok c

/-- The index is unsigned, so the test for a negative one never holds. -/
def World.QueryStatus (w : World) (idx : ℕ) (response : Response) (rpc : Rpc) :
    Except Stop (World × Response) :=
  if idx ≤ w.client.SuccessMaxIdx then
    .ok (w, { id := w.client.SuccessMaxIdx, reason := code .Success })
  else do
    let (server, response) ← invoke code (·.ResultQuery (idx % 2 ^ 32)) w.server response rpc
    let client ← w.client.settle code response
    .ok (⟨client, server⟩, response)

def World.SendAnswer (w : World) (s : Bytes) (rpc : Rpc) : Except Stop World := do
  let client := { w.client with SendSeq := incr w.client.SendSeq }
  let (server, response) ← invoke code (·.AnswerRegister s) w.server {} rpc
  let client ← client.settle code response
  .ok ⟨client, server⟩

def World.commits (w : World) (msgs : List Bytes) : Except Stop World :=
  match Runs.run NetworkTestServer.commit w.server msgs with
  | .ok server => .ok { w with server := server }
  | .error f => .error (.fault f)

/-- `Check`, with the messages that are committed while it sleeps. -/
def World.Check (w : World) (rpc : Rpc) (during : List Bytes) : Except Stop (World × ℕ) := do
  let (w, response) ← w.QueryStatus code w.client.SendSeq {} rpc
  if response.id = w.client.SendSeq ∧ response.reason = code .Success then
    .ok (w, code .Success)
  else do
    let w ← w.commits during
    .ok (w, if response.id = w.client.SendSeq ∧ response.reason = code .Success then code .Success
      else response.reason)

/-- What can happen next: a step of the client's thread, or a commit. -/
inductive Event where
  | sendAnswer (s : Bytes) (rpc : Rpc)
  | check (rpc : Rpc) (during : List Bytes)
  | commit (msg : Bytes)
  deriving DecidableEq, Repr

/-- The client goes on whatever `Check` returns. -/
def World.step (w : World) : Event → Except Stop World
  | .sendAnswer s rpc => w.SendAnswer code s rpc
  | .check rpc during => do
    let (w, _) ← w.Check code rpc during
    .ok w
  | .commit msg => w.commits [msg]

def World.run (events : List Event) : Except Stop World := Runs.run (World.step code) {} events

def sendAnswers (events : List Event) : ℕ :=
  events.countP fun | .sendAnswer _ _ => true | _ => false

/-! ## The cache answers every query -/

/-- A judge that has never been asked to compare. -/
structure NetworkTestServer.Unasked (s : NetworkTestServer) : Prop where
  live : Live s
  status : s.status = .Success
  cmp : s.cmp = 0

/-- The cache holds the largest number there is, and the judge was never asked. -/
structure World.Unqueried (w : World) : Prop where
  cached : w.client.SuccessMaxIdx = 2 ^ 32 - 1
  seq_lt : w.client.SendSeq < 2 ^ 32
  server : w.server.Unasked

theorem World.unqueried_init : World.Unqueried {} where
  cached := rfl
  seq_lt := by simp
  server := ⟨live_init, rfl, rfl⟩

theorem NetworkTestServer.Unasked.commit {s : NetworkTestServer} (hs : s.Unasked) (msg : Bytes) :
    ∃ s', s.commit msg = .ok s' ∧ s'.Unasked := by
  obtain ⟨s', hrun, hlive, hst, -, -, hcmp, -⟩ := commit_spec hs.live hs.status msg
  exact ⟨s', hrun, hlive, hst, hcmp.trans hs.cmp⟩

theorem NetworkTestServer.Unasked.answerRegister {s : NetworkTestServer} (hs : s.Unasked)
    (content : Bytes) : ∃ s', s.AnswerRegister content = .ok (s', ⟨0, .Success⟩) ∧ s'.Unasked := by
  obtain ⟨s', hrun, hlive, hst, -, -, hcmp, -⟩ := AnswerRegister_spec hs.live hs.status content
  exact ⟨s', hs.cmp ▸ hrun, hlive, hst, hcmp.trans hs.cmp⟩

theorem World.Unqueried.commits {w : World} (hw : w.Unqueried) (msgs : List Bytes) :
    ∃ w', w.commits msgs = .ok w' ∧ w'.Unqueried := by
  obtain ⟨s, hrun, hs⟩ := Runs.run_invariant_of_forall Unasked
    (fun _ msg hs => hs.commit msg) hw.server msgs
  exact ⟨⟨w.client, s⟩, by simp [World.commits, hrun], hw.cached, hw.seq_lt, hs⟩

theorem invoke_answerRegister {s : NetworkTestServer} (hs : s.Unasked) (content : Bytes)
    (rpc : Rpc) :
    ∃ s' response, invoke code (·.AnswerRegister content) s {} rpc = .ok (s', response) ∧
      s'.Unasked ∧ response.id = 0 := by
  obtain ⟨s', hrun, hs'⟩ := hs.answerRegister content
  cases rpc with
  | lost => exact ⟨s, {}, rfl, hs, rfl⟩
  | replied => exact ⟨s', ⟨0, code .Success⟩, by simp [invoke, hrun], hs', rfl⟩
  | unanswered => exact ⟨s', {}, by simp [invoke, hrun], hs', rfl⟩

variable {code}

theorem ClientTester.settle_zero {c c' : ClientTester} {response : Response}
    (hid : response.id = 0) (h : c.settle code response = .ok c') : c' = c := by
  unfold ClientTester.settle at h
  split_ifs at h
  · cases h
    simp [hid]
  · cases h
    rfl

theorem World.Unqueried.sendAnswer {w w' : World} (hw : w.Unqueried) {s : Bytes} {rpc : Rpc}
    (h : w.SendAnswer code s rpc = .ok w') : w'.Unqueried := by
  obtain ⟨server, response, hrun, hserver, hid⟩ := invoke_answerRegister code hw.server s rpc
  simp only [World.SendAnswer, hrun, bind, Except.bind] at h
  split at h
  · cases h
  · rename_i client hclient
    cases h
    rw [ClientTester.settle_zero hid hclient]
    exact ⟨hw.cached, incr_lt _, hserver⟩

variable (code)

/-- Every query is answered from the cache, with `Success`, and `Check` passes
the reason on also when the identifier does not match. -/
theorem World.Unqueried.check {w : World} (hw : w.Unqueried) (rpc : Rpc) (during : List Bytes) :
    ∃ w', w.Check code rpc during = .ok (w', code .Success) ∧ w'.Unqueried := by
  have hle : w.client.SendSeq ≤ w.client.SuccessMaxIdx := by
    have := hw.cached
    have := hw.seq_lt
    omega
  obtain ⟨w', hrun, hw'⟩ := hw.commits during
  simp only [World.Check, World.QueryStatus, if_pos hle, bind, Except.bind, hrun]
  split_ifs
  · exact ⟨w, rfl, hw⟩
  · exact ⟨w', rfl, hw'⟩
  · exact ⟨w', rfl, hw'⟩

variable {code}

theorem World.Unqueried.step {w w' : World} (hw : w.Unqueried) {e : Event}
    (h : w.step code e = .ok w') : w'.Unqueried := by
  cases e with
  | sendAnswer s rpc => exact hw.sendAnswer h
  | check rpc during =>
    obtain ⟨u, hrun, hu⟩ := hw.check code rpc during
    simp only [World.step, hrun, bind, Except.bind] at h
    cases h
    exact hu
  | commit msg =>
    obtain ⟨u, hrun, hu⟩ := hw.commits [msg]
    rw [World.step, hrun] at h
    cases h
    exact hu

theorem World.run_unqueried {events : List Event} {w : World}
    (h : World.run code events = .ok w) : w.Unqueried :=
  Runs.run_induction World.Unqueried (fun _ _ _ hw hstep => hw.step hstep) World.unqueried_init h

/-- Passing says nothing. After any run of the client with at least one
`SendAnswer`, whatever the judge has received, `Check` returns `Success` and the
judge has compared fewer messages than were registered. -/
theorem check_passes_uncompared (code : TestStatus → ℕ) (events : List Event) (w : World)
    (h : World.run code events = .ok w) (hn : 1 ≤ sendAnswers events) (rpc : Rpc)
    (during : List Bytes) :
    ∃ w', w.Check code rpc during = .ok (w', code .Success) ∧
      ¬ sendAnswers events ≤ w'.server.cmp := by
  obtain ⟨w', hrun, hw'⟩ := (World.run_unqueried h).check code rpc during
  refine ⟨w', hrun, ?_⟩
  rw [hw'.server.cmp]
  omega

end Client

/-- The numbers of the enumerators in the order in which the client lists them. -/
def listed : TestStatus → ℕ
  | .Success => 0
  | .Wait => 1
  | .WaitRPC => 2
  | .Diff => 3
  | .Unknow => 4
  | .ErrorLevel => 5
  | .TestError => 6

theorem check_passes_uncompared_three :
    ∃ w w', World.run listed [.sendAnswer [97] .replied, .commit [98], .check .replied [],
        .sendAnswer [99] .replied] = .ok w ∧
      w.Check listed .replied [] = .ok (w', listed .Success) ∧ ¬ 2 ≤ w'.server.cmp := by
  obtain ⟨w', hcheck, hcmp⟩ := check_passes_uncompared listed
    [.sendAnswer [97] .replied, .commit [98], .check .replied [], .sendAnswer [99] .replied]
    _ rfl (by decide) .replied []
  exact ⟨_, w', rfl, hcheck, hcmp⟩

/-- One message is registered, nothing arrives, and the test is passed. -/
theorem check_passes_without_message :
    ¬ ∀ (code : TestStatus → ℕ) (events : List Event) (rpc : Rpc) (during : List Bytes)
      (w w' : World), Function.Injective code → 1 ≤ sendAnswers events →
      World.run code events = .ok w → w.Check code rpc during = .ok (w', code .Success) →
      sendAnswers events ≤ w'.server.cmp := by
  intro h
  have hinj : Function.Injective listed := by
    intro a b
    cases a <;> cases b <;> decide
  exact absurd (h listed [.sendAnswer [97] .replied] .replied [] _ _ hinj (by decide) rfl rfl)
    (by decide)

end NetworkPrograms.Judge
