import NetworkPrograms.Foundations.Runs

/-!
# The event loop of mymuduo

`Channel`, `Poller` and `EventLoop`. A channel is an object with an address; it
holds its descriptor, the events it asks for, the events last reported and its
index in the vector `pollfds_` of the poller, which also keeps a map from
descriptors to channels. The assertions of the source are errors here. All
channels belong to one loop, and everything runs in the thread of the loop.

The callbacks of the channels are the user's. What the n-th callback of a run
does is the n-th entry of a script: it may ask for events on any channel, also
on one that is not registered yet, and it may call `quit`. An `int` is an exact
integer.
-/
namespace NetworkPrograms.Muduo

open Function

def POLLIN : ℕ := 1

def POLLPRI : ℕ := 2

def POLLOUT : ℕ := 4

def POLLERR : ℕ := 8

def POLLNVAL : ℕ := 32

def POLLRDHUP : ℕ := 8192

def kNoneEvent : ℕ := 0

def kReadEvent : ℕ := POLLIN ||| POLLPRI

def kWriteEvent : ℕ := POLLOUT

structure Channel where
  fd_ : ℤ
  events_ : ℕ := 0
  revents_ : ℤ := 0
  index_ : ℤ := -1
  deriving DecidableEq

structure PollFd where
  fd : ℤ
  events : ℤ
  revents : ℤ
  deriving DecidableEq

def toShort (n : ℕ) : ℤ :=
  if n % 2 ^ 16 < 2 ^ 15 then (n % 2 ^ 16 : ℕ) else ((n % 2 ^ 16 : ℕ) : ℤ) - 2 ^ 16

/-- The assertions of `updateChannel` and `fillActiveChannels`, in their order. -/
inductive Assertion where
  | channelFound
  | channelSame
  | indexInRange
  | entryFd
  | activeFound
  | activeFd
  deriving DecidableEq, Repr

def check (p : Prop) [Decidable p] (a : Assertion) : Except Assertion Unit :=
  if p then .ok () else .error a

/-- The channels by address, the fields of the poller and of the loop, the number
of callbacks made, and the calls of `handleEvent` with the events they saw. -/
structure EventLoop where
  channel : ℕ → Channel
  pollfds_ : List PollFd := []
  Channels_ : ℤ → Option ℕ := fun _ => none
  activeChannels_ : List ℕ := []
  looping_ : Bool := false
  quit_ : Bool := false
  callbacks : ℕ := 0
  handled : List (ℕ × ℤ) := []

inductive Op where
  | enableReading (ch : ℕ)
  | enableWriting (ch : ℕ)
  | quit
  deriving DecidableEq, Repr

/-- What `poll` returns, and the `revents` it writes by position. -/
structure Polled where
  numEvents : ℤ
  revents : ℕ → ℤ

namespace EventLoop

variable (s : EventLoop)

/-- `Poller::updateChannel`. The assertion on the index is that the entry is there;
the entry of a known channel keeps its `events`. -/
def updateChannel (ch : ℕ) : Except Assertion EventLoop :=
  let channel := s.channel ch
  if channel.index_ < 0 then
    let pfd : PollFd := ⟨channel.fd_, toShort channel.events_, 0⟩
    let pollfds := s.pollfds_ ++ [pfd]
    let idx : ℤ := pollfds.length - 1
    .ok { s with
      pollfds_ := pollfds
      channel := update s.channel ch { channel with index_ := idx }
      Channels_ := update s.Channels_ pfd.fd (some ch) }
  else do
    check ((s.Channels_ channel.fd_).isSome) .channelFound
    check (s.Channels_ channel.fd_ = some ch) .channelSame
    let idx := channel.index_.toNat
    match s.pollfds_[idx]? with
    | none => .error .indexInRange
    | some pfd =>
      check (pfd.fd = channel.fd_ ∨ pfd.fd = -1) .entryFd
      let pfd := { pfd with revents := 0 }
      let pfd := if channel.events_ = kNoneEvent then { pfd with fd := -1 } else pfd
      .ok { s with pollfds_ := s.pollfds_.set idx pfd }

/-- `events_ |= mask; update();` -/
def enable (mask ch : ℕ) : Except Assertion EventLoop :=
  { s with
    channel := update s.channel ch
      { s.channel ch with events_ := (s.channel ch).events_ ||| mask } }.updateChannel ch

def enableReading (ch : ℕ) : Except Assertion EventLoop := s.enable kReadEvent ch

def enableWriting (ch : ℕ) : Except Assertion EventLoop := s.enable kWriteEvent ch

def perform : Op → Except Assertion EventLoop
  | .enableReading ch => s.enableReading ch
  | .enableWriting ch => s.enableWriting ch
  | .quit => .ok { s with quit_ := true }

/-- The next callback of the run. One that is not set does nothing. -/
def callback (user : ℕ → List Op) : Except Assertion EventLoop :=
  Runs.run perform { s with callbacks := s.callbacks + 1 } (user s.callbacks)

/-- A callback of `handleEvent`, made when one of its events has been reported. -/
def callbackOn (user : ℕ → List Op) (ch mask : ℕ) : Except Assertion EventLoop :=
  if (s.channel ch).revents_.toNat &&& mask ≠ 0 then s.callback user else .ok s

/-- `Channel::handleEvent`: the callbacks for errors, reading and writing. -/
def handleEvent (user : ℕ → List Op) (ch : ℕ) : Except Assertion EventLoop := do
  let s := { s with handled := s.handled ++ [(ch, (s.channel ch).revents_)] }
  let s ← s.callbackOn user ch (POLLERR ||| POLLNVAL)
  let s ← s.callbackOn user ch (POLLIN ||| POLLPRI ||| POLLRDHUP)
  s.callbackOn user ch POLLOUT

/-- A channel is given its reported events and put on the active list. -/
def report (ch : ℕ) (revents : ℤ) : EventLoop :=
  { s with
    channel := update s.channel ch { s.channel ch with revents_ := revents }
    activeChannels_ := s.activeChannels_ ++ [ch] }

/-- `Poller::fillActiveChannels`, the scan of the entries from some position on. -/
def fillActiveChannels : List PollFd → ℤ → EventLoop → Except Assertion EventLoop
  | [], _, s => .ok s
  | pfd :: pfds, numEvents, s =>
    if numEvents > 0 then
      if pfd.revents > 0 then
        match s.Channels_ pfd.fd with
        | none => .error .activeFound
        | some ch => do
          check ((s.channel ch).fd_ = pfd.fd) .activeFd
          fillActiveChannels pfds (numEvents - 1) (s.report ch pfd.revents)
      else fillActiveChannels pfds numEvents s
    else .ok s

/-- The kernel writes the `revents` of every entry. -/
def answer (r : Polled) : EventLoop :=
  { s with pollfds_ := s.pollfds_.mapIdx fun i pfd => { pfd with revents := r.revents i } }

def poll (r : Polled) : Except Assertion EventLoop :=
  let s := s.answer r
  if r.numEvents > 0 then fillActiveChannels s.pollfds_ r.numEvents s else .ok s

/-- The body of the `while` loop of `EventLoop::loop`. -/
def iterate (user : ℕ → List Op) (r : Polled) : Except Assertion EventLoop := do
  let s ← { s with activeChannels_ := [] }.poll r
  Runs.run (fun s ch => s.handleEvent user ch) s s.activeChannels_

end EventLoop

/-- What the thread does next: a call from outside the loop, the call of `loop`,
or one round of it. -/
inductive Turn where
  | call (op : Op)
  | loop
  | round (r : Polled)

/-- `loop` cannot be called from inside itself; its `while` tests `quit_` before
every round. -/
def EventLoop.step (user : ℕ → List Op) (s : EventLoop) : Turn → Except Assertion EventLoop
  | .call op => s.perform op
  | .loop => .ok (if s.looping_ then s else { s with looping_ := true, quit_ := false })
  | .round r =>
    if s.looping_ = false then .ok s
    else if s.quit_ then .ok { s with looping_ := false }
    else s.iterate user r

/-- A loop whose channels have been constructed with the given descriptors. -/
def EventLoop.init (fd : ℕ → ℤ) : EventLoop := { channel := fun ch => { fd_ := fd ch } }

def EventLoop.run (fd : ℕ → ℤ) (user : ℕ → List Op) (turns : List Turn) :
    Except Assertion EventLoop :=
  Runs.run (EventLoop.step user) (EventLoop.init fd) turns

end NetworkPrograms.Muduo
