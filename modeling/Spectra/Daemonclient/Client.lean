import Mathlib.Data.List.Basic
import Mathlib.Data.Int.Notation
import Mathlib.Logic.Relation
import Std.Data.ExtTreeMap

/-! The daemon client: concurrent calls that wait for their replies, the `readLoop` that routes
replies through the `pending` map and queues notifications, and the goroutine that runs the
notification callbacks. -/
namespace Spectra.Daemonclient

structure RPCError where
  code : ℤ
  message : String
  deriving DecidableEq

structure Reply where
  result : String
  error : Option RPCError
  deriving DecidableEq

/-- A line of the server that is JSON; `id` is what decodes as an unsigned integer. -/
structure Msg where
  id : Option ℕ
  method : String
  params : String
  reply : Reply

/-- A queued notification. `index` is the number of the message it came with. -/
structure Notification where
  fn : ℕ
  method : String
  params : String
  index : ℕ

/-- What a call has after it registered: its id, its channel and the number of messages that
`readLoop` had looked up by then. -/
structure Reg where
  id : ℕ
  ch : ℕ
  since : ℕ

/-- What `Call` returns: the decoding of a reply or an error of its own. -/
inductive Outcome
  | decoded (reply : Reply)
  | errClosed
  | ctxErr
  | marshalErr
  | writeErr

/-- How far a call is. A call that finds the client closed at its start is `refused` with
`net.ErrClosed` and never registers. -/
inductive Call
  | begun
  | refused
  | entering
  | writing (reg : Reg)
  | waiting (reg : Reg)
  | closing (reg : Reg)
  | leaving (reg : Reg) (outcome : Outcome)
  | returned (reg : Reg) (outcome : Outcome)

inductive ReadLoop
  | reading
  | handling (msg : Msg)
  | queueing (n : Notification)
  | sending (ch : ℕ) (reply : Reply)
  | closing
  | done

inductive Dispatcher
  | idle
  | running (n : Notification)
  | done

/-- `chans` are the channels made so far, each with room for one reply. `seen` has the messages
that `readLoop` has looked up (none for a line that is not JSON) and `ran` the notifications whose
callback was run. -/
structure State where
  next : ℕ
  pending : Std.ExtTreeMap ℕ ℕ
  chans : List (Option Reply)
  closed : Bool
  calls : List Call
  readLoop : ReadLoop
  seen : List (Option Msg)
  onNotification : Option ℕ
  notifications : List Notification
  dispatcher : Dispatcher
  ran : List Notification

def State.dialed : State := ⟨0, ∅, [], false, [], .reading, [], none, [], .idle, []⟩

/-- Call `i` makes its channel and registers under the next id. -/
def State.register (s : State) (i : ℕ) : State :=
  { s with
    next := s.next + 1, chans := s.chans ++ [none]
    pending := s.pending.insert (s.next + 1) s.chans.length
    calls := s.calls.set i (.writing ⟨s.next + 1, s.chans.length, s.seen.length⟩) }

def State.receive (s : State) (i : ℕ) (reg : Reg) (r : Reply) : State :=
  { s with
    chans := s.chans.set reg.ch none, calls := s.calls.set i (.leaving reg (.decoded r)) }

def State.leave (s : State) (i : ℕ) (reg : Reg) (o : Outcome) : State :=
  { s with
    pending := s.pending.erase reg.id, calls := s.calls.set i (.returned reg o) }

/-- A send that does not block: a full channel stays as it is. -/
def offer (chans : List (Option Reply)) (ch : ℕ) (reply : Reply) : List (Option Reply) :=
  match chans[ch]? with
  | some none => chans.set ch (some reply)
  | _ => chans

def State.send (s : State) (ch : ℕ) (reply : Reply) : State :=
  { s with chans := offer s.chans ch reply, readLoop := .reading }

/-- Where `readLoop` goes with a message that has a method. -/
def State.hear (s : State) (msg : Msg) : ReadLoop :=
  match s.onNotification with
  | none => .reading
  | some fn => .queueing ⟨fn, msg.method, msg.params, s.seen.length⟩

/-- Where `readLoop` goes with a message that has none. -/
def State.lookup (s : State) (msg : Msg) : ReadLoop :=
  match msg.id.bind fun id => s.pending[id]? with
  | none => .reading
  | some ch => .sending ch msg.reply

def State.handled (s : State) (msg : Msg) (readLoop : ReadLoop) : State :=
  { s with seen := s.seen ++ [some msg], readLoop := readLoop }

/-- What a call does without touching anything shared. The `select` may take any ready case. -/
inductive Advance (s : State) : Call → Call → Prop
  | refused (hclosed : s.closed = true) : Advance s .begun .refused
  | passed (hclosed : s.closed = false) : Advance s .begun .entering
  | unencodable (reg : Reg) : Advance s (.writing reg) (.leaving reg .marshalErr)
  | writeFailed (reg : Reg) : Advance s (.writing reg) (.leaving reg .writeErr)
  | written (reg : Reg) : Advance s (.writing reg) (.waiting reg)
  | ctxDone (reg : Reg) : Advance s (.waiting reg) (.leaving reg .ctxErr)
  | sawClosed (reg : Reg) (hclosed : s.closed = true) : Advance s (.waiting reg) (.closing reg)
  | nothing (reg : Reg) (hempty : s.chans[reg.ch]? = some none) :
    Advance s (.closing reg) (.leaving reg .errClosed)

/-- One step of a call, of `readLoop` or of the dispatcher. -/
inductive Step (s : State) : State → Prop
  | call : Step s { s with calls := s.calls ++ [.begun] }
  | advance {i : ℕ} {c c' : Call} (hcall : s.calls[i]? = some c) (hadvance : Advance s c c') :
    Step s { s with calls := s.calls.set i c' }
  | register {i : ℕ} (hcall : s.calls[i]? = some .entering) : Step s (s.register i)
  | receive {i : ℕ} {c : Call} {reg : Reg} {r : Reply} (hcall : s.calls[i]? = some c)
    (hselect : c = .waiting reg ∨ c = .closing reg) (hready : s.chans[reg.ch]? = some (some r)) :
    Step s (s.receive i reg r)
  | leave {i : ℕ} {reg : Reg} {o : Outcome} (hcall : s.calls[i]? = some (.leaving reg o)) :
    Step s (s.leave i reg o)
  | onNotification (fn : Option ℕ) : Step s { s with onNotification := fn }
  | malformed (hreading : s.readLoop = .reading) : Step s { s with seen := s.seen ++ [none] }
  | read (hreading : s.readLoop = .reading) (msg : Msg) :
    Step s { s with readLoop := .handling msg }
  | hear {msg : Msg} (hmsg : s.readLoop = .handling msg) (hmethod : msg.method ≠ "") :
    Step s (s.handled msg (s.hear msg))
  | queue {n : Notification} (hqueue : s.readLoop = .queueing n) :
    Step s { s with notifications := s.notifications ++ [n], readLoop := .reading }
  | lookup {msg : Msg} (hmsg : s.readLoop = .handling msg) (hmethod : msg.method = "") :
    Step s (s.handled msg (s.lookup msg))
  | send {ch : ℕ} {r : Reply} (hsend : s.readLoop = .sending ch r) : Step s (s.send ch r)
  | readFailed (hreading : s.readLoop = .reading) : Step s { s with readLoop := .closing }
  | hangUp (hclosing : s.readLoop = .closing) :
    Step s { s with readLoop := .done, closed := true }
  | pop {n : Notification} {rest : List Notification} (hidle : s.dispatcher = .idle)
    (hqueue : s.notifications = n :: rest) :
    Step s { s with dispatcher := .running n, notifications := rest }
  | run {n : Notification} (hrunning : s.dispatcher = .running n) :
    Step s { s with dispatcher := .idle, ran := s.ran ++ [n] }
  | dispatched (hidle : s.dispatcher = .idle) (hqueue : s.notifications = [])
    (hclosed : s.closed = true) : Step s { s with dispatcher := .done }

/-- Someone other than `readLoop` closes the client. -/
def Close (s s' : State) : Prop := s' = { s with closed := true }

def Reachable (s : State) : Prop :=
  Relation.ReflTransGen (fun s s' => Step s s' ∨ Close s s') .dialed s

def ReachableByHangUp (s : State) : Prop := Relation.ReflTransGen Step .dialed s

end Spectra.Daemonclient
