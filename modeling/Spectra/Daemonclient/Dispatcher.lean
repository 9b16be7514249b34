import Spectra.Daemonclient.Client
import Spectra.Library.Monitor

/-! The client with the locking of its notification queue. -/
namespace Spectra.Daemonclient

open Library

/-- The goroutines that use `notifyMu`. -/
inductive Goroutine
  | dispatcher
  | readLoop
  deriving DecidableEq

/-- Where `dispatchNotifications` is: before `Lock`, at the loop condition, at the `select`,
before `Wait`, in `Wait`, before the `Unlock` after a pop, at the callback, before the `Unlock`
that precedes its `return`, or returned. -/
inductive DispatchStage
  | locking
  | checking
  | selecting
  | parking
  | parked
  | unlocking
  | calling
  | leaving
  | done
  deriving DecidableEq

/-- Where `readLoop` is with the queue; `closing i` is its deferred `Close`, the `i`th of all. -/
inductive QueueStage
  | off
  | appending
  | signalling
  | unlocking
  | closing (i : ℕ)

/-- How far the body given to `closeOnce` is. -/
inductive CloseOnce
  | fresh
  | closing
  | hangingUp
  | broadcasting
  | finishing
  | done
  deriving DecidableEq

/-- A call of `Close`; the `running` one is inside `closeOnce`. -/
inductive Closer
  | called
  | running
  | returned
  deriving DecidableEq

structure Synced where
  client : State
  notify : Monitor Goroutine
  dispatcher : DispatchStage
  reader : QueueStage
  closeOnce : CloseOnce
  closers : List Closer

def Synced.dialed : Synced := ⟨.dialed, .new, .locking, .off, .fresh, []⟩

/-- The steps of `dispatchNotifications`. -/
inductive DispatchStep (s : Synced) : Synced → Prop
  | lock (hat : s.dispatcher = .locking) (hfree : s.notify.owner = none) :
    DispatchStep s { s with notify := s.notify.lock .dispatcher, dispatcher := .checking }
  | empty (hat : s.dispatcher = .checking) (hqueue : s.client.notifications = []) :
    DispatchStep s { s with dispatcher := .selecting }
  | sawClosed (hat : s.dispatcher = .selecting) (hclosed : s.client.closed = true) :
    DispatchStep s { s with dispatcher := .leaving }
  | sawOpen (hat : s.dispatcher = .selecting) (hclosed : s.client.closed = false) :
    DispatchStep s { s with dispatcher := .parking }
  | wait (hat : s.dispatcher = .parking) :
    DispatchStep s { s with notify := s.notify.wait .dispatcher, dispatcher := .parked }
  | rejoin (hat : s.dispatcher = .parked) (hwoken : .dispatcher ∈ s.notify.woken)
    (hfree : s.notify.owner = none) :
    DispatchStep s { s with notify := s.notify.rejoin .dispatcher, dispatcher := .checking }
  | pop {n : Notification} {rest : List Notification} (hat : s.dispatcher = .checking)
    (hqueue : s.client.notifications = n :: rest) :
    DispatchStep s
      { s with
        client := { s.client with dispatcher := .running n, notifications := rest }
        dispatcher := .unlocking }
  | unlock (hat : s.dispatcher = .unlocking) :
    DispatchStep s { s with notify := s.notify.unlock, dispatcher := .calling }
  | call {n : Notification} (hat : s.dispatcher = .calling)
    (hrunning : s.client.dispatcher = .running n) :
    DispatchStep s
      { s with
        client := { s.client with dispatcher := .idle, ran := s.client.ran ++ [n] }
        dispatcher := .locking }
  | leave (hat : s.dispatcher = .leaving) :
    DispatchStep s
      { s with
        client := { s.client with dispatcher := .done }
        notify := s.notify.unlock, dispatcher := .done }

/-- The steps of `readLoop` that append a notification, and its deferred `Close`. -/
inductive ReaderStep (s : Synced) : Synced → Prop
  | lock {n : Notification} (hat : s.reader = .off) (hqueue : s.client.readLoop = .queueing n)
    (hfree : s.notify.owner = none) :
    ReaderStep s { s with notify := s.notify.lock .readLoop, reader := .appending }
  | append {n : Notification} (hat : s.reader = .appending)
    (hqueue : s.client.readLoop = .queueing n) :
    ReaderStep s
      { s with
        client :=
          { s.client with notifications := s.client.notifications ++ [n], readLoop := .reading }
        reader := .signalling }
  | signal (hat : s.reader = .signalling) :
    ReaderStep s { s with notify := s.notify.signal, reader := .unlocking }
  | unlock (hat : s.reader = .unlocking) :
    ReaderStep s { s with notify := s.notify.unlock, reader := .off }
  | close (hat : s.reader = .off) (hclosing : s.client.readLoop = .closing) :
    ReaderStep s
      { s with closers := s.closers ++ [.called], reader := .closing s.closers.length }
  | closed {i : ℕ} (hat : s.reader = .closing i) (hreturned : s.closers[i]? = some .returned) :
    ReaderStep s
      { s with client := { s.client with readLoop := .done, closed := true }, reader := .off }

/-- The broadcast of `Close`, for which `notifyMu` is not taken. -/
def Synced.broadcast (s : Synced) : Synced :=
  { s with notify := s.notify.broadcast, closeOnce := .finishing }

/-- The steps of `Close`. Only the first call enters the body of `closeOnce`, and every call
returns after the body has ended. -/
inductive CloseStep (s : Synced) : Synced → Prop
  | call : CloseStep s { s with closers := s.closers ++ [.called] }
  | enter {i : ℕ} (hcalled : s.closers[i]? = some .called) (hfresh : s.closeOnce = .fresh) :
    CloseStep s { s with closers := s.closers.set i .running, closeOnce := .closing }
  | closeChan (hat : s.closeOnce = .closing) :
    CloseStep s { s with client := { s.client with closed := true }, closeOnce := .hangingUp }
  | hangUp (hat : s.closeOnce = .hangingUp) : CloseStep s { s with closeOnce := .broadcasting }
  | broadcast (hat : s.closeOnce = .broadcasting) : CloseStep s s.broadcast
  | finish (hat : s.closeOnce = .finishing) : CloseStep s { s with closeOnce := .done }
  | ret {i : ℕ} {c : Closer} (hcloser : s.closers[i]? = some c) (hdone : s.closeOnce = .done) :
    CloseStep s { s with closers := s.closers.set i .returned }

/-- What the locking does not concern is the same in both states. -/
structure SameQueue (c c' : State) : Prop where
  notifications : c'.notifications = c.notifications
  dispatcher : c'.dispatcher = c.dispatcher
  closed : c'.closed = c.closed

/-- `readLoop` has not moved. -/
structure SameReader (c c' : State) : Prop where
  readLoop : c'.readLoop = c.readLoop
  seen : c'.seen = c.seen

/-- Any step of the client. A step of `Client` that leaves the queue, the dispatcher and `closed`
alone is a step here: one of a call at any time, one of `readLoop` when it is not busy with the
queue or with `Close`. -/
inductive SyncStep (s : Synced) : Synced → Prop
  | dispatch {s' : Synced} (hstep : DispatchStep s s') : SyncStep s s'
  | queue {s' : Synced} (hstep : ReaderStep s s') : SyncStep s s'
  | close {s' : Synced} (hstep : CloseStep s s') : SyncStep s s'
  | call {c : State} (hstep : Step s.client c) (hqueue : SameQueue s.client c)
    (hreader : SameReader s.client c) : SyncStep s { s with client := c }
  | read {c : State} (hstep : Step s.client c) (hqueue : SameQueue s.client c)
    (hoff : s.reader = .off) (hopen : s.client.readLoop ≠ .closing) :
    SyncStep s { s with client := c }

def SyncReachable (s : Synced) : Prop := Relation.ReflTransGen SyncStep .dialed s

/-- Some `Close` has returned, and the dispatcher waits on the condition with nothing in the queue
and no wake-up under way. -/
def Synced.Stranded (s : Synced) : Prop :=
  .returned ∈ s.closers ∧ s.dispatcher = .parked ∧ s.notify.Blocked .dispatcher ∧
    s.client.notifications = []

/-- A step that is not a broadcast between the dispatcher's look at `closed` and its `Wait`. -/
def HeardInTime (s s' : Synced) : Prop :=
  s.closeOnce = .broadcasting → s'.closeOnce = .finishing → s.dispatcher ≠ .parking

end Spectra.Daemonclient
