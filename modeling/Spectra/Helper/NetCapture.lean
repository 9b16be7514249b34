import Spectra.Library.GoText
import Std.Data.ExtTreeMap

/-! The capture sessions of the privileged helper. -/
namespace Spectra.Helper.NetCapture

open Library

/-- What `ctx.Err()` says of a context that is done. -/
inductive CtxErr
  | deadlineExceeded
  | canceled
  deriving DecidableEq

/-- Where the waiter of a session is: not started, in `proc.Wait`, at the capture file, at its look
at `ctx.Err()`, at `forget`, or returned. -/
inductive Waiter
  | unstarted
  | waiting
  | finalizing
  | checking
  | forgetting
  | finished
  deriving DecidableEq

/-- `netCaptureResult`. -/
structure CaptureResult where
  waitErr : Option String
  fileErr : Option String
  size : ℕ

/-- A session with its process (`exited`), its context (`expired` when the deadline has passed,
`err` for `ctx.Err()`), its waiter and its channel `done`. -/
structure Session where
  uid : UInt32
  number : ℕ
  output : String
  exited : Bool
  expired : Bool
  err : Option CtxErr
  waiter : Waiter
  done : Option CaptureResult

def handleOf (number : ℕ) : String := "netcap-" ++ String.ofList (GoText.decimal number)

def Session.handle (c : Session) : String := handleOf c.number

/-- The first error of a context stays. -/
def Session.ctxDone (c : Session) (e : CtxErr) : Session := { c with err := some (c.err.getD e) }

inductive StopError
  | missingHandle
  | unknownHandle
  | otherUID
  | finalize (err : String)

structure StopResult where
  handle : String
  outputPath : String
  sizeBytes : ℕ
  waitError : Option String

/-- How far a `stop` is: before it takes the lock, before `sess.cancel`, at the wait for the
result, or returned; with the session that it took out of the map. -/
inductive StopStage
  | begun
  | canceling (j : ℕ)
  | waiting (j : ℕ)
  | returned (taken : Option ℕ) (result : Except StopError StopResult)

structure Stop where
  uid : UInt32
  handle : String
  stage : StopStage

def Stop.taken (st : Stop) : Option ℕ :=
  match st.stage with
  | .begun => none
  | .canceling j | .waiting j => some j
  | .returned taken _ => taken

/-- A `stop` that returned a result. -/
def Stop.Succeeded (st : Stop) : Prop := ∃ taken r, st.stage = .returned taken (.ok r)

/-- `sessions` maps a handle to the position of its session among all that were started. -/
structure Manager where
  next : ℕ
  started : List Session
  sessions : Std.ExtTreeMap String ℕ
  stops : List Stop

def Manager.new : Manager := ⟨0, [], ∅, []⟩

/-- What the process, the deadline and the waiter do to a session outside the map. -/
inductive Session.Step (c : Session) : Session → Prop
  | exit : Session.Step c { c with exited := true }
  | expire : Session.Step c { c.ctxDone .deadlineExceeded with expired := true }
  | reap (hat : c.waiter = .waiting) (hexited : c.exited = true) :
    Session.Step c { c with waiter := .finalizing }
  | finalize (hat : c.waiter = .finalizing) (result : CaptureResult) :
    Session.Step c { c with waiter := .checking, done := some result }
  | checkExpired (hat : c.waiter = .checking) (herr : c.err = some .deadlineExceeded) :
    Session.Step c { c with waiter := .forgetting }
  | checkOther (hat : c.waiter = .checking) (herr : c.err ≠ some .deadlineExceeded) :
    Session.Step c { c with waiter := .finished }

/-- Why `stop` refuses, if it does. -/
def Manager.refusal (m : Manager) (uid : UInt32) (handle : String) : Option StopError :=
  if handle = "" then some .missingHandle
  else
    match m.sessions[handle]? with
    | none => some .unknownHandle
    | some j =>
      match m.started[j]? with
      | none => none
      | some c => if uid = 0 ∨ uid = c.uid then none else some .otherUID

/-- What `stop` returns for the result of the capture. -/
def stopResult (handle output : String) (r : CaptureResult) : Except StopError StopResult :=
  match r.fileErr with
  | some err => .error (.finalize err)
  | none => .ok ⟨handle, output, r.size, r.waitErr⟩

/-- One step of a `start`, a session or a `stop`. A `start` that fails before its session is in
the map only uses up a number. -/
inductive Step (m : Manager) : Manager → Prop
  | startFails : Step m { m with next := m.next + 1 }
  | launch (uid : UInt32) (output : String) :
    Step m
      { m with
        next := m.next + 1
        started := m.started ++ [⟨uid, m.next + 1, output, false, false, none, .unstarted, none⟩] }
  | insert {j : ℕ} {c : Session} (hat : m.started[j]? = some c) (hnew : c.waiter = .unstarted) :
    Step m
      { m with
        sessions := m.sessions.insert c.handle j
        started := m.started.set j { c with waiter := .waiting } }
  | session {j : ℕ} {c c' : Session} (hat : m.started[j]? = some c) (hstep : c.Step c') :
    Step m { m with started := m.started.set j c' }
  | forget {j : ℕ} {c : Session} (hat : m.started[j]? = some c) (hforget : c.waiter = .forgetting) :
    Step m
      { m with
        sessions := m.sessions.erase c.handle
        started := m.started.set j { c with waiter := .finished } }
  | stop (uid : UInt32) (handle : String) :
    Step m { m with stops := m.stops ++ [⟨uid, handle, .begun⟩] }
  | refuse {k : ℕ} {uid : UInt32} {handle : String} {e : StopError}
    (hat : m.stops[k]? = some ⟨uid, handle, .begun⟩) (hrefusal : m.refusal uid handle = some e) :
    Step m { m with stops := m.stops.set k ⟨uid, handle, .returned none (.error e)⟩ }
  | take {k j : ℕ} {uid : UInt32} {handle : String} {c : Session}
    (hat : m.stops[k]? = some ⟨uid, handle, .begun⟩) (hrefusal : m.refusal uid handle = none)
    (hsession : m.sessions[handle]? = some j) (hstarted : m.started[j]? = some c) :
    Step m
      { m with
        sessions := m.sessions.erase handle
        stops := m.stops.set k ⟨uid, handle, .canceling j⟩ }
  | cancel {k j : ℕ} {uid : UInt32} {handle : String} {c : Session}
    (hat : m.stops[k]? = some ⟨uid, handle, .canceling j⟩) (hstarted : m.started[j]? = some c) :
    Step m
      { m with
        started := m.started.set j (c.ctxDone .canceled)
        stops := m.stops.set k ⟨uid, handle, .waiting j⟩ }
  | receive {k j : ℕ} {uid : UInt32} {handle : String} {c : Session} {r : CaptureResult}
    (hat : m.stops[k]? = some ⟨uid, handle, .waiting j⟩) (hstarted : m.started[j]? = some c)
    (hdone : c.done = some r) :
    Step m
      { m with
        started := m.started.set j { c with done := none }
        stops := m.stops.set k ⟨uid, handle, .returned (some j) (stopResult handle c.output r)⟩ }
  | timeout {k j : ℕ} {uid : UInt32} {handle : String} {c : Session}
    (hat : m.stops[k]? = some ⟨uid, handle, .waiting j⟩) (hstarted : m.started[j]? = some c) :
    Step m
      { m with
        stops := m.stops.set k ⟨uid, handle, .returned (some j)
          (.ok ⟨handle, c.output, 0, some "timeout waiting for tcpdump to stop"⟩)⟩ }

def Reachable (m : Manager) : Prop := Relation.ReflTransGen Step .new m

/-- A session whose waiter has returned and whose deadline has passed is still in the map. -/
def Manager.Leaked (m : Manager) (j : ℕ) : Prop :=
  ∃ c, m.started[j]? = some c ∧ c.waiter = .finished ∧ c.expired = true ∧
    m.sessions[c.handle]? = some j

/-- A step by which no waiter looks at `ctx.Err()` before the deadline while its session is in the
map. -/
def Timely (m m' : Manager) : Prop :=
  ∀ (j : ℕ) (c c' : Session), m.started[j]? = some c → m'.started[j]? = some c' →
    c.waiter = .checking → c'.waiter ≠ .checking →
      c.expired = true ∨ m.sessions[c.handle]? ≠ some j

def ReachableTimely (m : Manager) : Prop :=
  Relation.ReflTransGen (fun m m' => Step m m' ∧ Timely m m') .new m

end Spectra.Helper.NetCapture
