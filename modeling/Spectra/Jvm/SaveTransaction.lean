import Spectra.Jvm.HistoryStore
import Spectra.Library.Connection

/-! `SaveJVMSamples` statement by statement. -/
namespace Spectra.Jvm
open Library

/-- A wrapped error: what was being done, and whether the context was done by then. -/
structure SaveError where
  what : String
  ctxDone : Bool

inductive CommitError
  | busy
  | error
  | ctxDone

/-- The busy wait of one `COMMIT`, in milliseconds. -/
def commitPollSlice : ℕ := 50

variable {Text : Type} {codec : Codec Text}

def wrapSave (what : String) (c : Conn (HistoryDB codec)) : SaveError × Conn (HistoryDB codec) :=
  (⟨what, c.ctxErr.1⟩, c.ctxErr.2)

def saveRows : List JVMSample → Conn (HistoryDB codec) → Option SaveError × Conn (HistoryDB codec)
  | [], c => (none, c)
  | sm :: samples, c =>
    let inserted := if sm.nmtOnly then (.ok, c) else c.write (HistoryDB.insertGC sm)
    if inserted.1 = .ok then
      let saved := inserted.2.write (HistoryDB.saveNMTSample sm)
      if saved.1 = .ok then saveRows samples saved.2
      else (wrapSave "save nmt sample" saved.2).map some id
    else (wrapSave "insert jvm_samples" inserted.2).map some id

def saveJVMSampleRows (samples : List JVMSample) (c : Conn (HistoryDB codec)) :
    Option SaveError × Conn (HistoryDB codec) :=
  let prepared := c.exec id
  if prepared.1 = .ok then saveRows samples prepared.2
  else (wrapSave "prepare jvm_samples" prepared.2).map some id

def commitAttempt (c : Conn (HistoryDB codec)) : Option CommitError × Conn (HistoryDB codec) :=
  let checked := c.ctxErr
  if checked.1 then (some .ctxDone, checked.2)
  else
    match checked.2.commit with
    | (.ok, c) => (none, c)
    | (.busy, c) => (some .busy, c)
    | (.error, c) => (some .error, c)

/-- The loop of `commitCancellable` with the attempts that are left. -/
def commitLoop : ℕ → Conn (HistoryDB codec) → Option CommitError × Conn (HistoryDB codec)
  | attempts, c =>
    match commitAttempt c with
    | (some .busy, c) =>
      let checked := c.ctxErr
      if checked.1 then (some .ctxDone, checked.2)
      else
        match attempts with
        | 0 => (some .busy, checked.2)
        | attempts + 1 => commitLoop attempts checked.2
    | (result, c) => (result, c)

/-- The deferred restore: a connection with another timeout does not go back to the pool. -/
def restoreTimeout (prev : ℕ) (c : Conn (HistoryDB codec)) : Conn (HistoryDB codec) :=
  if (c.setTimeout prev).1 = .ok then (c.setTimeout prev).2 else (c.setTimeout prev).2.discard

/-- The deferred rollback: a connection inside a transaction does not go back to the pool. -/
def rollbackOrDiscard (c : Conn (HistoryDB codec)) : Conn (HistoryDB codec) :=
  if c.rollback.1 = .ok then c.rollback.2 else c.rollback.2.discard

def commitCancellable (c : Conn (HistoryDB codec)) : Option CommitError × Conn (HistoryDB codec) :=
  let read := c.exec id
  let prev := c.busyTimeout
  if read.1 ≠ .ok then (some .error, read.2)
  else if prev ≤ commitPollSlice then commitAttempt read.2
  else
    let sliced := read.2.setTimeout commitPollSlice
    let result :=
      if sliced.1 ≠ .ok then (some .error, sliced.2)
      else commitLoop (prev / commitPollSlice) sliced.2
    (result.1, restoreTimeout prev result.2)

/-- The statements between `BEGIN` and the deferred rollback. -/
def saveBody (samples : List JVMSample) (c : Conn (HistoryDB codec)) :
    Option SaveError × Conn (HistoryDB codec) :=
  match saveJVMSampleRows samples c with
  | (some err, c) => (some err, c)
  | (none, c) =>
    match commitCancellable c with
    | (none, c) => (none, c)
    | (some _, c) => (wrapSave "commit jvm_samples" c).map some id

/-- `acquired` says whether the pool gives a connection. The connection returned goes back to
the pool unless it is discarded. -/
def saveJVMSamples (acquired : Bool) (samples : List JVMSample) (c : Conn (HistoryDB codec)) :
    Option SaveError × Conn (HistoryDB codec) :=
  if samples = [] then (none, c)
  else if acquired then
    let begun := c.begin
    if begun.1 = .ok then
      match saveBody samples begun.2 with
      | (none, c) => (none, c)
      | (some err, c) => (some err, rollbackOrDiscard c)
    else (wrapSave "begin jvm_samples" begun.2.discard).map some id
  else (wrapSave "acquire connection" c).map some id

end Spectra.Jvm
