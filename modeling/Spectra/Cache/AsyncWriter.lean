import Mathlib.Data.List.Basic
import Mathlib.Logic.Relation

/-! The asynchronous cache writer. -/
namespace Spectra.Cache

abbrev Bytes := List UInt8

/-- `writeJob`. -/
structure WriteJob where
  key : Bytes
  data : Bytes
  deriving DecidableEq

/-- How far a call of `Write` is: before it loads `closed`, at the `select`, before a `Put` of its
own, returned with `wroteSync`, or panicked. -/
inductive WriteStage
  | loading
  | sending
  | putting
  | returned (wroteSync : Bool)
  | panicked
  deriving DecidableEq

structure Write where
  job : WriteJob
  stage : WriteStage
  deriving DecidableEq

/-- What a call that has neither put nor queued its job still has in hand. -/
def Write.held (w : Write) : List WriteJob :=
  match w.stage with
  | .loading | .sending | .putting => [w.job]
  | .returned _ | .panicked => []

inductive Worker
  | receiving
  | putting (job : WriteJob)
  | done
  deriving DecidableEq

def Worker.hand : Worker → List WriteJob
  | .putting job => [job]
  | .receiving | .done => []

/-- How far a call of `Close` is: before the swap of `closed`, before `close(w.queue)`, in
`w.wg.Wait` or returned. -/
inductive Close
  | swapping
  | closing
  | waiting
  | returned
  deriving DecidableEq

/-- `puts` has the puts in the store, the oldest first. A send on the closed queue, or closing it
again, panics and takes the process with it: `crashed`. -/
structure Writer where
  cap : ℕ
  queue : List WriteJob
  queueClosed : Bool
  closed : Bool
  writes : List Write
  workers : List Worker
  closes : List Close
  puts : List WriteJob
  crashed : Bool

/-- `NewAsyncWriter`. -/
def Writer.new (queueSize workers : ℕ) : Writer :=
  ⟨queueSize, [], false, false, [], .replicate workers .receiving, [], [], false⟩

namespace Writer

def issued (s : Writer) : List WriteJob := s.writes.map Write.job

def held (s : Writer) : List WriteJob := s.writes.flatMap Write.held

def hands (s : Writer) : List WriteJob := s.workers.flatMap Worker.hand

def opened (s : Writer) : WriteStage := if s.cap = 0 then .putting else .sending

def closeQueue (s : Writer) (k : ℕ) : Writer :=
  { s with queueClosed := true, closes := s.closes.set k .waiting }

/-- One step of a `Write`, a worker or a `Close`. -/
inductive Act (s : Writer) : Writer → Prop
  | write (job : WriteJob) : Act s { s with writes := s.writes ++ [⟨job, .loading⟩] }
  | loadClosed {i : ℕ} {job : WriteJob} (hat : s.writes[i]? = some ⟨job, .loading⟩)
    (hclosed : s.closed = true) : Act s { s with writes := s.writes.set i ⟨job, .putting⟩ }
  | loadOpen {i : ℕ} {job : WriteJob} (hat : s.writes[i]? = some ⟨job, .loading⟩)
    (hclosed : s.closed = false) : Act s { s with writes := s.writes.set i ⟨job, s.opened⟩ }
  | send {i : ℕ} {job : WriteJob} (hat : s.writes[i]? = some ⟨job, .sending⟩)
    (hopen : s.queueClosed = false) (hroom : s.queue.length < s.cap) :
    Act s
      { s with
        queue := s.queue ++ [job], writes := s.writes.set i ⟨job, .returned false⟩ }
  | full {i : ℕ} {job : WriteJob} (hat : s.writes[i]? = some ⟨job, .sending⟩)
    (hopen : s.queueClosed = false) (hfull : s.cap ≤ s.queue.length) :
    Act s { s with writes := s.writes.set i ⟨job, .putting⟩ }
  | panic {i : ℕ} {job : WriteJob} (hat : s.writes[i]? = some ⟨job, .sending⟩)
    (hclosed : s.queueClosed = true) :
    Act s { s with writes := s.writes.set i ⟨job, .panicked⟩, crashed := true }
  | put {i : ℕ} {job : WriteJob} (hat : s.writes[i]? = some ⟨job, .putting⟩) :
    Act s { s with puts := s.puts ++ [job], writes := s.writes.set i ⟨job, .returned true⟩ }
  | receive {j : ℕ} {job : WriteJob} {rest : List WriteJob}
    (hat : s.workers[j]? = some .receiving) (hqueue : s.queue = job :: rest) :
    Act s { s with queue := rest, workers := s.workers.set j (.putting job) }
  | store {j : ℕ} {job : WriteJob} (hat : s.workers[j]? = some (.putting job)) :
    Act s { s with puts := s.puts ++ [job], workers := s.workers.set j .receiving }
  | drained {j : ℕ} (hat : s.workers[j]? = some .receiving) (hqueue : s.queue = [])
    (hclosed : s.queueClosed = true) : Act s { s with workers := s.workers.set j .done }
  | close : Act s { s with closes := s.closes ++ [.swapping] }
  | swapFirst {k : ℕ} (hat : s.closes[k]? = some .swapping) (hclosed : s.closed = false) :
    Act s { s with closed := true, closes := s.closes.set k .closing }
  | swapAgain {k : ℕ} (hat : s.closes[k]? = some .swapping) (hclosed : s.closed = true) :
    Act s { s with closes := s.closes.set k .waiting }
  | closeQueue {k : ℕ} (hat : s.closes[k]? = some .closing) (hopen : s.queueClosed = false) :
    Act s (s.closeQueue k)
  | closeAgain {k : ℕ} (hat : s.closes[k]? = some .closing) (hclosed : s.queueClosed = true) :
    Act s { s with crashed := true }
  | wait {k : ℕ} (hat : s.closes[k]? = some .waiting) (hdone : ∀ w ∈ s.workers, w = .done) :
    Act s { s with closes := s.closes.set k .returned }

/-- A crashed process does nothing. -/
def Step (s s' : Writer) : Prop := s.crashed = false ∧ Act s s'

def Reachable (queueSize workers : ℕ) (s : Writer) : Prop :=
  Relation.ReflTransGen Step (.new queueSize workers) s

/-- Every call of `Write` has returned, and so has a call of `Close`. -/
def Finished (s : Writer) : Prop :=
  (∀ w ∈ s.writes, ∃ wroteSync, w.stage = .returned wroteSync) ∧ .returned ∈ s.closes

end Writer

end Spectra.Cache
