import Mathlib.Data.List.Basic
import Mathlib.Data.Int.Notation
import Mathlib.Logic.Relation

/-! One connection of the daemon: a reader that starts a handler for each request, at most 32 at
a time, handlers that run concurrently, and the goroutines that they let notify the client. All
of them share the write lock. -/
namespace Spectra.Daemon

def codeParseError : ℤ := -32700
def codeInvalidRequest : ℤ := -32600
def codeMethodNotFound : ℤ := -32601
def codeInvalidParams : ℤ := -32602
def codeInternalError : ℤ := -32603

def methodStatus : String := "daemon.status"
def methodShutdown : String := "daemon.shutdown"

/-- The capacity of `sem`. -/
def maxHandlers : ℕ := 32

/-- What `json.Unmarshal` makes of a line; an absent id is none. -/
structure Message where
  jsonrpc : String
  id : Option String
  method : String

/-- The JSON parser and the registered methods. -/
structure Env where
  parse : String → Option Message
  registered : String → Bool

inductive Kind
  | parseError
  | invalid (id : Option String)
  | notification
  | request (id method : String)

def Env.classify (env : Env) (line : String) : Kind :=
  match env.parse line with
  | none => .parseError
  | some msg =>
    if msg.jsonrpc ≠ "2.0" ∨ msg.method = "" then .invalid msg.id
    else
      match msg.id with
      | none => .notification
      | some id => .request id msg.method

/-- The body of a response, with the JSON text of a result. -/
inductive Body
  | result (text : String)
  | error (code : ℤ) (message : String)

/-- A line of output. A response is marked with the number of the message it answers. -/
inductive Out
  | response (origin : ℕ) (id : String) (body : Body)
  | notification (text : String)

inductive Chunk
  | text (line : Out)
  | newline

inductive Phase
  | start
  | running
  | responding (line : Out)

def Phase.isRunning : Phase → Bool
  | .running => true
  | _ => false

/-- A goroutine of `handle`. -/
structure Job where
  origin : ℕ
  id : String
  method : String
  phase : Phase

def Job.reply (j : Job) (body : Body) : Out := .response j.origin j.id body

inductive Reader
  | idle
  | waiting (job : Job)
  | responding (line : Out)

inductive Owner
  | reader
  | job (origin : ℕ)
  | notifier

/-- The write lock while it is held, with the line to be written; `half` says that only the
newline is still missing. -/
structure Held where
  owner : Owner
  line : Out
  half : Bool

/-- `log` has the messages read, `lost` those whose result could not be encoded. `notify` says
that some handler was given its `notify`, and `notifiers` are the calls of it under way. -/
structure State where
  input : List String
  log : List String
  reader : Reader
  jobs : List Job
  notify : Bool
  notifiers : List String
  lock : Option Held
  out : List Chunk
  lost : List ℕ
  stop : Bool

/-- `bytes.TrimRight` of line ends. -/
def trimLine (line : String) : String :=
  String.ofList (line.toList.reverse.dropWhile fun c => c = '\r' ∨ c = '\n').reverse

def readMessage : List String → Option (String × List String)
  | [] => none
  | line :: rest => if trimLine line = "" then readMessage rest else some (trimLine line, rest)

def Env.afterRead (env : Env) (origin : ℕ) (line : String) : Reader :=
  match env.classify line with
  | .parseError => .responding (.response origin "null" (.error codeParseError "parse error"))
  | .invalid id => .responding
      (.response origin (id.getD "null") (.error codeInvalidRequest "invalid request"))
  | .notification => .idle
  | .request id method => .waiting ⟨origin, id, method, .start⟩

/-- What a job does on its own: the dispatch on its method, and any end of its handler but a
result that cannot be encoded. -/
inductive Act (env : Env) (j : Job) : Phase → Prop
  | status (hphase : j.phase = .start) (hmethod : j.method = methodStatus) (text : String) :
    Act env j (.responding (j.reply (.result text)))
  | shutdown (hphase : j.phase = .start) (hmethod : j.method = methodShutdown) :
    Act env j (.responding (j.reply (.result "\x7b\"ok\":true\x7d")))
  | unknown (hphase : j.phase = .start) (hstatus : j.method ≠ methodStatus)
    (hshutdown : j.method ≠ methodShutdown) (hmethod : env.registered j.method = false) :
    Act env j (.responding (j.reply (.error codeMethodNotFound "method not found")))
  | call (hphase : j.phase = .start) (hstatus : j.method ≠ methodStatus)
    (hshutdown : j.method ≠ methodShutdown) (hmethod : env.registered j.method = true) :
    Act env j .running
  | value (hphase : j.phase = .running) (text : String) :
    Act env j (.responding (j.reply (.result text)))
  | failed (hphase : j.phase = .running) (invalid : Bool) (message : String) :
    Act env j (.responding (j.reply (.error (if invalid then codeInvalidParams else codeInternalError) message)))
  | panics (hphase : j.phase = .running) :
    Act env j (.responding (j.reply (.error codeInternalError "internal error")))

/-- One step of the reader, of a job, of a notifier or of whoever holds the write lock. -/
inductive Step (env : Env) (s : State) : State → Prop
  | read {line : String} {rest : List String} (hidle : s.reader = .idle)
    (hread : readMessage s.input = some (line, rest)) :
    Step env s { s with
      input := rest, log := s.log ++ [line], reader := env.afterRead s.log.length line }
  | spawn {job : Job} (hwaiting : s.reader = .waiting job) (hslot : s.jobs.length < maxHandlers) :
    Step env s { s with jobs := s.jobs ++ [job], reader := .idle }
  | act {l r : List Job} {j : Job} {phase : Phase} (hjobs : s.jobs = l ++ j :: r)
    (hact : Act env j phase) :
    Step env s { s with
      jobs := l ++ { j with phase := phase } :: r, notify := s.notify || phase.isRunning }
  | unencodable {l r : List Job} {j : Job} (hjobs : s.jobs = l ++ j :: r)
    (hphase : j.phase = .running) :
    Step env s { s with jobs := l ++ r, lost := j.origin :: s.lost }
  | readerLock {line : Out} (hreader : s.reader = .responding line) (hfree : s.lock = none) :
    Step env s { s with lock := some ⟨.reader, line, false⟩ }
  | jobLock {j : Job} {line : Out} (hjob : j ∈ s.jobs) (hphase : j.phase = .responding line)
    (hfree : s.lock = none) : Step env s { s with lock := some ⟨.job j.origin, line, false⟩ }
  | notifierLock {text : String} (hcall : text ∈ s.notifiers) (hfree : s.lock = none) :
    Step env s { s with lock := some ⟨.notifier, .notification text, false⟩ }
  | body {owner : Owner} {origin : ℕ} {id : String} {body : Body}
    (hlock : s.lock = some ⟨owner, .response origin id body, false⟩) :
    Step env s { s with
      lock := some ⟨owner, .response origin id body, true⟩
      out := s.out ++ [.text (.response origin id body)] }
  | readerNewline {line : Out} (hreader : s.reader = .responding line)
    (hlock : s.lock = some ⟨.reader, line, true⟩) :
    Step env s { s with lock := none, out := s.out ++ [.newline], reader := .idle }
  | jobNewline {l r : List Job} {j : Job} {line : Out} (hjobs : s.jobs = l ++ j :: r)
    (hphase : j.phase = .responding line) (hlock : s.lock = some ⟨.job j.origin, line, true⟩) :
    Step env s { s with
      lock := none, out := s.out ++ [.newline], jobs := l ++ r
      stop := s.stop || j.method == methodShutdown }
  | notified {l r : List String} {text : String} (hcalls : s.notifiers = l ++ text :: r)
    (hlock : s.lock = some ⟨.notifier, .notification text, false⟩) :
    Step env s { s with
      lock := none, out := s.out ++ [.text (.notification text), .newline], notifiers := l ++ r }

/-- A handler, or a goroutine that it left behind, calls `notify`. -/
def Notify (s s' : State) : Prop :=
  s.notify = true ∧ ∃ text, s' = { s with notifiers := s.notifiers ++ [text] }

def State.start (input : List String) : State :=
  ⟨input, [], .idle, [], false, [], none, [], [], false⟩

/-- Any interleaving of the steps and of calls of `notify`. -/
def Reachable (env : Env) (input : List String) (s : State) : Prop :=
  Relation.ReflTransGen (fun s s' => Step env s s' ∨ Notify s s') (.start input) s

/-- Nothing is left to do: every line was read, every handler has returned and no call of
`notify` is under way. -/
def Finished (env : Env) (s : State) : Prop := ∀ s', ¬ Step env s s'

end Spectra.Daemon
