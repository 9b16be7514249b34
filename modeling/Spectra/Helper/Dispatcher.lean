import Mathlib.Data.Int.Notation
import Mathlib.Data.List.Basic
import Std.Data.ExtTreeMap

/-! The dispatcher of the privileged helper. -/
namespace Spectra.Helper

structure Request where
  jsonrpc : String
  id : String
  method : String
  params : String
  deriving DecidableEq

structure RPCError where
  code : ℤ
  message : String
  deriving DecidableEq

structure Response where
  id : String
  result : Option String
  error : Option RPCError
  deriving DecidableEq

/-- A line of the audit log, without its times. -/
structure AuditEvent where
  uid : UInt32
  method : String
  ok : Bool
  error : String
  deriving DecidableEq

/-- Times in nanoseconds; `seen` has the times of a user's requests that were let through. -/
structure RateLimiter where
  maxRequests : ℤ
  window : ℤ
  seen : Std.ExtTreeMap UInt32 (List ℤ)

/-- `audit` has what was written to the audit log, if there is a writer. -/
structure Dispatcher where
  handlers : List String
  limit : Option RateLimiter
  audit : Option (List AuditEvent)

def Dispatcher.new (handlers : List String) : Dispatcher := ⟨handlers, none, none⟩

def Dispatcher.setRateLimit (d : Dispatcher) (maxRequests window : ℤ) : Dispatcher :=
  if maxRequests ≤ 0 ∨ window ≤ 0 then { d with limit := none }
  else { d with limit := some ⟨maxRequests, window, ∅⟩ }

/-- `hits` of a user; a user that is not in the map has none. -/
def RateLimiter.hits (l : RateLimiter) (uid : UInt32) : List ℤ := l.seen.getD uid []

/-- The hits that are left after the loop over them. -/
def RateLimiter.keep (l : RateLimiter) (uid : UInt32) (now : ℤ) : List ℤ :=
  (l.hits uid).filter (now - l.window < ·)

def RateLimiter.allow (l : RateLimiter) (uid : UInt32) (now : ℤ) : Bool × RateLimiter :=
  if l.maxRequests ≤ (l.keep uid now).length then
    (false, { l with seen := l.seen.insert uid (l.keep uid now) })
  else (true, { l with seen := l.seen.insert uid (l.keep uid now ++ [now]) })

def Dispatcher.allowRequest (d : Dispatcher) (uid : UInt32) (now : ℤ) : Bool × Dispatcher :=
  match d.limit with
  | none => (true, d)
  | some l => ((l.allow uid now).1, { d with limit := some (l.allow uid now).2 })

/-- What comes in: the user, the clock at the start of `handle`, the decoded message (none if it is
not JSON of this shape), what the handler would return for it at this moment, and whether the audit
log can be written to. -/
structure Message where
  uid : UInt32
  start : ℤ
  request : Option Request
  outcome : Except String String
  writable : Bool

/-- Writes a line, if there is a log; an error of the writer is ignored. -/
def Dispatcher.auditRequest (d : Dispatcher) (m : Message) (method : String) (ok : Bool)
    (msg : String) : Dispatcher :=
  { d with audit := d.audit.map fun log =>
      if m.writable then log ++ [⟨m.uid, method, ok, msg⟩] else log }

def rateLimitExceeded : RPCError := ⟨-32001, "rate limit exceeded"⟩

/-- `handle` after the limiter has let the request through. -/
def Dispatcher.run (d : Dispatcher) (m : Message) (req : Request) : Response × Dispatcher :=
  if req.method ∉ d.handlers then
    (⟨req.id, none, some ⟨-32601, "method not found: " ++ req.method⟩⟩,
      d.auditRequest m req.method false "method not found")
  else
    match m.outcome with
    | .error err =>
      (⟨req.id, none, some ⟨-32603, err⟩⟩, d.auditRequest m req.method false err)
    | .ok result => (⟨req.id, some result, none⟩, d.auditRequest m req.method true "")

def Dispatcher.handle (d : Dispatcher) (m : Message) : Response × Dispatcher :=
  match m.request with
  | none => (⟨"", none, some ⟨-32700, "parse error"⟩⟩, d.auditRequest m "" false "parse error")
  | some req =>
    if req.jsonrpc ≠ "2.0" ∨ req.method = "" then
      (⟨req.id, none, some ⟨-32600, "invalid request"⟩⟩, d.auditRequest m req.method false "invalid request")
    else
      match d.allowRequest m.uid m.start with
      | (false, d) =>
        (⟨req.id, none, some rateLimitExceeded⟩, d.auditRequest m req.method false "rate limit exceeded")
      | (true, d) => d.run m req

/-- The messages one after another, each with its response, and the dispatcher at the end. -/
def Dispatcher.serve (d : Dispatcher) : List Message → List (Message × Response) × Dispatcher
  | [] => ([], d)
  | m :: ms =>
    let (answered, d') := (d.handle m).2.serve ms
    ((m, (d.handle m).1) :: answered, d')

/-- The message is a request: JSON, version 2.0, with a method. -/
def Message.wellFormed (m : Message) : Bool :=
  match m.request with
  | none => false
  | some req => decide (req.jsonrpc = "2.0" ∧ req.method ≠ "")

/-- A request that was not turned away by the limiter. -/
def admitted (x : Message × Response) : Bool :=
  x.1.wellFormed && decide (x.2.error ≠ some rateLimitExceeded)

def admittedTimes (uid : UInt32) (answered : List (Message × Response)) : List ℤ :=
  (answered.filter fun x => admitted x && decide (x.1.uid = uid)).map (·.1.start)

/-- What the audit log says of a message and the answer to it, without the text of the error. -/
def auditKey (x : Message × Response) : UInt32 × String × Bool :=
  (x.1.uid, x.1.request.elim "" Request.method, x.2.error.isNone)

theorem Dispatcher.audit_handle {d : Dispatcher} {m : Message} {log : List AuditEvent}
    (hlog : d.audit = some log) (hwrite : m.writable = true) : ∃ e : AuditEvent,
      (d.handle m).2.audit = some (log ++ [e]) ∧
        (e.uid, e.method, e.ok) = auditKey (m, (d.handle m).1) := by
  have hline {d : Dispatcher} (h : d.audit = some log) (method : String) (ok : Bool) (msg : String) :
      (d.auditRequest m method ok msg).audit = some (log ++ [⟨m.uid, method, ok, msg⟩]) := by
    simp [auditRequest, h, hwrite]
  rw [handle]
  cases hreq : m.request with
  | none => exact ⟨_, hline hlog _ _ _, by simp [auditKey, hreq]⟩
  | some req =>
    dsimp only
    split
    · exact ⟨_, hline hlog _ _ _, by simp [auditKey, hreq]⟩
    · have hlimit : (d.allowRequest m.uid m.start).2.audit = some log := by
        rw [allowRequest, ← hlog]
        cases d.limit <;> rfl
      generalize d.allowRequest m.uid m.start = r at hlimit ⊢
      obtain ⟨_ | _, d'⟩ := r
      · exact ⟨_, hline hlimit _ _ _, by simp [auditKey, hreq]⟩
      · dsimp only
        rw [run]
        split
        · exact ⟨_, hline hlimit _ _ _, by simp [auditKey, hreq]⟩
        · cases m.outcome <;> exact ⟨_, hline hlimit _ _ _, by simp [auditKey, hreq]⟩

/-- With a log that can be written to, every message, also one that is malformed or over the limit,
has its one line in it, in the order of the messages. -/
theorem Dispatcher.serve_audited {d : Dispatcher} {log : List AuditEvent} (hlog : d.audit = some log)
    (ms : List Message) (hwrite : ∀ m ∈ ms, m.writable = true) :
    ∃ lines, (d.serve ms).2.audit = some (log ++ lines) ∧
      lines.map (fun e => (e.uid, e.method, e.ok)) = (d.serve ms).1.map auditKey := by
  induction ms generalizing d log with
  | nil => exact ⟨[], by rw [List.append_nil]; exact hlog, rfl⟩
  | cons m ms ih =>
    obtain ⟨hm, hms⟩ := List.forall_mem_cons.mp hwrite
    obtain ⟨e, haudit, hkey⟩ := audit_handle hlog hm
    obtain ⟨lines, hlines, hkeys⟩ := ih haudit hms
    refine ⟨e :: lines, ?_, congrArg₂ _ hkey hkeys⟩
    rw [List.append_cons]
    exact hlines

def status (uid : UInt32) (start : ℤ) : Message :=
  ⟨uid, start, some ⟨"2.0", "1", "status", ""⟩, .ok "up", true⟩

/-- A request that is answered, and one that is not JSON. -/
theorem Dispatcher.serve_audited_status : ∃ lines,
    (serve ⟨["status"], none, some []⟩ [status 1 0, { status 2 5 with request := none }]).2.audit = some lines ∧
      lines.map (fun e => (e.uid, e.method, e.ok)) = [(1, "status", true), (2, "", false)] :=
  serve_audited (d := ⟨["status"], none, some []⟩) rfl [status 1 0, { status 2 5 with request := none }]
    (by decide)

end Spectra.Helper
