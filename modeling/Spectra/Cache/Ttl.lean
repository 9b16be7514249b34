import Spectra.Cache.Sharded
import Spectra.Cache.WriterRuns
import Spectra.Library.ByteReader
import Mathlib.Algebra.Ring.Int.Defs

/-! The TTL store over the sharded store and the asynchronous writer. -/
namespace Spectra.Cache

open Library Relation

def maxInt64 : ℕ := 2 ^ 63 - 1

/-- `binary.BigEndian.PutUint64`. -/
def putUint64 (v : UInt64) : Bytes :=
  [56, 48, 40, 32, 24, 16, 8, 0].map fun k => UInt8.ofNat (v.toNat / 2 ^ k)

/-- A call of `TTLStore.Put` at the clock's `now`; times and durations in nanoseconds. -/
structure TTLPut where
  key : Bytes
  payload : Bytes
  now : ℤ
  ttl : ℤ

namespace TTLPut

def expiresAt (p : TTLPut) : Int64 := Int64.ofInt (p.now + p.ttl)

def frame (p : TTLPut) : Bytes := putUint64 p.expiresAt.toUInt64 ++ p.payload

def blob (p : TTLPut) : Except String Bytes :=
  if p.expiresAt < 0 then .error "ttl store: ttl yields negative unix-nano expiry"
  else if maxInt64 - 8 < p.payload.length then .error "ttl store: payload too large"
  else .ok p.frame

def job (p : TTLPut) : WriteJob := ⟨p.key, p.frame⟩

/-- The expiry is after 1970 and within the range of `UnixNano`. -/
def InRange (p : TTLPut) : Prop := 0 ≤ p.now + p.ttl ∧ p.now + p.ttl < 2 ^ 63

end TTLPut

/-- `TTLStore.Get` at the clock's `now`, with `none` for the panic of the store below. -/
def ttlGet (st : Store) (key : Bytes) (now : ℤ) : Option (Option Bytes) :=
  (st.get key).map fun found => found.bind fun blob =>
    if blob.length < 8 then none
    else
      let raw := Reader.bigEndian (blob.take 8)
      if maxInt64 < raw then none
      else if now < raw then some (blob.drop 8)
      else none

/-- No call of `Write` or `Close` is under way. -/
structure Writer.Idle (s : Writer) : Prop where
  live : s.crashed = false
  writes : ∀ w ∈ s.writes, ∃ wroteSync, w.stage = .returned wroteSync
  closes : ∀ c ∈ s.closes, c = .returned

/-- The writer of a TTL store with one caller, and the caller's puts. -/
structure Caller where
  writer : Writer
  calls : List TTLPut

/-- The caller starts a put or a close only after its last call has returned; the workers go on
at any time. -/
inductive Caller.Step (s : Caller) : Caller → Prop
  | put {p : TTLPut} {blob : Bytes} (hidle : s.writer.Idle) (hkey : p.key ≠ [])
    (hrange : p.InRange) (hblob : p.blob = .ok blob) :
    Caller.Step s
      ⟨{ s.writer with writes := s.writer.writes ++ [⟨⟨p.key, blob⟩, .loading⟩] }, s.calls ++ [p]⟩
  | close (hidle : s.writer.Idle) :
    Caller.Step s { s with writer := { s.writer with closes := s.writer.closes ++ [.swapping] } }
  | run {w : Writer} (hstep : s.writer.Step w) (hwrites : w.writes.length = s.writer.writes.length)
    (hcloses : w.closes.length = s.writer.closes.length) : Caller.Step s { s with writer := w }

def Writer.pending (s : Writer) : List WriteJob := s.hands ++ s.queue

/-- A step by which no write passes an older one of its key: a synchronous put finds no older
write of its key pending, and neither does a send, unless there is just one worker. -/
structure Writer.Ordered (s s' : Writer) : Prop where
  put : ∀ (i : ℕ) (job : WriteJob), s.writes[i]? = some ⟨job, .putting⟩ →
    s'.writes[i]? = some ⟨job, .returned true⟩ → ∀ older ∈ s.pending, older.key ≠ job.key
  send : ∀ (i : ℕ) (job : WriteJob), s.writes[i]? = some ⟨job, .sending⟩ →
    s'.writes[i]? = some ⟨job, .returned false⟩ →
      s.workers.length ≤ 1 ∨ ∀ older ∈ s.pending, older.key ≠ job.key

def Caller.new (queueSize workers : ℕ) : Caller := ⟨.new queueSize workers, []⟩

def Caller.Reachable (queueSize workers : ℕ) (s : Caller) : Prop :=
  ReflTransGen Caller.Step (.new queueSize workers) s

def Caller.ReachableOrdered (queueSize workers : ℕ) (s : Caller) : Prop :=
  ReflTransGen (fun s s' => Caller.Step s s' ∧ s.writer.Ordered s'.writer)
    (.new queueSize workers) s

def Caller.lastPut (s : Caller) (key : Bytes) : Option TTLPut :=
  (s.calls.filter (·.key = key)).getLast?

end Spectra.Cache
