import Spectra.Library.GoBytes

/-! Thread dumps of `jcmd Thread.print`, and the locks that their blocked threads are counted at. -/
namespace Spectra.Jvm
open List Library.GoBytes Option

inductive WaitCategory
  | running
  | sleeping
  | wait
  | park
  | monitor
  | unknown
  deriving DecidableEq

structure Thread where
  state : Bytes := []
  detail : Bytes := []
  lock : Bytes := []
  category : WaitCategory := .unknown

def reSpace (b : UInt8) : Bool := b ∈ ascii "\t\n\x0c\r "

def reDigit (b : UInt8) : Bool := 48 ≤ b ∧ b ≤ 57

def reState (b : UInt8) : Bool := 65 ≤ b ∧ b ≤ 90 ∨ b = 95

def reWord (b : UInt8) : Bool := reDigit b || reState b || (97 ≤ b && b ≤ 122)

/-- What is left after `\s+`. -/
def spaces (s : Bytes) : Option Bytes :=
  let rest := s.dropWhile reSpace
  if rest.length < s.length then some rest else none

/-- `threadHeaderRE`. -/
def isThreadHeader (line : Bytes) : Bool := (do
  let rest ← dropPrefix? line (ascii "\"")
  let (_, rest) ← cut rest (ascii "\"")
  let rest ← dropPrefix? (← spaces rest) (ascii "#")
  let after := rest.dropWhile reDigit
  return after.length < rest.length && !after.head?.any reWord).getD false

/-- The groups of `stateLineRE`. -/
def stateLine (line : Bytes) : Option (Bytes × Bytes) := do
  let rest ← dropPrefix? (← spaces line) (ascii "java.lang.Thread.State:")
  let rest ← spaces rest
  guard (rest.takeWhile reState ≠ [])
  let detail := do
    let rest ← dropPrefix? (← spaces (rest.dropWhile reState)) (ascii "(")
    let (detail, _) ← cut rest (ascii ")")
    return detail
  return (rest.takeWhile reState, detail.getD [])

/-- One line of the loop of `splitThreadBlocks`; a block is the list of its lines. -/
def splitLine : List (List Bytes) × List Bytes → Bytes →
    List (List Bytes) × List Bytes
  | (blocks, current), line =>
    let flushed := if current ≠ [] then blocks ++ [current] else blocks
    if isThreadHeader line then (flushed, [line])
    else if current ≠ [] ∧ trimSpace line ≠ [] then (blocks, current ++ [line])
    else (flushed, [])

def splitThreadBlocks (out : Bytes) : List (List Bytes) :=
  let (blocks, current) := (out.splitOn lf).foldl splitLine ([], [])
  if current ≠ [] then blocks ++ [current] else blocks

/-- The lock that `parseLockLine` takes from a line. -/
def lockOf (line : Bytes) : Option Bytes := do
  guard (contains line (ascii "parking to wait for") || contains line (ascii "waiting on") ||
    contains line (ascii "waiting to lock") || contains line (ascii "locked"))
  let start ← index (ascii "<") line
  let stop ← index (ascii ">") (line.drop start)
  return (line.drop start).take (stop + 1)

def parseLockLine (line : Bytes) (thread : Thread) : Thread :=
  { thread with lock := (lockOf line).getD thread.lock }

def classifyWait (thread : Thread) (block : Bytes) : WaitCategory :=
  let detail := toLower thread.detail
  let block := toLower block
  if thread.state = ascii "RUNNABLE" then .running
  else if thread.state = ascii "BLOCKED" then .monitor
  else if thread.state = ascii "WAITING" ∨ thread.state = ascii "TIMED_WAITING" then
    if contains detail (ascii "sleeping") then .sleeping
    else if contains detail (ascii "parking") || contains block (ascii "parking to wait for") then
      .park
    else .wait
  else .unknown

/-- A line of a block after the first; the frames of the stack are left out. -/
def parseLine (thread : Thread) (line : Bytes) : Thread :=
  match stateLine line with
  | some (state, detail) => { thread with state, detail }
  | none =>
    if (ascii "- ").isPrefixOf (trimSpace line) then parseLockLine (trimSpace line) thread
    else thread

def parseThreadBlock : List Bytes → Option Thread
  | [] => none
  | header :: rest =>
    if isThreadHeader header then
      let thread := rest.foldl parseLine {}
      let thread := if thread.state = [] then { thread with state := ascii "UNKNOWN" } else thread
      some { thread with category := classifyWait thread ([lf].intercalate (header :: rest)) }
    else none

def parseThreadDump (out : Bytes) : List Thread :=
  (splitThreadBlocks out).filterMap parseThreadBlock

/-- `MonitorLocks` of `Summarize`; a lock that is not in the map reads as zero. -/
def monitorLocks (threads : List Thread) : Bytes → ℕ :=
  threads.foldl (fun locks thread =>
    if thread.category = .monitor ∧ thread.lock ≠ [] then
      Function.update locks thread.lock (locks thread.lock + 1)
    else locks) fun _ => 0

def blockedBlocks (out : Bytes) : List (List Bytes) :=
  (splitThreadBlocks out).filter fun lines =>
    (parseThreadBlock lines).any (·.state = ascii "BLOCKED")

/-- The lock that a line of a block leaves in its thread. -/
def lockName (line : Bytes) : Option Bytes :=
  if (stateLine line).isNone ∧ (ascii "- ").isPrefixOf (trimSpace line) then lockOf (trimSpace line)
  else none

/-- The locks that the lock lines of a block name, in their order. -/
def lockNames (lines : List Bytes) : List Bytes := lines.tail.filterMap lockName

/-- The locks of the lines `- waiting to lock <X>`. -/
def waitsFor (lines : List Bytes) : List Bytes :=
  lines.tail.filterMap fun line =>
    if (ascii "- waiting to lock <").isPrefixOf (trimSpace line) then lockOf (trimSpace line)
    else none

private theorem lockOf_ne_nil {line lock : Bytes} (h : lockOf line = some lock) : lock ≠ [] := by
  obtain ⟨-, -, h⟩ := bind_eq_some_iff.mp h
  obtain ⟨start, -, h⟩ := bind_eq_some_iff.mp h
  obtain ⟨stop, hstop, h⟩ := bind_eq_some_iff.mp h
  rintro rfl
  rcases take_eq_nil_iff.mp (some.inj h) with hzero | hnil
  · cases hzero
  · rw [hnil] at hstop
    cases hstop

private theorem lock_foldl_parseLine (thread : Thread) (lines : List Bytes) :
    (lines.foldl parseLine thread).lock = (lines.filterMap lockName).getLast?.getD thread.lock := by
  induction lines using reverseRecOn with
  | nil => rfl
  | append_singleton lines line ih =>
    rw [foldl_append, foldl_cons, foldl_nil, filterMap_append, getLast?_append, parseLine]
    cases hstate : stateLine line with
    | some groups => simpa [lockName, hstate] using ih
    | none =>
      by_cases hlock : (ascii "- ").isPrefixOf (trimSpace line)
      · cases hname : lockOf (trimSpace line) <;>
          simp_all [lockName, parseLockLine]
      · simp_all [lockName]

private theorem classifyWait_eq_monitor {thread : Thread} {block : Bytes} :
    classifyWait thread block = .monitor ↔ thread.state = ascii "BLOCKED" := by
  rw [classifyWait]
  by_cases hrunnable : thread.state = ascii "RUNNABLE"
  · rw [if_pos hrunnable, hrunnable]
    decide
  · rw [if_neg hrunnable]
    split_ifs <;> simp_all

private theorem monitor_iff {lines : List Bytes} {thread : Thread}
    (h : parseThreadBlock lines = some thread) (lock : Bytes) :
    thread.category = .monitor ∧ thread.lock ≠ [] ∧ thread.lock = lock ↔
      thread.state = ascii "BLOCKED" ∧ (lockNames lines).getLast? = some lock := by
  cases lines with
  | nil => cases h
  | cons header rest =>
    obtain ⟨-, h⟩ := ite_none_right_eq_some.mp h
    obtain rfl := some.inj h
    rw [classifyWait_eq_monitor, apply_ite Thread.lock, ite_self, lock_foldl_parseLine]
    refine and_congr_right fun _ => ?_
    rw [lockNames, tail_cons]
    cases hlast : (rest.filterMap lockName).getLast? with
    | none => simp
    | some last =>
      obtain ⟨line, -, hline⟩ := mem_filterMap.mp (mem_of_getLast? hlast)
      have hne := lockOf_ne_nil (ite_none_right_eq_some.mp hline).2
      simp [hne]

private theorem monitorLocks_eq (threads : List Thread) (lock : Bytes) :
    monitorLocks threads lock = threads.countP fun thread =>
      thread.category = .monitor ∧ thread.lock ≠ [] ∧ thread.lock = lock := by
  induction threads using reverseRecOn with
  | nil => rfl
  | append_singleton threads thread ih =>
    rw [countP_append, ← ih, monitorLocks, foldl_append, foldl_cons, foldl_nil, ← monitorLocks]
    by_cases hcount : thread.category = .monitor ∧ thread.lock ≠ []
    · rw [if_pos hcount, Function.update_apply]
      by_cases hlock : lock = thread.lock
      · simp [hlock, hcount]
      · simp [hlock, Ne.symm hlock]
    · rw [if_neg hcount]
      simp [← and_assoc, hcount]

private theorem count_flatMap_waitsFor {blocks : List (List Bytes)}
    (h : ∀ lines ∈ blocks, ∃ lock, waitsFor lines = [lock]) (lock : Bytes) :
    (blocks.flatMap waitsFor).count lock = blocks.countP fun lines => waitsFor lines = [lock] := by
  induction blocks with
  | nil => rfl
  | cons lines blocks ih =>
    obtain ⟨⟨waited, hwaited⟩, hblocks⟩ := forall_mem_cons.mp h
    rw [flatMap_cons, count_append, ih hblocks, countP_cons, hwaited, Nat.add_comm]
    simp [count_singleton]

/-- A lock is counted once for every blocked thread whose last lock line names it. Where every
blocked thread waits for one lock, these are the counts of the locks waited for exactly if the locks
last named are, in some order, the locks waited for. -/
theorem monitor_contention (out : Bytes) :
    (∀ lock, monitorLocks (parseThreadDump out) lock =
      (blockedBlocks out).countP fun lines => (lockNames lines).getLast? = some lock) ∧
    ((∀ lines ∈ blockedBlocks out, ∃ lock, waitsFor lines = [lock]) →
      ((∀ lock, monitorLocks (parseThreadDump out) lock =
          (blockedBlocks out).countP fun lines => waitsFor lines = [lock]) ↔
        ((blockedBlocks out).filterMap fun lines => (lockNames lines).getLast?).Perm
          ((blockedBlocks out).flatMap waitsFor))) := by
  have hcount (lock : Bytes) : monitorLocks (parseThreadDump out) lock =
      (blockedBlocks out).countP fun lines => (lockNames lines).getLast? = some lock := by
    rw [monitorLocks_eq, parseThreadDump, countP_filterMap, blockedBlocks, countP_filter]
    refine countP_congr fun lines _ => ?_
    cases hparse : parseThreadBlock lines with
    | none => simp
    | some thread => simpa [and_comm] using monitor_iff hparse lock
  refine ⟨hcount, fun hwait => ?_⟩
  rw [perm_iff_count]
  refine forall_congr' fun lock => ?_
  have hlast : ((blockedBlocks out).filterMap fun lines => (lockNames lines).getLast?).count lock =
      (blockedBlocks out).countP fun lines => (lockNames lines).getLast? = some lock := by
    rw [count, countP_filterMap]
    exact countP_congr fun lines _ => by cases (lockNames lines).getLast? <;> simp
  rw [hcount, hlast, count_flatMap_waitsFor hwait]

def waitingThread : Bytes := ascii
  "\"t\" #1\n java.lang.Thread.State: BLOCKED\n - locked <b>\n - waiting to lock <a>"

theorem monitor_contention_waiting : monitorLocks (parseThreadDump waitingThread) (ascii "<a>") = 1 := by
  have hwait : ∀ lines ∈ blockedBlocks waitingThread, waitsFor lines = [ascii "<a>"] := by
    decide +kernel
  rw [((monitor_contention waitingThread).2 fun lines hlines => ⟨_, hwait lines hlines⟩).mpr
    (by decide +kernel)]
  decide +kernel

def lockingThread : Bytes := ascii
  "\"t\" #1\n java.lang.Thread.State: BLOCKED\n - waiting to lock <a>\n - locked <b>"

/-- A lock held in an outer frame is counted in the place of the lock that is waited for. -/
theorem monitor_contention_held :
    (blockedBlocks lockingThread).map waitsFor = [[ascii "<a>"]] ∧
    monitorLocks (parseThreadDump lockingThread) (ascii "<a>") = 0 ∧
    monitorLocks (parseThreadDump lockingThread) (ascii "<b>") = 1 := by
  decide +kernel

end Spectra.Jvm
