import Spectra.Library.GoTime
import Spectra.Library.Ring
import Spectra.Library.Rows
import Mathlib.Algebra.Order.Ring.Rat

/-! Process metrics. -/
namespace Spectra.Metrics
open Library List
open Std (ExtTreeMap)

def defaultRetainWindow : ℤ := 30 * minute

/-- One sample a second over the retain window. -/
def maxSamples : ℕ := 1800

structure Sample where
  takenAt : ℤ
  pid : ℤ
  rssKiB : ℤ
  cpuPct : ℚ
  deriving DecidableEq

/-- A process and the start of a minute, the primary key of `process_metrics`. -/
abbrev MinuteKey := PairKey

def Sample.minuteAt (s : Sample) : ℤ := s.takenAt / minute * minute

def Sample.key (s : Sample) : MinuteKey := toLex (s.pid, s.minuteAt)

structure Aggregate where
  pid : ℤ
  minuteAt : ℤ
  avgRSSKiB : ℤ
  maxRSSKiB : ℤ
  avgCPUPct : ℚ
  maxCPUPct : ℚ
  sampleCount : ℕ
  deriving DecidableEq

open Aggregate

namespace Aggregate

def key (a : Aggregate) : MinuteKey := toLex (a.pid, a.minuteAt)

def blank (k : MinuteKey) : Aggregate := ⟨(ofLex k).1, (ofLex k).2, 0, 0, 0, 0, 0⟩

/-- The averages hold sums until the samples have all been counted. -/
def count (agg : Aggregate) (s : Sample) : Aggregate where
  pid := agg.pid
  minuteAt := agg.minuteAt
  avgRSSKiB := agg.avgRSSKiB + s.rssKiB
  maxRSSKiB := if s.rssKiB > agg.maxRSSKiB then s.rssKiB else agg.maxRSSKiB
  avgCPUPct := agg.avgCPUPct + s.cpuPct
  maxCPUPct := if s.cpuPct > agg.maxCPUPct then s.cpuPct else agg.maxCPUPct
  sampleCount := agg.sampleCount + 1

def average (agg : Aggregate) : Aggregate :=
  if agg.sampleCount > 0 then
    { agg with
      avgRSSKiB := agg.avgRSSKiB.tdiv agg.sampleCount
      avgCPUPct := agg.avgCPUPct / agg.sampleCount }
  else agg

/-- The row of minute `k` when `samples` are those of that minute. -/
def ofSamples (k : MinuteKey) (samples : List Sample) : Aggregate :=
  (samples.foldl count (blank k)).average

theorem key_average (agg : Aggregate) : agg.average.key = agg.key := by
  rw [average]
  split <;> rfl

variable (samples : List Sample) (agg : Aggregate)

theorem key_foldl_count : (samples.foldl count agg).key = agg.key := by
  induction samples generalizing agg with
  | nil => rfl
  | cons s samples ih => exact ih (agg.count s)

@[simp] theorem key_ofSamples (k : MinuteKey) (samples : List Sample) : (ofSamples k samples).key = k :=
  (key_average _).trans (key_foldl_count samples _)

theorem foldl_count :
    (samples.foldl count agg).sampleCount = agg.sampleCount + samples.length ∧
    (samples.foldl count agg).maxRSSKiB = (samples.map Sample.rssKiB).foldl max agg.maxRSSKiB ∧
    (samples.foldl count agg).avgRSSKiB = agg.avgRSSKiB + (samples.map Sample.rssKiB).sum := by
  induction samples generalizing agg with
  | nil => simp
  | cons s samples ih =>
    obtain ⟨hcount, hmax, hsum⟩ := ih (agg.count s)
    have hstep : (agg.count s).maxRSSKiB = max agg.maxRSSKiB s.rssKiB := by
      rw [count]
      dsimp only
      split <;> omega
    refine ⟨?_, ?_, ?_⟩
    · rw [foldl_cons, hcount]
      exact Nat.add_right_comm _ _ _
    · rw [foldl_cons, hmax, hstep]
      rfl
    · rw [foldl_cons, hsum, map_cons, sum_cons, ← add_assoc]
      rfl

variable (k : MinuteKey) (samples : List Sample)

theorem sampleCount_ofSamples : (ofSamples k samples).sampleCount = samples.length := by
  have h := (foldl_count samples (blank k)).1
  unfold ofSamples average
  split <;> simpa [blank] using h

theorem maxRSSKiB_ofSamples : (ofSamples k samples).maxRSSKiB = (samples.map Sample.rssKiB).foldl max 0 := by
  have h := (foldl_count samples (blank k)).2.1
  unfold ofSamples average
  split <;> exact h

theorem avgRSSKiB_ofSamples :
    (ofSamples k samples).avgRSSKiB = (samples.map Sample.rssKiB).sum.tdiv samples.length := by
  obtain ⟨hcount, _, hsum⟩ := foldl_count samples (blank k)
  simp only [blank, zero_add] at hcount hsum
  unfold ofSamples average
  split
  · simp [blank, hcount, hsum]
  · rename_i hzero
    simp only [blank, hcount] at hzero
    rw [eq_nil_of_length_eq_zero (Nat.eq_zero_of_not_pos hzero)]
    rfl

end Aggregate

abbrev RingBuffer := Ring Sample maxSamples

namespace RingBuffer

def new : RingBuffer := Ring.empty ⟨0, 0, 0, 0⟩ (by decide)

def group (groups : ExtTreeMap MinuteKey Aggregate) (s : Sample) : ExtTreeMap MinuteKey Aggregate :=
  groups.alter s.key fun agg => some ((agg.getD (.blank s.key)).count s)

/-- `Aggregate`, with the rows in the order in which `range` visits the groups. -/
def aggregate (groups : MapRange MinuteKey Aggregate) (rb : RingBuffer) : List Aggregate :=
  (groups.order (rb.toList.foldl group ∅)).map fun entry => entry.2.average

private theorem getElem?_foldl_group (samples : List Sample) (m : ExtTreeMap MinuteKey Aggregate)
    (k : MinuteKey) : (samples.foldl group m)[k]? =
      (samples.filter fun s => s.key = k).foldl (fun agg s => some ((agg.getD (.blank k)).count s)) m[k]? := by
  induction samples generalizing m with
  | nil => rfl
  | cons s samples ih =>
    rw [foldl_cons, ih, group, getElem?_alter_eq]
    by_cases hk : s.key = k
    · subst hk
      simp
    · simp [hk]

private theorem foldl_some (k : MinuteKey) (samples : List Sample) (agg : Aggregate) :
    samples.foldl (fun agg s => some ((agg.getD (.blank k)).count s)) (some agg) =
      some (samples.foldl Aggregate.count agg) := by
  induction samples generalizing agg with
  | nil => rfl
  | cons s samples ih => exact ih (agg.count s)

/-- The rows are those of the minutes of the buffer. -/
theorem mem_aggregate (groups : MapRange MinuteKey Aggregate) (rb : RingBuffer) (a : Aggregate) :
    a ∈ rb.aggregate groups ↔ (rb.toList.filter fun s => s.key = a.key) ≠ [] ∧
      a = .ofSamples a.key (rb.toList.filter fun s => s.key = a.key) := by
  have hget (k : MinuteKey) (agg : Aggregate) :
      (k, agg) ∈ groups.order (rb.toList.foldl group ∅) ↔
        (rb.toList.filter fun s => s.key = k) ≠ [] ∧
          agg = (rb.toList.filter fun s => s.key = k).foldl Aggregate.count (.blank k) := by
    rw [groups.mem_order, getElem?_foldl_group]
    cases rb.toList.filter fun s => s.key = k with
    | nil => simp
    | cons s samples =>
      rw [foldl_cons, foldl_some]
      simp [eq_comm]
  rw [aggregate, mem_map]
  constructor
  · rintro ⟨⟨k, agg⟩, hmem, rfl⟩
    obtain ⟨hne, rfl⟩ := (hget k agg).mp hmem
    have hkey : (ofSamples k (rb.toList.filter fun s => s.key = k)).key = k :=
      key_ofSamples k _
    change key (.average _) = k at hkey
    rw [hkey]
    exact ⟨hne, rfl⟩
  · rintro ⟨hne, ha⟩
    exact ⟨(a.key, _), (hget a.key _).mpr ⟨hne, rfl⟩, ha.symm⟩

end RingBuffer

/-- The buffer of a process holds samples of that process, and at least one. -/
structure Collector where
  pids : ExtTreeMap ℤ RingBuffer
  owned : ∀ (p : ℤ) (rb : RingBuffer), pids[p]? = some rb →
    rb.toList ≠ [] ∧ ∀ s ∈ rb.toList, s.pid = p

namespace Collector

def new : Collector := ⟨∅, by simp⟩

theorem toList_add_subset (rb : RingBuffer) (s : Sample) :
    (rb.add s).toList ≠ [] ∧ ∀ x ∈ (rb.add s).toList, x ∈ rb.toList ∨ x = s := by
  rcases Nat.lt_or_eq_of_le rb.count_le with hlt | hfull
  · rw [Ring.toList_add_of_lt hlt]
    exact ⟨by simp, fun x hx => by simpa using hx⟩
  · rw [Ring.toList_add_of_full hfull]
    refine ⟨by simp, fun x hx => ?_⟩
    rcases mem_append.mp hx with hx | hx
    · exact .inl (mem_of_mem_tail hx)
    · exact .inr (by simpa using hx)

def add (c : Collector) (s : Sample) : Collector where
  pids := c.pids.insert s.pid ((c.pids[s.pid]?.getD .new).add s)
  owned := by
    intro p rb hrb
    rw [getElem?_insert_eq] at hrb
    split at hrb
    · subst p
      obtain rfl := Option.some.inj hrb
      obtain ⟨hne, hmem⟩ := toList_add_subset (c.pids[s.pid]?.getD .new) s
      refine ⟨hne, fun x hx => ?_⟩
      rcases hmem x hx with hx | rfl
      · cases hc : c.pids[s.pid]? with
        | none =>
          rw [hc, Option.getD_none, RingBuffer.new, Ring.toList_empty] at hx
          cases hx
        | some rb =>
          rw [hc] at hx
          exact (c.owned s.pid rb hc).2 x hx
      · rfl
    · exact c.owned p rb hrb

def evict (c : Collector) (pid : ℤ) : Collector where
  pids := c.pids.erase pid
  owned := by
    intro p rb hrb
    rw [getElem?_erase_eq] at hrb
    split at hrb
    · cases hrb
    · exact c.owned p rb hrb

/-- The newest sample of the buffer is older than the cutoff. -/
def Stale (cutoff : ℤ) (rb : RingBuffer) : Prop := ∃ s ∈ rb.toList.getLast?, s.takenAt < cutoff

instance (cutoff : ℤ) (rb : RingBuffer) : Decidable (Stale cutoff rb) :=
  inferInstanceAs (Decidable (∃ s ∈ rb.toList.getLast?, s.takenAt < cutoff))

def flushPid (groups : MapRange MinuteKey Aggregate) (cutoff : ℤ)
    (acc : List Aggregate × Collector) (entry : ℤ × RingBuffer) : List Aggregate × Collector :=
  (acc.1 ++ entry.2.aggregate groups,
    if Stale cutoff entry.2 then acc.2.evict entry.1 else acc.2)

def flushAggregates (pids : MapRange ℤ RingBuffer) (groups : MapRange MinuteKey Aggregate)
    (retainWindow now : ℤ) (c : Collector) : List Aggregate × Collector :=
  (pids.order c.pids).foldl (flushPid groups (now - retainWindow)) ([], c)

def buffer (c : Collector) (pid : ℤ) : List Sample := c.pids[pid]?.elim [] Ring.toList

def samplesAt (c : Collector) (k : MinuteKey) : List Sample :=
  (c.buffer (ofLex k).1).filter fun s => s.key = k

/-- What is left of a buffer when a sample is added. -/
def kept (c : Collector) (pid : ℤ) : List Sample :=
  c.pids[pid]?.elim [] fun rb => if rb.count < maxSamples then rb.toList else rb.toList.tail

section
variable (c : Collector) (s : Sample)

theorem toList_add : ((c.pids[s.pid]?.getD .new).add s).toList = c.kept s.pid ++ [s] := by
  rw [kept]
  cases c.pids[s.pid]? with
  | none =>
    rfl
  | some rb =>
    rw [Option.getD_some, Option.elim_some]
    rcases Nat.lt_or_eq_of_le rb.count_le with hlt | hfull
    · rw [if_pos hlt, Ring.toList_add_of_lt hlt]
    · rw [if_neg (by omega), Ring.toList_add_of_full hfull]

theorem getElem?_pids_add (p : ℤ) : (c.add s).pids[p]? =
    if s.pid = p then some ((c.pids[s.pid]?.getD .new).add s) else c.pids[p]? :=
  getElem?_insert_eq _ _ _ _

theorem buffer_add (p : ℤ) : (c.add s).buffer p = if s.pid = p then c.kept s.pid ++ [s] else c.buffer p := by
  rw [buffer, getElem?_pids_add]
  split
  · rw [Option.elim_some, toList_add]
  · rfl

theorem samplesAt_add (k : MinuteKey) : (c.add s).samplesAt k =
    if s.pid = (ofLex k).1 then (c.kept s.pid ++ [s]).filter fun s => s.key = k else c.samplesAt k := by
  rw [samplesAt, buffer_add]
  split <;> rfl

end

theorem kept_eq (c : Collector) (p : ℤ) : c.kept p =
    if (c.buffer p).length < maxSamples then c.buffer p else (c.buffer p).tail := by
  unfold kept buffer
  cases c.pids[p]? with
  | none => rfl
  | some rb => rw [Option.elim_some, Option.elim_some, Ring.length_toList]

theorem buffer_foldl_add {p : ℤ} {samples : List Sample} (hpid : ∀ s ∈ samples, s.pid = p)
    (c : Collector) (hroom : (c.buffer p).length + samples.length ≤ maxSamples) :
    (samples.foldl add c).buffer p = c.buffer p ++ samples := by
  induction samples generalizing c with
  | nil => exact (append_nil _).symm
  | cons s samples ih =>
    rw [length_cons] at hroom
    have hs : s.pid = p := hpid s mem_cons_self
    have hadd : (c.add s).buffer p = c.buffer p ++ [s] := by
      rw [buffer_add, if_pos hs, hs, kept_eq, if_pos (by omega)]
    rw [foldl_cons, ih (fun s h => hpid s (.tail _ h)), hadd, append_assoc]
    · rfl
    · rw [hadd, length_append, length_singleton]
      omega

variable (pids : MapRange ℤ RingBuffer) (groups : MapRange MinuteKey Aggregate)
  (retainWindow now : ℤ) (c : Collector)

theorem samplesAt_of_some {p : ℤ} {rb : RingBuffer} (h : c.pids[p]? = some rb) {k : MinuteKey}
    (hk : (ofLex k).1 = p) : c.samplesAt k = rb.toList.filter fun s => s.key = k := by
  rw [samplesAt, buffer, hk, h]
  rfl

variable (cutoff : ℤ) (entries : List (ℤ × RingBuffer)) (acc : List Aggregate × Collector)

theorem rows_foldl_flushPid : (entries.foldl (flushPid groups cutoff) acc).1 =
      acc.1 ++ entries.flatMap fun entry => entry.2.aggregate groups := by
  induction entries generalizing acc with
  | nil => exact (append_nil _).symm
  | cons entry entries ih =>
    rw [foldl_cons, ih, flatMap_cons, ← append_assoc]
    rfl

theorem pids_flushPid (acc : List Aggregate × Collector) (entry : ℤ × RingBuffer) (p : ℤ) :
    (flushPid groups cutoff acc entry).2.pids[p]? =
      if entry.1 = p ∧ Stale cutoff entry.2 then none else acc.2.pids[p]? := by
  rw [flushPid]
  by_cases hstale : Stale cutoff entry.2
  · rw [if_pos hstale, evict, getElem?_erase_eq]
    simp [hstale]
  · simp [hstale]

theorem pids_foldl_flushPid (p : ℤ) :
    (entries.foldl (flushPid groups cutoff) acc).2.pids[p]? =
      if ∃ entry ∈ entries, entry.1 = p ∧ Stale cutoff entry.2 then none else acc.2.pids[p]? := by
  induction entries generalizing acc with
  | nil => simp
  | cons entry entries ih =>
    rw [foldl_cons, ih, pids_flushPid]
    by_cases hentry : entry.1 = p ∧ Stale cutoff entry.2
    · simp [hentry]
    · simp only [exists_mem_cons_iff, hentry, false_or, if_false]

theorem pids_flush (p : ℤ) : (c.flushAggregates pids groups retainWindow now).2.pids[p]? =
    c.pids[p]?.filter fun rb => ¬ Stale (now - retainWindow) rb := by
  rw [flushAggregates, pids_foldl_flushPid]
  have hiff : (∃ entry ∈ pids.order c.pids, entry.1 = p ∧ Stale (now - retainWindow) entry.2) ↔
      ∃ rb, c.pids[p]? = some rb ∧ Stale (now - retainWindow) rb := by
    constructor
    · rintro ⟨⟨_, rb⟩, hmem, rfl, hstale⟩
      exact ⟨rb, pids.mem_order.mp hmem, hstale⟩
    · rintro ⟨rb, hp, hstale⟩
      exact ⟨(p, rb), pids.mem_order.mpr hp, rfl, hstale⟩
  simp only [hiff]
  cases c.pids[p]? with
  | none => simp
  | some rb => by_cases hstale : Stale (now - retainWindow) rb <;> simp [Option.filter]

theorem buffer_flush {p : ℤ} (h : ∀ s ∈ c.buffer p, now - retainWindow ≤ s.takenAt) :
    (c.flushAggregates pids groups retainWindow now).2.buffer p = c.buffer p := by
  unfold buffer at h ⊢
  rw [pids_flush]
  cases hp : c.pids[p]? with
  | none => rfl
  | some rb =>
    rw [hp] at h
    have hfresh : ¬ Stale (now - retainWindow) rb := by
      rintro ⟨s, hs, hlt⟩
      exact absurd (h s (mem_of_getLast? hs)) (by omega)
    simp [hfresh, Option.filter]

theorem samplesAt_flush (k : MinuteKey) :
    (c.flushAggregates pids groups retainWindow now).2.samplesAt k = c.samplesAt k ∨
      (c.flushAggregates pids groups retainWindow now).2.samplesAt k = [] := by
  unfold samplesAt buffer
  rw [pids_flush]
  cases c.pids[(ofLex k).1]? with
  | none => exact .inr rfl
  | some rb =>
    by_cases hstale : Stale (now - retainWindow) rb
    · exact .inr (by simp [hstale, Option.filter])
    · exact .inl (by simp [hstale, Option.filter])

/-- A flush returns one row for every buffered minute. -/
theorem mem_flush (a : Aggregate) :
    a ∈ (c.flushAggregates pids groups retainWindow now).1 ↔
      c.samplesAt a.key ≠ [] ∧ a = .ofSamples a.key (c.samplesAt a.key) := by
  rw [flushAggregates, rows_foldl_flushPid, nil_append, mem_flatMap]
  constructor
  · rintro ⟨⟨p, rb⟩, hmem, ha⟩
    have hp := pids.mem_order.mp hmem
    obtain ⟨hne, heq⟩ := (RingBuffer.mem_aggregate groups rb a).mp ha
    obtain ⟨s, hs⟩ := exists_mem_of_ne_nil _ hne
    have hkey : s.key = a.key := by simpa using (mem_filter.mp hs).2
    have hpid : (ofLex a.key).1 = p := by
      rw [← hkey]
      exact (c.owned p rb hp).2 s (mem_filter.mp hs).1
    rw [c.samplesAt_of_some hp hpid]
    exact ⟨hne, heq⟩
  · rintro ⟨hne, heq⟩
    cases hp : c.pids[(ofLex a.key).1]? with
    | none =>
      rw [samplesAt, buffer, hp] at hne
      exact absurd rfl hne
    | some rb =>
      rw [c.samplesAt_of_some hp rfl] at hne heq
      exact ⟨(_, rb), pids.mem_order.mpr hp, (RingBuffer.mem_aggregate groups rb a).mpr ⟨hne, heq⟩⟩

end Collector

/-- The table `process_metrics` by its primary key. -/
abbrev MetricTable := ExtTreeMap MinuteKey Aggregate

namespace MetricTable

def upsert (t : MetricTable) (a : Aggregate) : MetricTable := t.insert a.key a

def saveProcessMetrics (t : MetricTable) (aggs : List Aggregate) : MetricTable :=
  aggs.foldl upsert t

theorem getElem?_save_of_not_mem {aggs : List Aggregate} {k : MinuteKey}
    (h : ∀ a ∈ aggs, a.key ≠ k) (t : MetricTable) : (t.saveProcessMetrics aggs)[k]? = t[k]? := by
  induction aggs generalizing t with
  | nil => rfl
  | cons a aggs ih =>
    refine (ih (fun b hb => h b (.tail _ hb)) _).trans ?_
    rw [upsert, getElem?_insert_eq, if_neg (h a (.head _))]

theorem getElem?_save_of_mem {aggs : List Aggregate} {a : Aggregate} (ha : a ∈ aggs)
    (h : ∀ b ∈ aggs, b.key = a.key → b = a) (t : MetricTable) : (t.saveProcessMetrics aggs)[a.key]? = some a := by
  induction aggs generalizing t with
  | nil => cases ha
  | cons b aggs ih =>
    change ((t.upsert b).saveProcessMetrics aggs)[a.key]? = some a
    have htail : ∀ b ∈ aggs, b.key = a.key → b = a := fun b hb => h b (.tail _ hb)
    by_cases hmem : a ∈ aggs
    · exact ih hmem htail _
    · obtain rfl : a = b := (mem_cons.mp ha).resolve_right hmem
      rw [getElem?_save_of_not_mem (fun b hb hkey => hmem (htail b hb hkey ▸ hb)), upsert,
        getElem?_insert_eq, if_pos rfl]

end MetricTable
end Spectra.Metrics
