import Spectra.Metrics.Collector

/-! Which samples a stored minute accounts for. -/
namespace Spectra.Metrics
open Library List Collector Aggregate

structure Monitor where
  collector : Collector
  table : MetricTable

inductive Op
  | add (s : Sample)
  | flush (retainWindow now : ℤ)

def Op.sample? : Op → Option Sample
  | .add s => some s
  | .flush _ _ => none

def samplesOf (ops : List Op) : List Sample := ops.filterMap Op.sample?

def minuteOf (k : MinuteKey) (samples : List Sample) : List Sample :=
  samples.filter fun s => s.key = k

/-- The samples of each process come in the order of their times. -/
def Chronological (samples : List Sample) : Prop :=
  samples.Pairwise fun a b => a.pid = b.pid → a.takenAt ≤ b.takenAt

instance (samples : List Sample) : Decidable (Chronological samples) :=
  inferInstanceAs (Decidable (samples.Pairwise _))

/-- Every minute has a row, and it is that of all its samples. -/
structure Complete (added : List Sample) (t : MetricTable) : Prop where
  absent : ∀ k, minuteOf k added = [] → t[k]? = none
  row : ∀ k, minuteOf k added ≠ [] → ∃ row, t[k]? = some row ∧
    row.sampleCount = (minuteOf k added).length ∧
    row.maxRSSKiB = ((minuteOf k added).map Sample.rssKiB).foldl max 0 ∧
    row.avgRSSKiB = ((minuteOf k added).map Sample.rssKiB).sum.tdiv (minuteOf k added).length

namespace Monitor

def new : Monitor := ⟨.new, ∅⟩

section
variable (pids : MapRange ℤ RingBuffer) (groups : MapRange MinuteKey Aggregate)

/-- A flush is `FlushAggregates` with `SaveProcessMetrics` of what it returns. -/
def step (m : Monitor) : Op → Monitor
  | .add s => { m with collector := m.collector.add s }
  | .flush retainWindow now =>
    ⟨(m.collector.flushAggregates pids groups retainWindow now).2,
      m.table.saveProcessMetrics (m.collector.flushAggregates pids groups retainWindow now).1⟩

def run (m : Monitor) (ops : List Op) : Monitor := ops.foldl (step pids groups) m

/-- Adding `s` parts no minute. A process without a buffer has no sample of this minute yet; a
full buffer loses a minute of one sample, which the table already has. -/
def Spares (m : Monitor) (added : List Sample) (s : Sample) : Prop :=
  (m.collector.pids[s.pid]? = none → ∀ a ∈ added, a.key ≠ s.key) ∧
  ∀ rb ∈ m.collector.pids[s.pid]?, rb.count = maxSamples → ∀ x ∈ rb.toList.head?,
    minuteOf x.key rb.toList = [x] ∧ s.key ≠ x.key ∧
      m.table[x.key]? = some (.ofSamples x.key [x])

instance (m : Monitor) (added : List Sample) (s : Sample) : Decidable (Spares m added s) :=
  inferInstanceAs (Decidable (_ ∧ _))

/-- Every sample of the run parts no minute. -/
def Spared (m : Monitor) (added : List Sample) : List Op → Prop
  | [] => True
  | op :: ops => (∀ s ∈ op.sample?, Spares m added s) ∧
      Spared (m.step pids groups op) (added ++ op.sample?.toList) ops

instance decidableSpared : ∀ (ops : List Op) (m : Monitor) (added : List Sample),
    Decidable (Spared pids groups m added ops)
  | [], _, _ => .isTrue trivial
  | op :: ops, m, added =>
    have := decidableSpared ops (m.step pids groups op) (added ++ op.sample?.toList)
    inferInstanceAs (Decidable ((∀ s ∈ op.sample?, Spares m added s) ∧ _))

/-- The buffers end with the newest samples, and a minute is buffered whole or stored whole. -/
structure Tracks (added : List Sample) (m : Monitor) : Prop where
  buffered : ∀ (p : ℤ) (rb : RingBuffer), m.collector.pids[p]? = some rb →
    rb.toList <:+ added.filter fun s => s.pid = p
  whole : ∀ k, m.collector.samplesAt k = minuteOf k added ∨
    m.collector.samplesAt k = [] ∧ m.table[k]? = some (.ofSamples k (minuteOf k added))
  stored : ∀ (k : MinuteKey) (row : Aggregate), m.table[k]? = some row →
    minuteOf k added ≠ [] ∧ row.sampleCount ≤ (minuteOf k added).length

theorem tracks_new : Tracks [] new where
  buffered := by
    intro p rb h
    simp [new, Collector.new] at h
  whole := fun k => .inl (by
    simp [samplesAt, buffer, new, Collector.new, minuteOf])
  stored := by
    intro k row h
    simp [new] at h

theorem table_flush (m : Monitor) (retainWindow now : ℤ) (k : MinuteKey) :
    (m.step pids groups (.flush retainWindow now)).table[k]? =
      if m.collector.samplesAt k = [] then m.table[k]? else some (.ofSamples k (m.collector.samplesAt k)) := by
  have hmem := m.collector.mem_flush pids groups retainWindow now
  split
  · rename_i hnil
    apply MetricTable.getElem?_save_of_not_mem
    rintro a ha rfl
    exact ((hmem a).mp ha).1 hnil
  · rename_i hne
    have hrow := (hmem (.ofSamples k (m.collector.samplesAt k))).mpr (by simpa using hne)
    have hsave := MetricTable.getElem?_save_of_mem hrow (fun b hb hkey => by
      simpa [hkey] using ((hmem b).mp hb).2) m.table
    rwa [key_ofSamples] at hsave

namespace Tracks
variable {pids groups} {added : List Sample} {m : Monitor}

theorem eq_of_ne (h : Tracks added m) {k : MinuteKey} (hne : m.collector.samplesAt k ≠ []) :
    m.collector.samplesAt k = minuteOf k added :=
  (h.whole k).resolve_right fun hr => hne hr.1

variable (h : Tracks added m) (retainWindow now : ℤ)
include h

theorem flush : Tracks added (m.step pids groups (.flush retainWindow now)) where
  buffered := by
    intro p rb hrb
    change (m.collector.flushAggregates pids groups retainWindow now).2.pids[p]? = some rb at hrb
    rw [pids_flush] at hrb
    exact h.buffered p rb (Option.filter_eq_some_iff.mp hrb).1
  whole := by
    intro k
    rw [table_flush]
    by_cases hnil : m.collector.samplesAt k = []
    · have hnil' : (m.step pids groups (.flush retainWindow now)).collector.samplesAt k = [] :=
        (m.collector.samplesAt_flush pids groups retainWindow now k).elim (·.trans hnil) id
      rw [if_pos hnil, hnil']
      rcases h.whole k with heq | ⟨_, hrow⟩
      · exact .inl (hnil.symm.trans heq)
      · exact .inr ⟨rfl, hrow⟩
    · have heq := h.eq_of_ne hnil
      rw [if_neg hnil, ← heq]
      exact (m.collector.samplesAt_flush pids groups retainWindow now k).imp id fun h => ⟨h, rfl⟩
  stored := by
    intro k row hrow
    rw [table_flush] at hrow
    split at hrow
    · exact h.stored k row hrow
    · rename_i hne
      cases hrow
      rw [sampleCount_ofSamples, ← h.eq_of_ne hne]
      exact ⟨hne, le_rfl⟩

theorem complete_flush : Complete added (m.step pids groups (.flush retainWindow now)).table where
  absent := by
    intro k hnil
    cases hrow : (m.step pids groups (.flush retainWindow now)).table[k]? with
    | none => rfl
    | some row => exact absurd hnil ((h.flush retainWindow now).stored k row hrow).1
  row := by
    intro k hne
    refine ⟨.ofSamples k (minuteOf k added), ?_, sampleCount_ofSamples _ _,
      maxRSSKiB_ofSamples _ _, avgRSSKiB_ofSamples _ _⟩
    rw [table_flush]
    rcases h.whole k with heq | ⟨hnil, hrow⟩
    · rw [heq, if_neg hne]
    · rw [if_pos hnil, hrow]

end Tracks

theorem minuteAt_mono {a b : Sample} (h : a.takenAt ≤ b.takenAt) : a.minuteAt ≤ b.minuteAt :=
  Int.mul_le_mul_of_nonneg_right (Int.ediv_le_ediv (by decide) h) (by decide)

theorem key_eq_iff (a b : Sample) : a.key = b.key ↔ a.pid = b.pid ∧ a.minuteAt = b.minuteAt := by
  unfold Sample.key
  rw [toLex_inj, Prod.mk.injEq]

/-- What the process has of a new sample's minute is in its buffer. -/
theorem minute_of_buffered {added : List Sample} {s : Sample}
    (hchron : Chronological (added ++ [s])) {samples : List Sample} (hne : samples ≠ [])
    (hsuffix : samples <:+ added.filter fun a => a.pid = s.pid)
    (hnone : minuteOf s.key samples = []) : minuteOf s.key added = [] := by
  obtain ⟨old, hold⟩ := hsuffix
  obtain ⟨x, hx⟩ := exists_mem_of_ne_nil _ hne
  unfold minuteOf at hnone ⊢
  simp only [filter_eq_nil_iff, decide_eq_true_eq] at hnone ⊢
  intro a ha hkey
  obtain ⟨hbefore, _, hlast⟩ := pairwise_append.mp hchron
  have hpid : a.pid = s.pid := ((key_eq_iff a s).mp hkey).1
  have hxs : x ∈ added ∧ x.pid = s.pid := by
    simpa using (hold ▸ mem_append_right old hx : x ∈ added.filter fun a => a.pid = s.pid)
  have hamem : a ∈ old ++ samples := by
    rw [hold]
    simpa using ⟨ha, hpid⟩
  rcases mem_append.mp hamem with hmem | hmem
  · have hpair := hbefore.sublist (filter_sublist (p := fun a => a.pid = s.pid))
    rw [← hold] at hpair
    have hax := (pairwise_append.mp hpair).2.2 a hmem x hx (hpid.trans hxs.2.symm)
    have hsx := hlast x hxs.1 s (mem_singleton.mpr rfl) hxs.2
    apply hnone x hx
    refine (key_eq_iff x s).mpr ⟨hxs.2, le_antisymm (minuteAt_mono hsx) ?_⟩
    rw [← ((key_eq_iff a s).mp hkey).2]
    exact minuteAt_mono hax
  · exact hnone a hmem hkey

theorem minuteOf_append (k : MinuteKey) (samples : List Sample) (s : Sample) :
    minuteOf k (samples ++ [s]) = minuteOf k samples ++ if s.key = k then [s] else [] := by
  unfold minuteOf
  rw [filter_append, filter_singleton]
  simp

namespace Tracks
variable {pids groups} {added : List Sample} {m : Monitor} {s : Sample}

theorem kept_cases {c : Collector} {p : ℤ} {rb : Ring Sample maxSamples}
    (hp : c.pids[p]? = some rb) : c.kept p = rb.toList ∨
      rb.count = maxSamples ∧ ∃ x rest, rb.toList = x :: rest ∧ c.kept p = rest := by
  rw [kept, hp, Option.elim_some]
  split
  · exact .inl rfl
  · have hfull : rb.count = maxSamples := by
      have := rb.count_le
      omega
    cases hl : rb.toList with
    | nil => exact absurd hl (c.owned _ rb hp).1
    | cons x rest => exact .inr ⟨hfull, x, rest, rfl, rfl⟩

variable (h : Tracks added m)
include h

theorem whole_kept (hspares : Spares m added s) {k : MinuteKey} (hk : s.pid = (ofLex k).1) :
    minuteOf k (m.collector.kept s.pid) = minuteOf k added ∨
      minuteOf k (m.collector.kept s.pid) = [] ∧ m.table[k]? = some (.ofSamples k (minuteOf k added)) := by
  have hwhole := h.whole k
  cases hp : m.collector.pids[s.pid]? with
  | none =>
    rw [samplesAt, buffer, ← hk, hp] at hwhole
    rw [kept, hp]
    exact hwhole
  | some rb =>
    rw [m.collector.samplesAt_of_some hp hk.symm] at hwhole
    rcases kept_cases hp with hkept | ⟨hfull, x, rest, hl, hkept⟩
    · rw [hkept]
      exact hwhole
    · obtain ⟨hone, _, hrow⟩ := hspares.2 rb hp hfull x (by rw [hl]; rfl)
      rw [hl] at hone hwhole
      rw [hkept]
      by_cases hkey : x.key = k
      · subst hkey
        unfold minuteOf at hone hwhole ⊢
        have hrest : (rest.filter fun s => s.key = x.key) = [] := by simpa using hone
        rw [hone] at hwhole
        refine .inr ⟨hrest, ?_⟩
        rcases hwhole with heq | ⟨hnil, _⟩
        · rw [← heq, hrow]
        · cases hnil
      · rw [filter_cons_of_neg (by simpa using hkey)] at hwhole
        exact hwhole

theorem minute_kept (hchron : Chronological (added ++ [s])) (hspares : Spares m added s) :
    minuteOf s.key (m.collector.kept s.pid) = minuteOf s.key added := by
  rcases h.whole_kept (k := s.key) hspares rfl with heq | ⟨hnil, _⟩
  · exact heq
  · rw [hnil]
    symm
    cases hp : m.collector.pids[s.pid]? with
    | none => simpa [minuteOf] using hspares.1 hp
    | some rb =>
      refine minute_of_buffered hchron (m.collector.owned _ rb hp).1 (h.buffered _ rb hp) ?_
      rcases kept_cases hp with hkept | ⟨hfull, x, rest, hl, hkept⟩
      · rwa [hkept] at hnil
      · obtain ⟨_, hother, _⟩ := hspares.2 rb hp hfull x (by rw [hl]; rfl)
        rw [hkept] at hnil
        rw [hl]
        unfold minuteOf at hnil ⊢
        rw [filter_cons_of_neg (by simpa using hother.symm), hnil]

theorem kept_suffix (p : ℤ) : m.collector.kept p <:+ added.filter fun a => a.pid = p := by
  cases hp : m.collector.pids[p]? with
  | none =>
    rw [kept, hp]
    exact nil_suffix
  | some rb =>
    have hsuffix := h.buffered p rb hp
    rcases kept_cases hp with hkept | ⟨_, x, rest, hl, hkept⟩
    · rwa [hkept]
    · rw [hl] at hsuffix
      rw [hkept]
      exact (suffix_cons x rest).trans hsuffix

theorem add (hchron : Chronological (added ++ [s])) (hspares : Spares m added s) :
    Tracks (added ++ [s]) (m.step pids groups (.add s)) where
  buffered := by
    intro p rb hrb
    change (m.collector.add s).pids[p]? = some rb at hrb
    rw [getElem?_pids_add] at hrb
    rw [filter_append]
    split at hrb
    · subst p
      cases hrb
      obtain ⟨old, hold⟩ := h.kept_suffix s.pid
      rw [toList_add, ← hold]
      exact ⟨old, by simp⟩
    · rename_i hne
      simpa [hne] using h.buffered p rb hrb
  whole := by
    intro k
    change (m.collector.add s).samplesAt k = _ ∨ (m.collector.add s).samplesAt k = [] ∧ _
    rw [samplesAt_add, minuteOf_append]
    split
    · rename_i hpid
      change minuteOf k (_ ++ [s]) = _ ∨ minuteOf k (_ ++ [s]) = [] ∧ _
      rw [minuteOf_append]
      by_cases hkey : s.key = k
      · subst hkey
        rw [h.minute_kept hchron hspares]
        exact .inl rfl
      · rw [if_neg hkey, append_nil, append_nil]
        exact h.whole_kept hspares hpid
    · rename_i hpid
      have hkey : s.key ≠ k := fun hkey => hpid (by rw [← hkey]; rfl)
      rw [if_neg hkey, append_nil]
      exact h.whole k
  stored := by
    intro k row hrow
    obtain ⟨hne, hle⟩ := h.stored k row hrow
    rw [minuteOf_append, length_append]
    exact ⟨fun hnil => hne (append_eq_nil_iff.mp hnil).1, by omega⟩

theorem step {op : Op} (hchron : Chronological (added ++ op.sample?.toList))
    (hspares : ∀ s ∈ op.sample?, Spares m added s) : Tracks (added ++ op.sample?.toList) (m.step pids groups op) := by
  cases op with
  | add s => exact h.add hchron (hspares s rfl)
  | flush retainWindow now => simpa [Op.sample?] using h.flush retainWindow now

theorem sampleCount_mono (op : Op) {k : MinuteKey} {row : Aggregate} (hrow : m.table[k]? = some row) :
    ∃ row', (m.step pids groups op).table[k]? = some row' ∧ row.sampleCount ≤ row'.sampleCount := by
  cases op with
  | add s => exact ⟨row, hrow, le_rfl⟩
  | flush retainWindow now =>
    rw [table_flush]
    split
    · exact ⟨row, hrow, le_rfl⟩
    · rename_i hne
      refine ⟨_, rfl, ?_⟩
      rw [sampleCount_ofSamples, h.eq_of_ne hne]
      exact (h.stored k row hrow).2

end Tracks

theorem samplesOf_cons (op : Op) (ops : List Op) : samplesOf (op :: ops) = op.sample?.toList ++ samplesOf ops := by
  cases op <;> rfl

variable {added : List Sample} {m : Monitor} {ops : List Op}

/-- A run that spares its minutes keeps the invariant, and no stored count falls. -/
theorem tracks_run (h : Tracks added m) (hchron : Chronological (added ++ samplesOf ops))
    (hspared : Spared pids groups m added ops) :
    Tracks (added ++ samplesOf ops) (m.run pids groups ops) ∧
      ∀ (k : MinuteKey) (row : Aggregate), m.table[k]? = some row →
        ∃ row', (m.run pids groups ops).table[k]? = some row' ∧ row.sampleCount ≤ row'.sampleCount := by
  induction ops generalizing added m with
  | nil => exact ⟨by simpa [samplesOf, run] using h, fun k row hrow => ⟨row, hrow, le_rfl⟩⟩
  | cons op ops ih =>
    rw [samplesOf_cons, ← append_assoc] at hchron ⊢
    have hstep : Tracks (added ++ op.sample?.toList) (m.step pids groups op) :=
      h.step (pairwise_append.mp hchron).1 hspared.1
    obtain ⟨hrun, hmono⟩ := ih hstep hchron hspared.2
    refine ⟨hrun, fun k row hrow => ?_⟩
    obtain ⟨row₁, hrow₁, hle₁⟩ := h.sampleCount_mono op hrow
    obtain ⟨row₂, hrow₂, hle₂⟩ := hmono k row₁ hrow₁
    exact ⟨row₂, hrow₂, hle₁.trans hle₂⟩

theorem spared_append {before after : List Op}
    (h : Spared pids groups m added (before ++ after)) : Spared pids groups m added before ∧
      Spared pids groups (m.run pids groups before) (added ++ samplesOf before) after := by
  induction before generalizing added m with
  | nil => simpa [Spared, samplesOf, run] using h
  | cons op before ih =>
    obtain ⟨hbefore, hafter⟩ := ih h.2
    rw [samplesOf_cons, ← append_assoc]
    exact ⟨⟨h.1, hbefore⟩, hafter⟩

/-- In a run that spares its minutes every flush completes the table, and the sample count of a
stored row never falls. -/
theorem process_history_complete (ops : List Op) (hchron : Chronological (samplesOf ops))
    (hspared : Spared pids groups new [] ops) :
    (∀ (before after : List Op) (retainWindow now : ℤ),
      ops = before ++ .flush retainWindow now :: after →
        Complete (samplesOf before)
          (new.run pids groups (before ++ [.flush retainWindow now])).table) ∧
    ∀ before after : List Op, ops = before ++ after →
      ∀ (k : MinuteKey) (row : Aggregate), (new.run pids groups before).table[k]? = some row →
        ∃ row', (new.run pids groups ops).table[k]? = some row' ∧ row.sampleCount ≤ row'.sampleCount := by
  have hreach (before after : List Op) (hops : ops = before ++ after) :
      Tracks (samplesOf before) (new.run pids groups before) := by
    subst hops
    rw [samplesOf, filterMap_append] at hchron
    exact (tracks_run pids groups tracks_new (pairwise_append.mp hchron).1 (spared_append pids groups hspared).1).1
  constructor
  · intro before after retainWindow now hops
    rw [run, foldl_append]
    exact (hreach before _ hops).complete_flush retainWindow now
  · intro before after hops k row hrow
    have htracks := hreach before after hops
    subst hops
    rw [run, foldl_append]
    rw [samplesOf, filterMap_append] at hchron
    exact (tracks_run pids groups htracks hchron (spared_append pids groups hspared).2).2 k row hrow

end

def twoSamples : List Op :=
  [.add ⟨0, 7, 10, 0⟩, .flush defaultRetainWindow second, .add ⟨second, 7, 20, 0⟩, .flush defaultRetainWindow minute]

theorem process_history_complete_twoSamples : ∃ row,
    (new.run default default twoSamples).table[(toLex (7, 0) : MinuteKey)]? = some row ∧
      row.sampleCount = 2 ∧ row.maxRSSKiB = 20 ∧ row.avgRSSKiB = 15 :=
  ((process_history_complete default default twoSamples (by decide +kernel)
    (by decide +kernel)).1 (twoSamples.take 3) [] defaultRetainWindow minute rfl).row
      (toLex (7, 0)) (by decide +kernel)

def secondly (i : ℕ) : Sample := ⟨i * second, 1, 100, 0⟩

def fill : List Op :=
  ((List.range maxSamples).map secondly).map .add ++ [.flush defaultRetainWindow (1800 * second)]

def wrap : List Op :=
  fill ++ [.add (secondly maxSamples), .flush defaultRetainWindow (1860 * second)]

section
variable (pids : MapRange ℤ RingBuffer) (groups : MapRange MinuteKey Aggregate)

theorem run_adds (samples : List Sample) (m : Monitor) :
    m.run pids groups (samples.map .add) = ⟨samples.foldl add m.collector, m.table⟩ := by
  induction samples generalizing m with
  | nil => rfl
  | cons s samples ih => exact ih (m.step pids groups (.add s))

variable {k : MinuteKey}

theorem row_flush {m : Monitor} {n : ℕ} (h : (m.collector.samplesAt k).length = n + 1) (retainWindow now : ℤ) :
    ∃ row, (m.step pids groups (.flush retainWindow now)).table[k]? = some row ∧ row.sampleCount = n + 1 := by
  rw [table_flush, if_neg (ne_nil_of_length_eq_add_one h)]
  exact ⟨_, rfl, (sampleCount_ofSamples _ _).trans h⟩

variable {samples : List Sample}
  {p : ℤ} (hpid : ∀ s ∈ samples, s.pid = p) (hlen : samples.length = maxSamples)
include hpid hlen

theorem buffer_adds : (new.run pids groups (samples.map .add)).collector.buffer p = samples := by
  rw [run_adds, buffer_foldl_add hpid]
  · rfl
  · exact (Nat.zero_add _).trans_le hlen.le

theorem samplesAt_adds (hk : (ofLex k).1 = p) :
    (new.run pids groups (samples.map .add)).collector.samplesAt k = minuteOf k samples := by
  rw [samplesAt, hk, buffer_adds pids groups hpid hlen]
  rfl

/-- A full buffer of recent samples loses its oldest one to the next, flushed or not. -/
theorem samplesAt_wrap {retainWindow now : ℤ}
    (hrecent : ∀ s ∈ samples, now - retainWindow ≤ s.takenAt) {s : Sample} (hs : s.pid = p) (hk : (ofLex k).1 = p) :
    (((new.run pids groups (samples.map .add)).step pids groups (.flush retainWindow now)).step
      pids groups (.add s)).collector.samplesAt k = minuteOf k (samples.tail ++ [s]) := by
  have hbuffer := buffer_adds pids groups hpid hlen
  have hflush := buffer_flush pids groups retainWindow now
    (new.run pids groups (samples.map .add)).collector (hbuffer ▸ hrecent)
  refine (samplesAt_add _ s k).trans ?_
  rw [if_pos (hs.trans hk.symm), kept_eq, hs]
  change ((if (buffer (flushAggregates _ _ _ _ _).2 p).length < maxSamples then
    _ else (buffer (flushAggregates _ _ _ _ _).2 p).tail) ++ [s]).filter _ = _
  rw [hflush, hbuffer, if_neg (by omega)]
  rfl

end

theorem samplesOf_adds (samples : List Sample) : samplesOf (samples.map .add) = samples := by
  rw [samplesOf, filterMap_map]
  exact filterMap_some

theorem samplesOf_wrap : samplesOf wrap = (range (maxSamples + 1)).map secondly := by
  unfold wrap fill
  rw [samplesOf, filterMap_append, filterMap_append, ← samplesOf, samplesOf_adds, range_succ, map_append, append_assoc]
  rfl

/-- The row of the first minute then counts one sample less than before. -/
theorem wrapped_row_shrinks : Chronological (samplesOf wrap) ∧
    (minuteOf (toLex (1, 0)) (samplesOf wrap)).length = 60 ∧
    (∃ row, (new.run default default fill).table[(toLex (1, 0) : MinuteKey)]? = some row ∧
      row.sampleCount = 60) ∧
    ∃ row, (new.run default default wrap).table[(toLex (1, 0) : MinuteKey)]? = some row ∧ row.sampleCount = 59 := by
  have hpid : ∀ s ∈ (range maxSamples).map secondly, s.pid = 1 := by simp [secondly]
  have hlen : ((range maxSamples).map secondly).length = maxSamples := by
    rw [length_map, length_range]
  have hrecent : ∀ s ∈ (range maxSamples).map secondly,
      1800 * second - defaultRetainWindow ≤ s.takenAt := by
    intro s hs
    obtain ⟨i, _, rfl⟩ := mem_map.mp hs
    exact Int.mul_nonneg (Int.natCast_nonneg i) (by decide)
  refine ⟨?_, ?_, ?_, ?_⟩
  · rw [samplesOf_wrap, Chronological, pairwise_map]
    refine pairwise_lt_range.imp fun h _ => ?_
    exact Int.mul_le_mul_of_nonneg_right (Int.ofNat_le.mpr h.le) (by decide)
  · decide +kernel
  · rw [fill, run, foldl_append]
    refine row_flush default default ?_ _ _
    refine (congrArg length (samplesAt_adds default default hpid hlen rfl)).trans ?_
    decide +kernel
  · rw [wrap, fill, run, foldl_append, foldl_append]
    refine row_flush default default ?_ _ _
    refine (congrArg length (samplesAt_wrap default default hpid hlen hrecent rfl rfl)).trans ?_
    decide +kernel

end Monitor
end Spectra.Metrics
