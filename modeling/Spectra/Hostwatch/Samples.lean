import Spectra.Hostwatch.Sustained
import Spectra.Library.GoTime

/-! The recent samples of the host. -/
namespace Spectra.Hostwatch
open Library List

def hour : ℤ := 3600 * second

def day : ℤ := 24 * hour

/-- A sample, with its time and everything else it says. -/
structure HostSample (β : Type) where
  time : ℤ
  data : β
  deriving DecidableEq

open HostSample

/-- The table `host_samples`, by `at_nano`. -/
abbrev SampleTable (β : Type) := Std.ExtTreeMap ℤ β

variable {β : Type}

/-- The limit that `Samples` and `ListHostSamples` replace an odd one by. -/
def clampLimit (limit : ℤ) : ℕ := if limit ≤ 0 ∨ 2000 < limit then 2000 else limit.toNat

namespace SampleTable

def saveHostSample (x : HostSample β) (t : SampleTable β) : SampleTable β :=
  t.insert (unixNano x.time) x.data

/-- The rows that are not older than `since`, the newest first. -/
def listHostSamples (since limit : ℤ) (t : SampleTable β) : List (HostSample β) :=
  ((t.toList.filter fun row => unixNano since ≤ row.1).reverse.take (clampLimit limit)).map
    fun row => ⟨row.1, row.2⟩

def pruneHostSamples (now keepDays : ℤ) (t : SampleTable β) : SampleTable β :=
  let days := if keepDays ≤ 0 then 7 else keepDays
  t.filter fun time _ => !decide (time < unixNano (now - days * day))

end SampleTable

/-- The window of `Tick`, the sample it has put there and not saved yet, and the table. -/
structure WatchSamples (β : Type) where
  window : List (HostSample β)
  unsaved : Option (HostSample β)
  table : SampleTable β

open WatchSamples

def pushSample (x : HostSample β) (window : List (HostSample β)) : List (HostSample β) :=
  (window ++ [x]).dropWhile fun y => y.time < x.time - 2 * hour

/-- The steps of the goroutines, with every save a success. A `Tick` saves its sample and prunes
before the next one starts. -/
inductive SampleOp (β : Type) where
  | tick (x : HostSample β)
  | save
  | prune (now : ℤ)
  | persistSpawn (x : HostSample β)
  | restart

def SampleOp.ofTick : SampleOp β → Bool
  | .persistSpawn _ => false
  | _ => true

/-- The window answers: it reaches back far enough, or has as many samples as were asked for. -/
def FromMemory (since limit : ℤ) (window : List (HostSample β)) : Prop :=
  ∃ first ∈ window.head?, since = zeroTime ∧ clampLimit limit ≤ window.length ∨
    since ≠ zeroTime ∧ first.time ≤ since

instance (since limit : ℤ) (window : List (HostSample β)) :
    Decidable (FromMemory since limit window) :=
  inferInstanceAs (Decidable (∃ first ∈ window.head?, _))

namespace WatchSamples

def start : WatchSamples β := ⟨[], none, ∅⟩

/-- A step that cannot be taken changes nothing. -/
def step (op : SampleOp β) (s : WatchSamples β) : WatchSamples β :=
  match op with
  | .tick x =>
    if s.unsaved.isNone then { s with window := pushSample x s.window, unsaved := some x } else s
  | .save =>
    match s.unsaved with
    | none => s
    | some x => { s with unsaved := none, table := s.table.saveHostSample x }
  | .prune now =>
    if s.unsaved.isNone then { s with table := s.table.pruneHostSamples now 7 } else s
  | .persistSpawn x => { s with table := s.table.saveHostSample x }
  | .restart => { s with window := [], unsaved := none }

def run (ops : List (SampleOp β)) (s : WatchSamples β) : WatchSamples β :=
  ops.foldl (fun s op => s.step op) s

def samples (since limit : ℤ) (s : WatchSamples β) : List (HostSample β) :=
  if FromMemory since limit s.window then
    (s.window.reverse.filter fun x => !decide (x.time < since)).take (clampLimit limit)
  else s.table.listHostSamples since (clampLimit limit)

def saved (s : WatchSamples β) : SampleTable β :=
  match s.unsaved with
  | none => s.table
  | some x => s.table.saveHostSample x

end WatchSamples

section

/-- A step after a last sample: samples come later and later, and no prune reads a clock so far
ahead that it takes rows of the last two hours. -/
def SampleOp.InOrder (last : ℤ) (s : WatchSamples β) : SampleOp β → Prop
  | .tick x => last < x.time ∧ x.time < 2 ^ 63
  | .prune now => ∀ x ∈ s.window.getLast?, unixNano (now - 7 * day) ≤ x.time - 2 * hour
  | _ => True

def SampleOp.latest (last : ℤ) : SampleOp β → ℤ
  | .tick x => x.time
  | _ => last

def Orderly : ℤ → List (SampleOp β) → WatchSamples β → Prop
  | _, [], _ => True
  | last, op :: ops, s => op.InOrder last s ∧ Orderly (op.latest last) ops (s.step op)

instance (last : ℤ) (s : WatchSamples β) : ∀ op : SampleOp β, Decidable (op.InOrder last s)
  | .tick _ => inferInstanceAs (Decidable (_ ∧ _))
  | .save => .isTrue trivial
  | .prune _ => inferInstanceAs (Decidable (∀ x ∈ s.window.getLast?, _))
  | .persistSpawn _ => .isTrue trivial
  | .restart => .isTrue trivial

instance decidableOrderly : ∀ (last : ℤ) (ops : List (SampleOp β)) (s : WatchSamples β),
    Decidable (Orderly last ops s)
  | _, [], _ => .isTrue trivial
  | last, op :: ops, s =>
    have := decidableOrderly (op.latest last) ops (s.step op)
    inferInstanceAs (Decidable (_ ∧ _))

end

section

def HostSample.row (x : HostSample β) : ℤ × β := (x.time, x.data)

variable {t : SampleTable β} {x : HostSample β}

theorem rows_increasing (t : SampleTable β) : t.toList.Pairwise fun a b => a.1 < b.1 :=
  Std.ExtTreeMap.ordered_keys_toList.imp fun h => compare_lt_iff_lt.mp h

/-- A row that is later than all others comes last. -/
theorem toList_insert_last {k : ℤ} {v : β} (h : ∀ row ∈ t.toList, row.1 < k) :
    (t.insert k v).toList = t.toList ++ [(k, v)] := by
  have hsorted : (t.toList ++ [(k, v)]).Pairwise fun a b => a.1 < b.1 := by
    rw [pairwise_append]
    exact ⟨rows_increasing t, pairwise_singleton _ _, fun a ha b hb => by
      rw [mem_singleton.mp hb]
      exact h a ha⟩
  have hnodup : ∀ {l : List (ℤ × β)}, (l.Pairwise fun a b => a.1 < b.1) → l.Nodup :=
    fun hl => hl.imp fun hab heq => by
      rw [heq] at hab
      exact lt_irrefl _ hab
  refine List.Perm.eq_of_pairwise (fun a b _ _ hab hba => absurd hab (not_lt_of_gt hba))
    (rows_increasing _) hsorted ?_
  rw [perm_ext_iff_of_nodup (hnodup (rows_increasing _)) (hnodup hsorted)]
  rintro ⟨k', v'⟩
  rw [Std.ExtTreeMap.mem_toList_iff_getElem?_eq_some, getElem?_insert_eq, mem_append,
    Std.ExtTreeMap.mem_toList_iff_getElem?_eq_some, mem_singleton, Prod.mk.injEq]
  constructor
  · intro hrow
    split at hrow
    · rename_i hk
      exact .inr ⟨hk.symm, (Option.some.inj hrow).symm⟩
    · exact .inl hrow
  · rintro (hrow | ⟨rfl, rfl⟩)
    · have hlt := h _ (Std.ExtTreeMap.mem_toList_iff_getElem?_eq_some.mpr hrow)
      rwa [if_neg (ne_of_gt hlt)]
    · rw [if_pos rfl]

theorem mem_saveHostSample {row : ℤ × β} (h : row ∈ (t.saveHostSample x).toList) :
    row.1 = unixNano x.time ∨ row ∈ t.toList := by
  rw [SampleTable.saveHostSample, Std.ExtTreeMap.mem_toList_iff_getElem?_eq_some, getElem?_insert_eq] at h
  split at h
  · rename_i heq
    exact .inl heq.symm
  · exact .inr (Std.ExtTreeMap.mem_toList_iff_getElem?_eq_some.mpr h)

end

section

/-- What holds of the window and the table when only `Tick` writes: the samples of the window are
the last rows, with the one that is about to be saved, and none is two hours older than the last. -/
structure WatchSamples.Kept (last : ℤ) (s : WatchSamples β) : Prop where
  rows : ∃ old, s.saved.toList = (old ++ s.window).map HostSample.row
  stored : ∀ row ∈ s.table.toList, unixNano zeroTime < row.1 ∧ row.1 ≤ last
  unsaved : ∀ x ∈ s.unsaved, unixNano zeroTime < x.time ∧ x.time ≤ last
  recent : ∀ x ∈ s.window, ∀ y ∈ s.window.getLast?, y.time - 2 * hour ≤ x.time
  top : unixNano zeroTime ≤ last ∧ last < 2 ^ 63

variable {last : ℤ} {s : WatchSamples β} {x : HostSample β}

theorem unixNano_of_lt {t : ℤ} (hmin : unixNano zeroTime < t) (hmax : t < 2 ^ 63) : unixNano t = t := by
  have hzero : (-2 ^ 63 : ℤ) ≤ unixNano zeroTime := by decide
  exact HasUnixNano.unixNano_eq ⟨by omega, hmax⟩

private theorem cutoff_le_of_mem_dropWhile {l : List (HostSample β)} {cutoff : ℤ}
    (h : l.Pairwise fun a b => a.time < b.time) : ∀ y ∈ l.dropWhile fun y => y.time < cutoff, cutoff ≤ y.time := by
  induction l with
  | nil => simp
  | cons z l ih =>
    obtain ⟨hz, hl⟩ := pairwise_cons.mp h
    by_cases hlt : z.time < cutoff
    · rw [dropWhile_cons_of_pos (by simpa using hlt)]
      exact ih hl
    · rw [dropWhile_cons_of_neg (by simpa using hlt)]
      intro y hy
      rcases mem_cons.mp hy with rfl | hy
      · exact not_lt.mp hlt
      · exact (not_lt.mp hlt).trans (hz y hy).le

private theorem getLast?_pushSample (x : HostSample β) (window : List (HostSample β)) :
    (pushSample x window).getLast? = some x := by
  have hkept : ¬ x.time < x.time - 2 * hour := by
    have hpos : 0 < hour := by decide
    omega
  induction window with
  | nil => simp [pushSample, hkept]
  | cons y window ih =>
    rw [pushSample, cons_append]
    by_cases hy : y.time < x.time - 2 * hour
    · rw [dropWhile_cons_of_pos (by simpa using hy)]
      exact ih
    · rw [dropWhile_cons_of_neg (by simpa using hy), ← cons_append,
        getLast?_append]
      rfl

theorem WatchSamples.kept_start : (start : WatchSamples β).Kept (unixNano zeroTime) where
  rows := ⟨[], rfl⟩
  stored := by simp [start]
  unsaved := by simp [start]
  recent := by simp [start]
  top := by decide

variable (h : s.Kept last)
include h

theorem WatchSamples.Kept.mono {last' : ℤ} (hle : last ≤ last')
    (hmax : last' < 2 ^ 63) : s.Kept last' :=
  ⟨h.rows, fun row hrow => ⟨(h.stored row hrow).1, (h.stored row hrow).2.trans hle⟩,
    fun x hx => ⟨(h.unsaved x hx).1, (h.unsaved x hx).2.trans hle⟩, h.recent,
    h.top.1.trans hle, hmax⟩

theorem WatchSamples.Kept.tick (hnone : s.unsaved = none)
    (horder : last < x.time ∧ x.time < 2 ^ 63) : (s.step (.tick x)).Kept x.time := by
  obtain ⟨hlast, hmax⟩ := horder
  have hmin := h.top.1.trans_lt hlast
  have hstep : s.step (.tick x) =
      { s with window := pushSample x s.window, unsaved := some x } := by
    rw [step, if_pos (by simp [hnone])]
  have hlater : ∀ row ∈ s.table.toList, row.1 < x.time :=
    fun row hrow => (h.stored row hrow).2.trans_lt hlast
  obtain ⟨old, hold⟩ := h.rows
  rw [saved, hnone] at hold
  have hrows : (s.table.saveHostSample x).toList = (old ++ (s.window ++ [x])).map row := by
    rw [SampleTable.saveHostSample, unixNano_of_lt hmin hmax, toList_insert_last hlater, hold]
    simp [row]
  have hsorted : (s.window ++ [x]).Pairwise fun a b => a.time < b.time := by
    have hall := rows_increasing (s.table.saveHostSample x)
    rw [hrows, pairwise_map] at hall
    exact (pairwise_append.mp hall).2.1
  rw [hstep]
  constructor
  · refine ⟨old ++ (s.window ++ [x]).takeWhile fun y => y.time < x.time - 2 * hour, ?_⟩
    rw [append_assoc, pushSample, takeWhile_append_dropWhile]
    exact hrows
  · exact fun row hrow => ⟨(h.stored row hrow).1, (hlater row hrow).le⟩
  · intro y hy
    cases hy
    exact ⟨hmin, le_refl _⟩
  · intro y hy z hz
    rw [getLast?_pushSample] at hz
    cases hz
    exact cutoff_le_of_mem_dropWhile hsorted y hy
  · exact ⟨hmin.le, hmax⟩

theorem WatchSamples.Kept.save : (s.step .save).Kept last := by
  rw [step]
  cases hx : s.unsaved with
  | none => exact h
  | some x =>
    have hunsaved := h.unsaved x hx
    have hrows := h.rows
    rw [saved, hx] at hrows
    refine ⟨hrows, fun row hrow => ?_, by simp, h.recent, h.top⟩
    rcases mem_saveHostSample hrow with hkey | hrow
    · rw [hkey, unixNano_of_lt hunsaved.1 (hunsaved.2.trans_lt h.top.2)]
      exact hunsaved
    · exact h.stored row hrow

theorem WatchSamples.Kept.prune {now : ℤ}
    (horder : ∀ x ∈ s.window.getLast?, unixNano (now - 7 * day) ≤ x.time - 2 * hour) :
    (s.step (.prune now)).Kept last := by
  rw [step]
  split
  · rename_i hnone
    rw [Option.isNone_iff_eq_none] at hnone
    obtain ⟨old, hold⟩ := h.rows
    rw [saved, hnone] at hold
    have hwindow : ∀ x ∈ s.window, ¬ x.time < unixNano (now - 7 * day) := by
      intro x hx
      obtain ⟨y, hy⟩ : ∃ y, s.window.getLast? = some y :=
        Option.isSome_iff_exists.mp (by simpa using ne_nil_of_mem hx)
      have := h.recent x hx y hy
      have := horder y hy
      omega
    have htable : (s.table.pruneHostSamples now 7).toList =
        s.table.toList.filter fun row => !decide (row.1 < unixNano (now - 7 * day)) := by
      rw [SampleTable.pruneHostSamples, Std.ExtTreeMap.toList_filter]
      rfl
    refine ⟨?_, fun row hrow => ?_, h.unsaved, h.recent, h.top⟩
    · refine ⟨old.filter fun x => !decide (x.time < unixNano (now - 7 * day)), ?_⟩
      rw [saved, hnone]
      have hself : s.window.filter ((fun row : ℤ × β => !decide (row.1 < unixNano (now - 7 * day))) ∘ row) = s.window :=
        filter_eq_self.mpr fun x hx => by simp [row, hwindow x hx]
      rw [htable, hold, filter_map, filter_append, hself]
      rfl
    · rw [htable] at hrow
      exact h.stored row (mem_of_mem_filter hrow)
  · exact h

theorem WatchSamples.Kept.restart : (s.step .restart).Kept last := by
  refine ⟨⟨s.table.toList.map fun row => ⟨row.1, row.2⟩, ?_⟩, h.stored, by simp [step], by simp [step], h.top⟩
  rw [show (s.step .restart).window = [] from rfl, append_nil, map_map]
  exact (map_id _).symm

end

section
variable {last : ℤ} {s s' : WatchSamples β}

/-- The rows of the spawn probe change nothing but the table. -/
structure WatchSamples.SameWindow (s s' : WatchSamples β) : Prop where
  window : s'.window = s.window
  unsaved : s'.unsaved = s.unsaved

theorem WatchSamples.SameWindow.step (h : s.SameWindow s') (op : SampleOp β) : (s.step op).SameWindow (s'.step op) := by
  obtain ⟨hwindow, hunsaved⟩ := h
  cases op with
  | tick x =>
    rw [WatchSamples.step, WatchSamples.step, hunsaved]
    split
    · exact ⟨congrArg (pushSample x) hwindow, rfl⟩
    · exact ⟨hwindow, hunsaved⟩
  | save =>
    rw [WatchSamples.step, WatchSamples.step, hunsaved]
    split
    · exact ⟨hwindow, hunsaved⟩
    · exact ⟨hwindow, rfl⟩
  | prune now =>
    rw [WatchSamples.step, WatchSamples.step, hunsaved]
    split
    · exact ⟨hwindow, rfl⟩
    · exact ⟨hwindow, hunsaved⟩
  | persistSpawn x => exact ⟨hwindow, hunsaved⟩
  | restart => exact ⟨rfl, rfl⟩

theorem WatchSamples.Kept.step (h : s'.Kept last) (hsame : s.SameWindow s') {op : SampleOp β}
    (hop : op.ofTick = true) (horder : op.InOrder last s) : (s'.step op).Kept (op.latest last) := by
  cases op with
  | tick x =>
    cases hnone : s'.unsaved with
    | none => exact h.tick hnone horder
    | some y =>
      rw [WatchSamples.step, if_neg (by simp [hnone])]
      exact h.mono horder.1.le horder.2
  | save => exact h.save
  | prune now =>
    refine h.prune ?_
    rw [hsame.window]
    exact horder
  | persistSpawn x => cases hop
  | restart => exact h.restart

theorem WatchSamples.kept_run {ops : List (SampleOp β)} (h : s'.Kept last)
    (hsame : s.SameWindow s') (horder : Orderly last ops s) :
    (s.run ops).SameWindow (s'.run (ops.filter SampleOp.ofTick)) ∧
      ∃ last', (s'.run (ops.filter SampleOp.ofTick)).Kept last' := by
  induction ops generalizing last s s' with
  | nil => exact ⟨hsame, last, h⟩
  | cons op ops ih =>
    obtain ⟨hop, hrest⟩ := horder
    cases hkind : op.ofTick with
    | true =>
      rw [filter_cons_of_pos hkind]
      exact ih (h.step hsame hkind hop) (hsame.step op) hrest
    | false =>
      cases op with
      | persistSpawn x => exact ih h ⟨hsame.window, hsame.unsaved⟩ hrest
      | _ => cases hkind

end

variable {last : ℤ} {s : WatchSamples β} {since limit : ℤ}

private theorem listHostSamples_eq {t : SampleTable β} {l : List (HostSample β)}
    (h : t.toList = l.map row) (since limit : ℤ) :
    t.listHostSamples since limit = (l.filter fun x => unixNano since ≤ x.time).reverse.take (clampLimit limit) := by
  rw [SampleTable.listHostSamples, h, filter_map, ← map_reverse, ← map_take, map_map]
  exact map_id _

theorem WatchSamples.Kept.after_zero (h : s.Kept last) : ∀ row ∈ s.saved.toList, unixNano zeroTime < row.1 := by
  intro row hrow
  rw [saved] at hrow
  cases hx : s.unsaved with
  | none =>
    rw [hx] at hrow
    exact (h.stored row hrow).1
  | some x =>
    rw [hx] at hrow
    rcases mem_saveHostSample hrow with hkey | hrow
    · obtain ⟨hmin, hle⟩ := h.unsaved x hx
      rwa [hkey, unixNano_of_lt hmin (hle.trans_lt h.top.2)]
    · exact (h.stored row hrow).1

/-- What the window answers, the table with the sample that is about to be saved answers too. -/
theorem WatchSamples.Kept.samples_eq (h : s.Kept last) (hmemory : FromMemory since limit s.window)
    (hsince : since = zeroTime ∨ HasUnixNano since) :
    s.samples since limit = s.saved.listHostSamples since limit := by
  obtain ⟨old, hold⟩ := h.rows
  have hsorted : (old ++ s.window).Pairwise fun a b => a.time < b.time := by
    have hall := rows_increasing s.saved
    rwa [hold, pairwise_map] at hall
  have hbound : ∀ x ∈ old ++ s.window, unixNano zeroTime < x.time := by
    intro x hx
    refine h.after_zero x.row ?_
    rw [hold]
    exact mem_map_of_mem hx
  rw [samples, if_pos hmemory, listHostSamples_eq hold, filter_append, reverse_append, filter_reverse]
  obtain ⟨first, hfirst, ⟨rfl, hlen⟩ | ⟨hne, hle⟩⟩ := hmemory
  · have hzero : zeroTime < unixNano zeroTime := by decide
    have hafter : ∀ x ∈ s.window, unixNano zeroTime < x.time :=
      fun x hx => hbound x (mem_append_right _ hx)
    have hmemory : (s.window.filter fun x => !decide (x.time < zeroTime)) = s.window :=
      filter_eq_self.mpr fun x hx => by simp [(hzero.trans (hafter x hx)).le]
    have htable : (s.window.filter fun x => unixNano zeroTime ≤ x.time) = s.window :=
      filter_eq_self.mpr fun x hx => by simpa using (hafter x hx).le
    rw [hmemory, htable, take_append_of_le_length (by rwa [length_reverse])]
  · have hrep := hsince.resolve_left hne
    have hempty : (old.filter fun x => unixNano since ≤ x.time) = [] := by
      refine filter_eq_nil_iff.mpr fun x hx => ?_
      have hlt := (pairwise_append.mp hsorted).2.2 x hx first (mem_of_head? hfirst)
      rw [hrep.unixNano_eq, decide_eq_true_eq]
      omega
    have hsame : (s.window.filter fun x => !decide (x.time < since)) =
        s.window.filter fun x => unixNano since ≤ x.time := by
      refine filter_congr fun x _ => ?_
      rw [hrep.unixNano_eq, ← decide_not, decide_eq_decide, not_lt]
    rw [hempty, hsame, reverse_nil, append_nil]

/-- Over every run of ticks, saves, prunes and restarts, with rows of the spawn probe in between:
what `Samples` answers from memory is what the query answers when the spawn probe has written
nothing, and the sample that is about to be saved is. -/
theorem samples_from_memory {ops : List (SampleOp β)} (since limit : ℤ)
    (horder : Orderly (unixNano zeroTime) ops .start)
    (hmemory : FromMemory since limit (WatchSamples.start.run ops).window)
    (hsince : since = zeroTime ∨ HasUnixNano since) :
    (WatchSamples.start.run ops).samples since limit =
      (WatchSamples.start.run (ops.filter SampleOp.ofTick)).saved.listHostSamples since limit := by
  obtain ⟨⟨hwindow, -⟩, last, hkept⟩ :=
    kept_run kept_start ⟨rfl, rfl⟩ horder
  rw [← hwindow] at hmemory
  rw [← hkept.samples_eq hmemory hsince, samples, samples,
    if_pos hmemory, hwindow, if_pos (hwindow ▸ hmemory)]

def spawnBetween : List (SampleOp ℕ) :=
  [.tick ⟨1700000000 * second, 0⟩, .save, .persistSpawn ⟨1700000005 * second, 1⟩, .tick ⟨1700000015 * second, 2⟩, .save]

theorem samples_from_memory_spawn :
    ((WatchSamples.start.run spawnBetween).samples (1700000000 * second) 10).map HostSample.time =
        [1700000015 * second, 1700000000 * second] ∧
      (WatchSamples.start.run spawnBetween).samples (1700000000 * second) 10 =
        (WatchSamples.start.run (spawnBetween.filter SampleOp.ofTick)).saved.listHostSamples (1700000000 * second) 10 :=
  ⟨by decide +kernel, samples_from_memory _ _ (by decide +kernel) (by decide +kernel)
    (.inr (by decide +kernel))⟩

/-- The row of the spawn probe is in the table and not in the answer. -/
theorem samples_without_spawn_row :
    FromMemory (1700000000 * second) 10 (WatchSamples.start.run spawnBetween).window ∧
      (WatchSamples.start.run spawnBetween).unsaved = none ∧
      ((WatchSamples.start.run spawnBetween).samples (1700000000 * second) 10).map HostSample.time =
        [1700000015 * second, 1700000000 * second] ∧
      ((WatchSamples.start.run spawnBetween).table.listHostSamples
          (1700000000 * second) 10).map HostSample.time =
        [1700000015 * second, 1700000005 * second, 1700000000 * second] := by
  decide +kernel

end Spectra.Hostwatch
