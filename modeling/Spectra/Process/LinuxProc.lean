import Spectra.Library.GoBytes
import Spectra.Library.GoText
import Spectra.Process.Tree

/-! Processes of Linux, read from `/proc`. -/
namespace Spectra.Process
open Library GoBytes List GoText

/-- The number that `strconv.ParseInt` returns for 64 bits, with its error ignored. -/
def parseInt (s : Bytes) : ℤ :=
  match (GoText.ofBytes s).toList with
  | '-' :: digits => (GoText.readNat digits).elim 0 fun n => max (-n) (-2 ^ 63)
  | '+' :: digits => (GoText.readNat digits).elim 0 fun n => min n (2 ^ 63 - 1)
  | digits => (GoText.readNat digits).elim 0 fun n => min n (2 ^ 63 - 1)

structure LinuxStat where
  comm : Bytes
  ppid : ℤ
  utimeTicks : ℤ
  stimeTicks : ℤ
  numThreads : ℤ
  starttimeTicks : ℤ
  vsizeBytes : ℤ
  rssPages : ℤ
  deriving DecidableEq

/-- The name stands between the first opening and the last closing parenthesis. -/
def parseLinuxStat (data : Bytes) : Option LinuxStat := do
  let start ← index (ascii "(") data
  let stop ← (index (ascii ")") data.reverse).map (data.length - 1 - ·)
  guard (start ≤ stop)
  let rest := fields (data.drop (stop + 1))
  guard (21 < rest.length)
  let atoi (i : ℕ) := parseInt (rest[i]?.getD [])
  return ⟨(data.take stop).drop (start + 1), atoi 1, atoi 11, atoi 12, atoi 17, atoi 19, atoi 20, atoi 21⟩

/-- The start of a process after the boot: a `time.Duration` has 64 bits. -/
def startOffset (ticks : ℤ) : ℤ := ((ticks * 10 ^ 9).bmod (2 ^ 64)).tdiv 100

/-- `readLinuxProc` with the contents of the files `stat` and `cmdline`. -/
def readLinuxProc (pid pageKiB : ℤ) (bootTime : Option ℤ) (stat : Option Bytes)
    (cmdline : String) : Option Info :=
  (stat.bind parseLinuxStat).map fun (st : LinuxStat) =>
    let comm := GoText.ofBytes st.comm
    { pid, ppid := st.ppid, command := comm
      rssKiB := (st.rssPages * if pageKiB ≤ 0 then 4 else pageKiB).bmod (2 ^ 64)
      fullCommandLine := if cmdline ≠ "" then cmdline else "[" ++ comm ++ "]"
      startTime := if 0 < st.starttimeTicks then bootTime.map (· + startOffset st.starttimeTicks)
        else none }

theorem startOffset_eq_iff {ticks : ℤ} (hpos : 0 < ticks) (hrep : ticks * 10 ^ 7 < 2 ^ 63) :
    startOffset ticks = ticks * 10 ^ 7 ↔ ticks * 10 ^ 9 < 2 ^ 63 := by
  rw [startOffset]
  constructor
  · intro h
    have hlt : (ticks * 10 ^ 9).bmod (2 ^ 64) < (2 ^ 64 + 1) / 2 := Int.bmod_lt (by decide)
    have hle : ((ticks * 10 ^ 9).bmod (2 ^ 64)).tdiv 100 ≤ (2 ^ 63 : ℤ).tdiv 100 :=
      Int.tdiv_le_tdiv (by decide) (by omega)
    rw [h, show (2 ^ 63 : ℤ).tdiv 100 = 92233720368547758 by decide] at hle
    omega
  · intro h
    rw [Int.bmod_eq_of_le (by omega) (by omega), Int.tdiv_eq_ediv_of_nonneg (by omega)]
    omega

theorem readLinuxProc_startOffset {pid pageKiB boot : ℤ} {stat : Bytes} {cmdline : String}
    {st : LinuxStat} (hstat : parseLinuxStat stat = some st) (hpos : 0 < st.starttimeTicks) :
    (readLinuxProc pid pageKiB (some boot) (some stat) cmdline).bind Info.startTime =
      some (boot + startOffset st.starttimeTicks) := by
  rw [readLinuxProc, Option.bind_some, hstat, Option.map_some, Option.bind_some, if_pos hpos, Option.map_some]

/-- The start is the kernel's as long as the product of the ticks with a second does not wrap; up to
there a process with fewer ticks is shown with no later start. -/
theorem readLinuxProc_startTime {pid pageKiB boot : ℤ} {stat : Bytes} {cmdline : String}
    {st : LinuxStat} (hstat : parseLinuxStat stat = some st) (hpos : 0 < st.starttimeTicks)
    (hrep : st.starttimeTicks * 10 ^ 7 < 2 ^ 63) :
    ((readLinuxProc pid pageKiB (some boot) (some stat) cmdline).bind Info.startTime =
        some (boot + st.starttimeTicks * 10 ^ 7) ↔ st.starttimeTicks * 10 ^ 9 < 2 ^ 63) ∧
    (st.starttimeTicks * 10 ^ 9 < 2 ^ 63 → ∀ pid' stat' cmdline' st', parseLinuxStat stat' = some st' →
      0 < st'.starttimeTicks → st'.starttimeTicks ≤ st.starttimeTicks → ∃ t' t,
        (readLinuxProc pid' pageKiB (some boot) (some stat') cmdline').bind Info.startTime = some t' ∧
        (readLinuxProc pid pageKiB (some boot) (some stat) cmdline).bind Info.startTime = some t ∧ t' ≤ t) := by
  constructor
  · rw [readLinuxProc_startOffset hstat hpos, Option.some.injEq, add_right_inj]
    exact startOffset_eq_iff hpos hrep
  · intro h pid' stat' cmdline' st' hstat' hpos' hle
    refine ⟨_, _, readLinuxProc_startOffset hstat' hpos', readLinuxProc_startOffset hstat hpos, ?_⟩
    rw [(startOffset_eq_iff hpos hrep).mpr h, (startOffset_eq_iff hpos' (by omega)).mpr (by omega)]
    omega

/-- The line of a process that started a number of ticks after the boot. -/
def statLine (ticks : String) : Bytes :=
  ascii ("7 (a) S 1 0 0 0 0 0 0 0 0 0 0 0 0 0 0 0 1 0 " ++ ticks ++ " 0 0")

theorem readLinuxProc_startTime_hour :
    (readLinuxProc 7 4 (some 0) (some (statLine "360000")) "").bind Info.startTime = some (0 + 360000 * 10 ^ 7) :=
  have hstat : parseLinuxStat (statLine "360000") = some ⟨ascii "a", 1, 0, 0, 1, 360000, 0, 0⟩ := by
    decide +kernel
  (readLinuxProc_startTime hstat (by decide) (by decide)).1.mpr (by decide)

/-- A process that started 1067 days after the boot, and one a tick later, which is shown as older. -/
theorem readLinuxProc_startTime_wraps :
    (readLinuxProc 7 4 (some 0) (some (statLine "9223372036")) "").bind Info.startTime =
      some 92233720360000000 ∧
    (readLinuxProc 7 4 (some 0) (some (statLine "9223372037")) "").bind Info.startTime = some (-92233720367095516) := by
  decide +kernel

private theorem parseInt_of_atoi {s : Bytes} {z : ℤ} (h : atoi (ofBytes s) = some z) : parseInt s = z := by
  rw [atoi] at h
  rw [parseInt]
  generalize (ofBytes s).toList = cs at *
  obtain ⟨hval, hbound⟩ := Option.filter_eq_some_iff.mp h
  rw [decide_eq_true_eq] at hbound
  split at hval
  all_goals
    obtain ⟨n, hn, rfl⟩ := Option.map_eq_some_iff.mp hval
    obtain ⟨m, hm, hn⟩ := Option.bind_eq_some_iff.mp hn
    cases hn
    simp only [hm, Option.elim_some]
    omega

def number (z : ℤ) : Bytes := ascii (GoText.itoa z)

/-- The line of a process: the name in parentheses, the state, and the fields from the fourth on. -/
def kernelStat (pid : ℤ) (comm : Bytes) (state : UInt8) (numbers : List ℤ) : Bytes :=
  number pid ++ [32] ++ 40 :: comm ++ 41 :: 32 :: ([state] ++ numbers.flatMap (32 :: number ·) ++ [10])

theorem mem_number {z : ℤ} {b : UInt8} (h : b ∈ number z) : 45 ≤ b ∧ b < 58 := by
  obtain ⟨c, hc, rfl⟩ := mem_map.mp h
  rcases mem_itoa hc with rfl | ⟨hlo, hhi⟩
  · decide
  · rw [UInt8.le_iff_toNat_le, UInt8.lt_iff_toNat_lt, UInt8.toNat_ofNat']
    have h45 : (45 : UInt8).toNat = 45 := rfl
    have h58 : (58 : UInt8).toNat = 58 := rfl
    omega

private theorem ofBytes_number (z : ℤ) : ofBytes (number z) = itoa z := by
  have hlist : (number z).map (fun b => Char.ofNat b.toNat) = (itoa z).toList := by
    rw [number, ascii, map_map]
    refine (map_congr_left fun c hc => ?_).trans (map_id _)
    have hsmall : c.toNat < 256 := by
      rcases mem_itoa hc with rfl | h
      · decide
      · omega
    simp [UInt8.toNat_ofNat', Nat.mod_eq_of_lt hsmall]
  rw [ofBytes, hlist, String.ofList_toList]

private theorem parseInt_number {z : ℤ} (hmin : -2 ^ 63 ≤ z) (hmax : z < 2 ^ 63) : parseInt (number z) = z :=
  parseInt_of_atoi (by rw [ofBytes_number, atoi_itoa_of_int64 hmin hmax])

private theorem number_ne_nil (z : ℤ) : number z ≠ [] := by
  rw [number, ascii, ne_eq, map_eq_nil_iff, itoa]
  split <;> simp [decimal_ne_nil]

theorem fields_word {x : Bytes} (hne : x ≠ []) (hx : ∀ b ∈ x, 32 < b ∧ b < 128) : fields x = [x] := by
  refine fields_of_hasSpace_eq_false hne ?_
  rw [← append_nil x, hasSpace_append_of_ascii (by simpa using hx)]
  rfl

private theorem fields_numbers {x : Bytes} (hx : fields x = [x]) (numbers : List ℤ) :
    fields (x ++ numbers.flatMap (32 :: number ·) ++ [10]) = x :: numbers.map number := by
  induction numbers generalizing x with
  | nil =>
    rw [flatMap_nil, append_nil, fields_append_cons (by decide), hx]
    rfl
  | cons z numbers ih =>
    have hz : fields (number z) = [number z] := by
      refine fields_word (number_ne_nil z) fun b hb => ?_
      obtain ⟨hlo, hhi⟩ := mem_number hb
      exact ⟨UInt8.lt_of_lt_of_le (by decide) hlo, UInt8.lt_trans hhi (by decide)⟩
    rw [flatMap_cons, cons_append, append_assoc, cons_append, fields_append_cons (by decide), hx, map_cons,
      ← ih hz]
    rfl

private theorem index_closing {a b : Bytes} (h : 41 ∉ b) :
    (index (ascii ")") (a ++ 41 :: b).reverse).map ((a ++ 41 :: b).length - 1 - ·) = some a.length := by
  have hrev : (a ++ 41 :: b).reverse = b.reverse ++ 41 :: a.reverse := by simp
  have hidx : index (ascii ")") (a ++ 41 :: b).reverse = some b.reverse.length :=
    hrev ▸ index_singleton_append (mt mem_reverse.mp h)
  rw [hidx, Option.map_some, length_append, length_cons, length_reverse, Option.some.injEq]
  omega

private theorem parseLinuxStat_append {before after : Bytes} (hopen : 40 ∉ before) (comm : Bytes) (hclose : 41 ∉ after)
    (hlen : 21 < (fields after).length) :
    let atoi (i : ℕ) := parseInt ((fields after)[i]?.getD [])
    parseLinuxStat (before ++ 40 :: comm ++ 41 :: after) =
      some ⟨comm, atoi 1, atoi 11, atoi 12, atoi 17, atoi 19, atoi 20, atoi 21⟩ := by
  have hstart : index (ascii "(") (before ++ 40 :: comm ++ 41 :: after) = some before.length := by
    rw [append_assoc]
    exact index_singleton_append hopen
  have hle : before.length ≤ (before ++ 40 :: comm).length := by simp
  simp only [parseLinuxStat, hstart, index_closing hclose, Option.bind_eq_bind, Option.bind_some, guard, if_pos hle,
    drop_length_add_append, take_left, drop_succ_cons, drop_zero, if_pos hlen]
  rfl

/-- Whatever the name of a process is, the fields of its line are read as they were written. -/
theorem parseLinuxStat_kernelStat (pid : ℤ) (comm : Bytes) {state : UInt8} (hstate : 65 ≤ state ∧ state < 123)
    (numbers : List ℤ) (hlen : 21 ≤ numbers.length) (hint : ∀ z ∈ numbers.take 21, -2 ^ 63 ≤ z ∧ z < 2 ^ 63) :
    parseLinuxStat (kernelStat pid comm state numbers) = some ⟨comm, numbers[0], numbers[10], numbers[11],
      numbers[16], numbers[18], numbers[19], numbers[20]⟩ := by
  have hnumber (z : ℤ) : 40 ∉ number z ∧ 41 ∉ number z :=
    ⟨fun h => absurd (mem_number h).1 (by decide), fun h => absurd (mem_number h).1 (by decide)⟩
  have hopen : 40 ∉ number pid ++ [32] := by simp [hnumber]
  have hclose : 41 ∉ 32 :: ([state] ++ numbers.flatMap (32 :: number ·) ++ [10]) := by
    have hne : 41 ≠ state := fun h => absurd (h ▸ hstate.1) (by decide)
    simp [hnumber, hne]
  have hone : fields [state] = [[state]] := by
    refine fields_word (cons_ne_nil _ _) (forall_mem_singleton.mpr ?_)
    exact ⟨UInt8.lt_of_lt_of_le (by decide) hstate.1, UInt8.lt_trans hstate.2 (by decide)⟩
  have hfields : fields (32 :: ([state] ++ numbers.flatMap (32 :: number ·) ++ [10])) = [state] :: numbers.map number :=
    (fields_append_cons (by decide) [] _).trans (fields_numbers hone numbers)
  have hatoi (i : ℕ) (hi : i < 21) : parseInt (([state] :: numbers.map number)[i + 1]?.getD []) = numbers[i] := by
    obtain ⟨hmin, hmax⟩ := hint numbers[i] (mem_take_iff_getElem.mpr ⟨i, by omega, rfl⟩)
    rw [getElem?_cons_succ, getElem?_map, getElem?_eq_getElem (hi.trans_le hlen)]
    exact parseInt_number hmin hmax
  have hparse := parseLinuxStat_append hopen comm hclose
  rw [hfields, length_cons, length_map] at hparse
  rw [← hatoi 0 (by decide), ← hatoi 10 (by decide), ← hatoi 11 (by decide), ← hatoi 16 (by decide),
    ← hatoi 18 (by decide), ← hatoi 19 (by decide), ← hatoi 20 (by decide)]
  exact hparse (by omega)

theorem parseLinuxStat_kernelStat_spoofed :
    parseLinuxStat (kernelStat 7 (ascii "a) R 1 (\n") 83 ((range 21).map Int.ofNat)) =
      some ⟨ascii "a) R 1 (\n", 0, 10, 11, 16, 18, 19, 20⟩ :=
  parseLinuxStat_kernelStat 7 _ (by decide) ((range 21).map Int.ofNat) (by decide) (by decide)

end Spectra.Process
