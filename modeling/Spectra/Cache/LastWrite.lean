import Spectra.Cache.Ttl

/-! A key of the TTL store reads as its last put. -/
namespace Spectra.Cache
open List Nat TTLPut Library Relation Writer

namespace Writer

variable {s s' : Writer}

def keyed (key : Bytes) (jobs : List WriteJob) : List WriteJob := jobs.filter (·.key = key)

@[simp] theorem keyed_append (key : Bytes) (l l' : List WriteJob) :
    keyed key (l ++ l') = keyed key l ++ keyed key l' := filter_append ..

theorem keyed_eq_nil {key : Bytes} {l : List WriteJob} (h : ∀ job ∈ l, job.key ≠ key) :
    keyed key l = [] := filter_eq_nil_iff.mpr fun job hjob => by simpa using h job hjob

theorem keyed_of_ne {key : Bytes} {job : WriteJob} (h : job.key ≠ key) : keyed key [job] = [] :=
  keyed_eq_nil fun _ hmem => mem_singleton.mp hmem ▸ h

theorem keyed_eq_of_perm {key : Bytes} {l l' : List WriteJob} (h : l.Perm l')
    (hlength : (keyed key l').length ≤ 1) : keyed key l = keyed key l' := by
  have hperm : (keyed key l).Perm (keyed key l') := h.filter _
  match hl' : keyed key l', hlength with
  | [], _ => exact perm_nil.mp (hl' ▸ hperm)
  | [job], _ => exact perm_singleton.mp (hl' ▸ hperm)

/-- The puts of every key are, and will be, in the order of its writes. -/
structure InOrder (s : Writer) : Prop where
  single : s.held.length ≤ 1
  order : ∀ key, keyed key (s.puts ++ s.pending ++ s.held) = keyed key s.issued
  alone : s.workers.length ≤ 1 ∨ ∀ key, (keyed key s.pending).length ≤ 1

theorem InOrder.new (n m : ℕ) : InOrder (.new n m) := by
  have hpending : (Writer.new n m).pending = [] := by
    simp [pending, hands, Writer.new, Worker.hand]
  refine ⟨zero_le _, fun key => ?_, .inr fun key => ?_⟩
  · rw [hpending]
    rfl
  · rw [hpending]
    exact zero_le _

section
variable (h : InOrder s)
include h

theorem InOrder.held_eq {i : ℕ} {w : Write} (hat : s.writes[i]? = some w) (hw : w.held = [w.job])
    (w' : Write) (hw' : w'.held = []) : s.held = [w.job] ∧ (s.writes.set i w').flatMap Write.held = [] := by
  have hperm := flatMap_set_perm Write.held w' hat
  rw [hw, hw', append_nil] at hperm
  have hsingle := h.single
  rw [held, ← hperm.length_eq, length_append] at hsingle
  have hnil := eq_nil_of_length_eq_zero (le_zero.mp (le_of_succ_le_succ hsingle))
  rw [hnil] at hperm
  exact ⟨perm_singleton.mp hperm.symm, hnil⟩

theorem InOrder.write (hheld : s.held = []) (job : WriteJob) :
    InOrder { s with writes := s.writes ++ [⟨job, .loading⟩] } := by
  have hheld' : held { s with writes := s.writes ++ [⟨job, .loading⟩] } = [job] := by
    rw [held, flatMap_append, show s.writes.flatMap Write.held = [] from hheld]
    rfl
  refine ⟨by rw [hheld']; exact le_refl 1, fun key => ?_, h.alone⟩
  have horder := h.order key
  rw [hheld, append_nil] at horder
  rw [hheld', issued, map_append]
  change keyed key (s.puts ++ s.pending ++ [job]) = keyed key (s.issued ++ [job])
  rw [keyed_append, horder, keyed_append]

variable {i : ℕ} {job : WriteJob}

theorem InOrder.of_writes {t t' : WriteStage}
    (hat : s.writes[i]? = some ⟨job, t⟩) (hheld : Write.held ⟨job, t'⟩ = Write.held ⟨job, t⟩) :
    InOrder { s with writes := s.writes.set i ⟨job, t'⟩ } := by
  have hsame : held { s with writes := s.writes.set i ⟨job, t'⟩ } = s.held :=
    flatMap_set_of_eq hat hheld
  refine ⟨hsame ▸ h.single, fun key => ?_, h.alone⟩
  rw [hsame, issued, map_job_set hat]
  exact h.order key

/-- The job of a send stays last. -/
theorem InOrder.send (hat : s.writes[i]? = some ⟨job, .sending⟩)
    (hordered : s.workers.length ≤ 1 ∨ ∀ older ∈ s.pending, older.key ≠ job.key) :
    InOrder { s with queue := s.queue ++ [job], writes := s.writes.set i ⟨job, .returned false⟩ } := by
  obtain ⟨hheld, hheld'⟩ := h.held_eq hat rfl ⟨job, .returned false⟩ rfl
  refine ⟨by rw [held, hheld']; exact zero_le 1, fun key => ?_, ?_⟩
  · have horder := h.order key
    rw [hheld] at horder
    rw [held, hheld', issued, map_job_set hat]
    change keyed key (s.puts ++ (s.hands ++ (s.queue ++ [job])) ++ []) = keyed key s.issued
    rw [← horder, pending, append_nil, append_assoc, append_assoc]
  · cases hordered with
    | inl hone => exact .inl hone
    | inr hfresh =>
      refine h.alone.imp_right fun halone key => ?_
      have hone := halone key
      have hpending : pending { s with
          queue := s.queue ++ [job], writes := s.writes.set i ⟨job, .returned false⟩ } =
          s.pending ++ [job] := (append_assoc ..).symm
      rw [hpending, keyed_append]
      by_cases hkey : job.key = key
      · rw [keyed_eq_nil (hkey ▸ hfresh)]
        exact length_filter_le ..
      · rw [keyed_of_ne hkey, append_nil]
        exact hone

/-- A synchronous put passes no older write of its key. -/
theorem InOrder.put (hat : s.writes[i]? = some ⟨job, .putting⟩)
    (hordered : ∀ older ∈ s.pending, older.key ≠ job.key) :
    InOrder { s with puts := s.puts ++ [job], writes := s.writes.set i ⟨job, .returned true⟩ } := by
  obtain ⟨hheld, hheld'⟩ := h.held_eq hat rfl ⟨job, .returned true⟩ rfl
  refine ⟨by rw [held, hheld']; exact zero_le 1, fun key => ?_, h.alone⟩
  have horder := h.order key
  rw [hheld] at horder
  rw [held, hheld', issued, map_job_set hat]
  change keyed key (s.puts ++ [job] ++ s.pending ++ []) = keyed key s.issued
  rw [← horder]
  simp only [keyed_append, append_assoc]
  by_cases hkey : job.key = key
  · rw [keyed_eq_nil (l := s.pending) (hkey ▸ hordered)]
    exact congrArg _ (append_nil _)
  · rw [keyed_of_ne hkey]
    rfl

/-- A worker moves jobs from the front of what it works on: from the queue to its hands, or from
its hands to the puts. -/
theorem InOrder.of_worker {j : ℕ} {w : Worker} (w' : Worker) {queue : List WriteJob}
    (moved : List WriteJob) (hat : s.workers[j]? = some w) (hfront : moved ++ (w'.hand ++ queue) = w.hand ++ s.queue) :
    InOrder { s with queue := queue, puts := s.puts ++ moved, workers := s.workers.set j w' } := by
  have hkeyed : ∀ key,
      keyed key (moved ++ ((s.workers.set j w').flatMap Worker.hand ++ queue)) =
        keyed key s.pending := by
    intro key
    cases h.alone with
    | inl hone =>
      obtain ⟨hj, hw⟩ := List.getElem?_eq_some_iff.mp hat
      obtain ⟨w₀, hworkers⟩ : ∃ w₀, s.workers = [w₀] := length_eq_one_iff.mp (by omega)
      have hj₀ : j = 0 := by omega
      subst hj₀
      have hw₀ : w₀ = w := by simpa [hworkers] using hw
      simp [pending, hands, hworkers, hw₀, hfront]
    | inr halone =>
      refine keyed_eq_of_perm (perm_iff_count.mpr fun job => ?_) (halone key)
      have hcount := count_flatMap_set Worker.hand w' job hat
      have hfront' := congrArg (count job) hfront
      simp only [pending, hands, count_append] at hfront' ⊢
      omega
  refine ⟨h.single, fun key => ?_, ?_⟩
  · have horder := h.order key
    rw [keyed_append, keyed_append, ← hkeyed key] at horder
    change keyed key (s.puts ++ moved ++ ((s.workers.set j w').flatMap Worker.hand ++ queue) ++
      s.held) = keyed key s.issued
    rw [← horder]
    simp
  · cases h.alone with
    | inl hone => exact .inl (by simpa using hone)
    | inr halone =>
      refine .inr fun key => ?_
      have hone := halone key
      rw [← hkeyed key, keyed_append, length_append] at hone
      exact le_trans (Nat.le_add_left ..) hone

theorem InOrder.act (hact : Act s s') (hordered : s.Ordered s') (hlive : s'.crashed = false)
    (hwrites : s'.writes.length = s.writes.length) : InOrder s' := by
  cases hact with
  | write job => simp at hwrites
  | loadClosed hat hclosed | full hat hopen hfull => exact h.of_writes hat rfl
  | loadOpen hat hclosed =>
    refine h.of_writes hat ?_
    cases s.opened_cases with
    | inl hopened | inr hopened => rw [hopened]; rfl
  | send hat hopen hroom =>
    obtain ⟨hi, -⟩ := List.getElem?_eq_some_iff.mp hat
    exact h.send hat (hordered.send _ _ hat (getElem?_set_self hi))
  | put hat =>
    obtain ⟨hi, -⟩ := List.getElem?_eq_some_iff.mp hat
    exact h.put hat (hordered.put _ _ hat (getElem?_set_self hi))
  | panic hat hclosed | closeAgain hat hclosed => exact nomatch hlive
  | receive hat hqueue =>
    have hmoved := h.of_worker (.putting _) [] hat hqueue.symm
    rwa [append_nil] at hmoved
  | store hat => exact h.of_worker .receiving [_] hat rfl
  | drained hat hqueue hclosed =>
    have hmoved := h.of_worker .done [] hat rfl
    rwa [append_nil] at hmoved
  | close | swapFirst | swapAgain | closeQueue | wait => exact ⟨h.single, h.order, h.alone⟩

end

/-- Either no `Close` or no `Write` is under way. -/
def Turns (s : Writer) : Prop :=
  (∀ c ∈ s.closes, c = .returned) ∨ ∀ w ∈ s.writes, ∃ wroteSync, w.stage = .returned wroteSync

theorem Turns.act (h : Turns s) (hact : Act s s')
    (hwrites : s'.writes.length = s.writes.length) (hcloses : s'.closes.length = s.closes.length) : Turns s' := by
  have hwrite : ∀ {i : ℕ} {w : Write}, s.writes[i]? = some w → (∀ b, w.stage ≠ .returned b) →
      ∀ c ∈ s.closes, c = .returned := by
    intro i w hat hstage
    refine h.resolve_right fun hall => ?_
    obtain ⟨b, hb⟩ := hall w (mem_of_getElem? hat)
    exact hstage b hb
  have hclose : ∀ {k : ℕ} {c : Close}, s.closes[k]? = some c → c ≠ .returned →
      ∀ w ∈ s.writes, ∃ wroteSync, w.stage = .returned wroteSync := by
    intro k c hat hne
    exact h.resolve_left fun hall => hne (hall c (mem_of_getElem? hat))
  cases hact with
  | write job => simp at hwrites
  | close => simp at hcloses
  | loadClosed hat _ | loadOpen hat _ | send hat _ _ | full hat _ _ | panic hat _ | put hat =>
    exact .inl (hwrite hat nofun)
  | receive | store | drained | closeAgain => exact h
  | swapFirst hat _ | swapAgain hat _ | closeQueue hat _ | wait hat _ =>
    exact .inr (hclose hat nofun)

theorem Turns.settled (h : Turns s) (hact : Act s s') : Settled s s' := by
  intro hopen hclosed w hw hstage
  obtain hbefore | ⟨-, k, hat, -⟩ := hact.queueClosed_cases hclosed
  · exact nomatch hopen.symm.trans hbefore
  · cases h with
    | inl hall => exact nomatch hall _ (mem_of_getElem? hat)
    | inr hall =>
      obtain ⟨b, hb⟩ := hall w hw
      exact nomatch hstage.symm.trans hb

end Writer

private theorem putUint64_eq (v : UInt64) : putUint64 v = Reader.bigEndianBytes 8 v.toNat := by
  simp [putUint64, Reader.bigEndianBytes, Nat.div_div_eq_div_mul]

private theorem bigEndian_putUint64 (v : UInt64) : Reader.bigEndian (putUint64 v) = v.toNat := by
  rw [putUint64_eq, Reader.bigEndian_bigEndianBytes v.toNat_lt]

variable {p : TTLPut}

theorem TTLPut.toNat_expiresAt (h : p.InRange) :
    (p.expiresAt.toUInt64.toNat : ℤ) = p.now + p.ttl ∧ ¬ p.expiresAt < 0 := by
  obtain ⟨hlo, hhi⟩ := h
  have hint : p.expiresAt.toInt = p.now + p.ttl := Int64.toInt_ofInt_of_le (by omega) hhi
  have hnonneg : (0 : Int64) ≤ p.expiresAt := by
    rw [Int64.le_iff_toInt_le, hint]
    exact hlo
  refine ⟨?_, Int64.not_lt.mpr hnonneg⟩
  rw [Int64.toNat_toUInt64_of_le hnonneg, Int64.toNatClampNeg, hint, Int.toNat_of_nonneg hlo]

theorem ttlGet_frame {st : Store} {key : Bytes} (h : p.InRange) (hget : st.get key = some (some p.frame)) (now : ℤ) :
    ttlGet st key now = some (if now < p.now + p.ttl then some p.payload else none) := by
  have htake : p.frame.take 8 = putUint64 p.expiresAt.toUInt64 := take_left' rfl
  have hdrop : p.frame.drop 8 = p.payload := drop_left' rfl
  have hlength : ¬ p.frame.length < 8 := by simp [frame, putUint64]
  have hexpires := (toNat_expiresAt h).1
  have hmax : ¬ maxInt64 < p.expiresAt.toUInt64.toNat := by
    have hhi := h.2
    unfold maxInt64
    omega
  simp [ttlGet, hget, hlength, htake, hdrop, bigEndian_putUint64, hmax, hexpires]

theorem TTLPut.frame_of_blob {blob : Bytes} (h : p.blob = .ok blob) : blob = p.frame := by
  rw [TTLPut.blob] at h
  split at h
  · exact nomatch h
  · split at h
    · exact nomatch h
    · exact (Except.ok.inj h).symm

theorem TTLPut.blob_of_inRange (h : p.InRange) (hlength : p.payload.length ≤ maxInt64 - 8) : p.blob = .ok p.frame := by
  rw [blob, if_neg (toNat_expiresAt h).2, if_neg (not_lt.mpr hlength)]

namespace Caller

variable {s s' : Caller}

/-- The writer has the caller's puts as jobs, in their order. -/
structure Tracked (s : Caller) : Prop where
  issued : s.writer.issued = s.calls.map TTLPut.job
  calls : ∀ p ∈ s.calls, p.key ≠ [] ∧ p.InRange
  turns : s.writer.Turns

theorem Tracked.new (n m : ℕ) : Tracked (.new n m) :=
  ⟨rfl, fun _ h => absurd h not_mem_nil, .inl fun _ h => absurd h not_mem_nil⟩

variable {w : Writer}

theorem issued_act {w' : Writer} (hact : w.Act w') (hwrites : w'.writes.length = w.writes.length) :
    w'.issued = w.issued := by
  cases hact with
  | write job => simp at hwrites
  | loadClosed hat _ | loadOpen hat _ | send hat _ _ | full hat _ _ | panic hat _ | put hat =>
    exact map_job_set hat
  | _ => rfl

theorem Tracked.step (h : Tracked s) (hstep : Step s s') : Tracked s' := by
  cases hstep with
  | @put p blob hidle hkey hrange hblob =>
    rw [frame_of_blob hblob]
    refine ⟨?_, fun q hq => ?_, .inl hidle.closes⟩
    · change (s.writer.writes ++ [_]).map Write.job = _
      rw [map_append, map_append]
      exact congrArg (· ++ [p.job]) h.issued
    · cases mem_append.mp hq with
      | inl hmem => exact h.calls q hmem
      | inr hnew => exact mem_singleton.mp hnew ▸ ⟨hkey, hrange⟩
  | close hidle => exact ⟨h.issued, h.calls, .inr hidle.writes⟩
  | run hstep hwrites hcloses =>
    exact ⟨(issued_act hstep.2 hwrites).trans h.issued, h.calls, h.turns.act hstep.2 hwrites hcloses⟩

theorem Tracked.settled (h : Tracked s) (hstep : Step s s') :
    Writer.Step s.writer s'.writer ∧ Writer.Settled s.writer s'.writer := by
  have hwriter : Writer.Step s.writer s'.writer := by
    cases hstep with
    | put hidle _ _ _ => exact ⟨hidle.live, .write _⟩
    | close hidle => exact ⟨hidle.live, .close⟩
    | run hstep _ _ => exact hstep
  exact ⟨hwriter, h.turns.settled hwriter.2⟩

section
variable {n m : ℕ} (h : ReachableOrdered n m s)
include h

theorem ReachableOrdered.tracked : Tracked s := by
  induction h with
  | refl => exact .new n m
  | tail _ hstep ih => exact ih.step hstep.1

theorem ReachableOrdered.settled : Writer.ReachableSettled n m s.writer := by
  induction h with
  | refl => exact .refl
  | tail hs hstep ih => exact ih.tail ((ReachableOrdered.tracked hs).settled hstep.1)

theorem ReachableOrdered.inOrder : s.writer.InOrder := by
  induction h with
  | refl => exact .new n m
  | @tail s s' hs hstep ih =>
    have hlive := (ReachableOrdered.settled (hs.tail hstep)).live
    cases hstep.1 with
    | put hidle hkey hrange hblob =>
      refine ih.write (flatMap_eq_nil_iff.mpr fun w hw => ?_) _
      obtain ⟨b, hb⟩ := hidle.writes w hw
      simp [Write.held, hb]
    | close hidle => exact ⟨ih.single, ih.order, ih.alone⟩
    | run hact hwrites hcloses => exact ih.act hact.2 hstep.2 hlive hwrites

theorem ReachableOrdered.keyed_puts (hm : n = 0 ∨ 1 ≤ m) (hfinished : s.writer.Finished) (key : Bytes) :
    keyed key s.writer.puts = (s.calls.filter (·.key = key)).map job := by
  obtain ⟨hheld, hhands, hqueue⟩ := hfinished.empty h.settled.reachable hm
  have horder := h.inOrder.order key
  rw [hheld, pending, hhands, hqueue, append_nil, append_nil, append_nil, h.tracked.issued] at horder
  rw [horder, keyed, filter_map]
  rfl

end

/-- After `Close` a key reads as the payload of its last put until that expires, and then as a
miss, in every run in which no write passes an older one of its key. -/
theorem ttl_last_write_wins (queueSize workers : ℕ) (hworkers : queueSize = 0 ∨ 1 ≤ workers)
    (s : Caller) (hs : ReachableOrdered queueSize workers s) (hfinished : s.writer.Finished) :
    ∃ st, Store.after s.writer.puts = some st ∧ ∀ key, key ≠ [] → ∀ now,
      ttlGet st key now = some ((s.lastPut key).bind fun p =>
        if now < p.now + p.ttl then some p.payload else none) := by
  have hkeyed := hs.keyed_puts hworkers hfinished
  have hkeys : ∀ job ∈ s.writer.puts, job.key ≠ [] := by
    intro job hjob
    have hmem : job ∈ keyed job.key s.writer.puts :=
      mem_filter.mpr ⟨hjob, decide_eq_true rfl⟩
    rw [hkeyed job.key] at hmem
    obtain ⟨p, hp, rfl⟩ := mem_map.mp hmem
    exact (hs.tracked.calls p (mem_filter.mp hp).1).1
  obtain ⟨st, hst, hget⟩ := Store.after_spec hkeys
  refine ⟨st, hst, fun key hkey now => ?_⟩
  have hlast := hget key hkey
  rw [show s.writer.puts.filter (·.key = key) = _ from hkeyed key, getLast?_map] at hlast
  cases hput : s.lastPut key with
  | none =>
    rw [lastPut] at hput
    rw [hput] at hlast
    simp [ttlGet, hlast]
  | some p =>
    rw [lastPut] at hput
    rw [hput] at hlast
    have hmem := (mem_filter.mp (mem_of_getLast? hput)).1
    exact ttlGet_frame (hs.tracked.calls p hmem).2 hlast now

def older : TTLPut := ⟨[7], [1], 0, 10⟩

def newer : TTLPut := ⟨[7], [2], 1, 10⟩

theorem older_inRange : older.InRange := by constructor <;> decide

theorem newer_inRange : newer.InRange := by constructor <;> decide

theorem idle_of (h : w.crashed = false ∧
    (∀ x ∈ w.writes, x.stage = .returned false ∨ x.stage = .returned true) ∧
    ∀ c ∈ w.closes, c = .returned) : w.Idle := by
  refine ⟨h.1, fun x hx => ?_, h.2.2⟩
  cases h.2.1 x hx with
  | inl h => exact ⟨false, h⟩
  | inr h => exact ⟨true, h⟩

theorem put_older {calls : List TTLPut} (h : w.Idle) :
    Step ⟨w, calls⟩ ⟨{ w with writes := w.writes ++ [⟨older.job, .loading⟩] }, calls ++ [older]⟩ :=
  .put h nofun older_inRange (blob_of_inRange older_inRange (by decide))

theorem put_newer {calls : List TTLPut} (h : w.Idle) :
    Step ⟨w, calls⟩ ⟨{ w with writes := w.writes ++ [⟨newer.job, .loading⟩] }, calls ++ [newer]⟩ :=
  .put h nofun newer_inRange (blob_of_inRange newer_inRange (by decide))

theorem ordered_of {w' : Writer} (h : w.workers.length ≤ 1 ∧ ∀ x ∈ w.writes, x.stage ≠ .putting) :
    w.Ordered w' where
  put _ _ hat _ := absurd rfl (h.2 _ (mem_of_getElem? hat))
  send _ _ _ _ := .inl h.1

theorem ttl_last_write_wins_newer :
    ∃ s st, ReachableOrdered 2 1 s ∧ s.writer.Finished ∧ Store.after s.writer.puts = some st ∧
      ttlGet st [7] 5 = some (some [2]) := by
  have hrun : ∃ s, ReachableOrdered 2 1 s ∧ s.writer.Finished ∧ s.calls = [older, newer] := by
    refine ⟨_, .head ⟨put_older (idle_of (by decide)), ordered_of (by decide)⟩
      (.head ⟨.run ⟨rfl, .loadOpen (i := 0) rfl rfl⟩ rfl rfl, ordered_of (by decide)⟩
      (.head ⟨.run ⟨rfl, .send (i := 0) rfl rfl (by decide)⟩ rfl rfl, ordered_of (by decide)⟩
      (.head ⟨put_newer (idle_of (by decide)), ordered_of (by decide)⟩
      (.head ⟨.run ⟨rfl, .loadOpen (i := 1) rfl rfl⟩ rfl rfl, ordered_of (by decide)⟩
      (.head ⟨.run ⟨rfl, .send (i := 1) rfl rfl (by decide)⟩ rfl rfl, ordered_of (by decide)⟩
      (.head ⟨.run ⟨rfl, .receive (j := 0) rfl rfl⟩ rfl rfl, ordered_of (by decide)⟩
      (.head ⟨.run ⟨rfl, .store (j := 0) rfl⟩ rfl rfl, ordered_of (by decide)⟩
      (.head ⟨.run ⟨rfl, .receive (j := 0) rfl rfl⟩ rfl rfl, ordered_of (by decide)⟩
      (.head ⟨.run ⟨rfl, .store (j := 0) rfl⟩ rfl rfl, ordered_of (by decide)⟩
      (.head ⟨.close (idle_of (by decide)), ordered_of (by decide)⟩
      (.head ⟨.run ⟨rfl, .swapFirst (k := 0) rfl rfl⟩ rfl rfl, ordered_of (by decide)⟩
      (.head ⟨.run ⟨rfl, .closeQueue (k := 0) rfl rfl⟩ rfl rfl, ordered_of (by decide)⟩
      (.head ⟨.run ⟨rfl, .drained (j := 0) rfl rfl rfl⟩ rfl rfl, ordered_of (by decide)⟩
      (.single ⟨.run ⟨rfl, .wait (k := 0) rfl (by decide)⟩ rfl rfl, ordered_of (by decide)⟩)))))))))))))), ?_, rfl⟩
    exact ⟨(idle_of (by decide)).writes, mem_singleton_self _⟩
  obtain ⟨s, hs, hfinished, hcalls⟩ := hrun
  obtain ⟨st, hst, hget⟩ := ttl_last_write_wins 2 1 (.inr (le_refl 1)) s hs hfinished
  refine ⟨s, st, hs, hfinished, hst, ?_⟩
  rw [hget [7] (by decide), lastPut, hcalls]
  decide

/-- The queue is full with the older value, so the newer one is put at once, and then the worker
puts the older one. -/
theorem older_put_overwrites_newer :
    ∃ s st, Reachable 1 1 s ∧ s.writer.Finished ∧ Store.after s.writer.puts = some st ∧
      s.lastPut [7] = some newer ∧ ttlGet st [7] 5 = some (some [1]) := by
  have hrun : ∃ s, Reachable 1 1 s ∧ s.writer.Finished ∧ s.calls = [older, newer] ∧
      s.writer.puts = [newer.job, older.job] := by
    refine ⟨_, .head (put_older (idle_of (by decide)))
      (.head (.run ⟨rfl, .loadOpen (i := 0) rfl rfl⟩ rfl rfl)
      (.head (.run ⟨rfl, .send (i := 0) rfl rfl Nat.zero_lt_one⟩ rfl rfl)
      (.head (put_newer (idle_of (by decide)))
      (.head (.run ⟨rfl, .loadOpen (i := 1) rfl rfl⟩ rfl rfl)
      (.head (.run ⟨rfl, .full (i := 1) rfl rfl (le_refl 1)⟩ rfl rfl)
      (.head (.run ⟨rfl, .put (i := 1) rfl⟩ rfl rfl)
      (.head (.run ⟨rfl, .receive (j := 0) rfl rfl⟩ rfl rfl)
      (.head (.run ⟨rfl, .store (j := 0) rfl⟩ rfl rfl)
      (.head (.close (idle_of (by decide)))
      (.head (.run ⟨rfl, .swapFirst (k := 0) rfl rfl⟩ rfl rfl)
      (.head (.run ⟨rfl, .closeQueue (k := 0) rfl rfl⟩ rfl rfl)
      (.head (.run ⟨rfl, .drained (j := 0) rfl rfl rfl⟩ rfl rfl)
      (.single (.run ⟨rfl, .wait (k := 0) rfl (by decide)⟩ rfl rfl)))))))))))))), ?_, rfl, rfl⟩
    exact ⟨(idle_of (by decide)).writes, mem_singleton_self _⟩
  obtain ⟨s, hs, hfinished, hcalls, hputs⟩ := hrun
  obtain ⟨st, hst, hget⟩ := @Store.after_spec s.writer.puts (by rw [hputs]; decide)
  refine ⟨s, st, hs, hfinished, hst, by rw [lastPut, hcalls]; rfl, ?_⟩
  have holder : st.get [7] = some (some older.frame) := by
    rw [hget [7] (by decide), hputs]
    rfl
  rw [ttlGet_frame older_inRange holder]
  decide

end Caller

end Spectra.Cache
