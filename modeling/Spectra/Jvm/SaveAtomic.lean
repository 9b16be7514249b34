import Spectra.Jvm.SaveTransaction

/-! `SaveJVMSamples` commits the whole batch or nothing. -/
namespace Spectra.Jvm
open Library Conn

variable {Text : Type} {codec : Codec Text} {c : Conn (HistoryDB codec)} {s : HistoryDB codec}

/-- What at most `n` attempts to commit `s` may have done. -/
structure Tried (n : ℕ) (s : HistoryDB codec) (c : Conn (HistoryDB codec))
    (r : Option CommitError × Conn (HistoryDB codec)) : Prop where
  attempts : r.2.attempts ≤ c.attempts + n
  done : r.1 = none → r.2.store = s ∧ r.2.tx = none ∧ r.2.commits = c.commits + 1
  failed : r.1 ≠ none → r.2.store = c.store ∧ r.2.commits = c.commits ∧ ∀ s' ∈ r.2.tx, s' = s

/-- The open transaction, if there is one, is `s`. -/
def Holds (s : HistoryDB codec) (c : Conn (HistoryDB codec)) : Prop := ∀ s' ∈ c.tx, s' = s

theorem holds_of_tx {c' : Conn (HistoryDB codec)} (h : Holds s c) (htx : c'.tx = c.tx ∨ c'.tx = none) : Holds s c' := by
  intro s' hs'
  rcases htx with heq | hnone
  · exact h s' (heq ▸ hs')
  · rw [hnone] at hs'
    cases hs'

theorem tried_commitAttempt (h : Holds s c) : Tried 1 s c (commitAttempt c) := by
  unfold commitAttempt
  dsimp only
  split
  · exact ⟨Nat.le_add_right _ _, (fun h => nomatch h), fun _ => ⟨rfl, rfl, h⟩⟩
  · have hattempts := c.ctxErr.2.attempts_commit.1
    have hok : c.ctxErr.2.commit.1 = .ok → _ := commit_ok
    have hfailed : c.ctxErr.2.commit.1 ≠ .ok → _ := commit_failed
    generalize c.ctxErr.2.commit = r at *
    obtain ⟨result, c'⟩ := r
    cases result with
    | ok =>
      obtain ⟨htx, hnone, hcommits⟩ := hok rfl
      exact ⟨hattempts.le, fun _ => ⟨h _ htx, hnone, hcommits⟩, fun h => absurd rfl h⟩
    | busy | error =>
      obtain ⟨hstore, hcommits, htx⟩ := hfailed (by simp)
      exact ⟨hattempts.le, (fun h => nomatch h), fun _ => ⟨hstore, hcommits, holds_of_tx h htx⟩⟩

theorem busyTimeout_commitAttempt (c : Conn (HistoryDB codec)) : (commitAttempt c).2.busyTimeout = c.busyTimeout := by
  have hcommit := c.ctxErr.2.attempts_commit.2
  unfold commitAttempt
  dsimp only
  split
  · rfl
  · generalize c.ctxErr.2.commit = r at *
    obtain ⟨result, c'⟩ := r
    cases result <;> exact hcommit

variable {r : Option CommitError × Conn (HistoryDB codec)}

theorem Tried.mono {n m : ℕ} {c : Conn (HistoryDB codec)} (h : Tried n s c r) (hle : n ≤ m) : Tried m s c r :=
  ⟨h.attempts.trans (by omega), h.done, h.failed⟩

theorem Tried.of_keeps {n m : ℕ} {b c : Conn (HistoryDB codec)} (h : Tried n s c r)
    (hstore : c.store = b.store) (hcommits : c.commits = b.commits)
    (hattempts : c.attempts ≤ b.attempts + m) : Tried (m + n) s b r where
  attempts := h.attempts.trans (by omega)
  done := by
    rw [← hcommits]
    exact h.done
  failed := by
    rw [← hcommits, ← hstore]
    exact h.failed

private theorem tried_commitLoop (n : ℕ) (c : Conn (HistoryDB codec)) (h : Holds s c) :
    Tried (n + 1) s c (commitLoop n c) ∧ (commitLoop n c).2.busyTimeout = c.busyTimeout := by
  have hattempted {c : Conn (HistoryDB codec)} {r} (h : Holds s c) (heq : commitAttempt c = r) :
      Tried 1 s c r ∧ r.2.busyTimeout = c.busyTimeout :=
    heq ▸ ⟨tried_commitAttempt h, busyTimeout_commitAttempt c⟩
  fun_induction commitLoop n c with
  | case1 n c c' hattempt checked hdone =>
    obtain ⟨htry, hsame⟩ := hattempted h hattempt
    exact ⟨⟨htry.attempts.trans (by omega), (fun h => nomatch h), fun _ => htry.failed (by simp)⟩, hsame⟩
  | case2 c c' hattempt checked hdone =>
    obtain ⟨htry, hsame⟩ := hattempted h hattempt
    exact ⟨⟨htry.attempts, (fun h => nomatch h), htry.failed⟩, hsame⟩
  | case3 c c' hattempt checked hdone n ih =>
    obtain ⟨htry, hsame⟩ := hattempted h hattempt
    obtain ⟨hstore, hcommits, htx⟩ := htry.failed (by simp)
    obtain ⟨hloop, hloopTimeout⟩ := ih htx
    have hall := hloop.of_keeps (b := c) hstore hcommits htry.attempts
    exact ⟨hall.mono (by omega), hloopTimeout.trans hsame⟩
  | case4 n c result c' hresult hattempt =>
    obtain ⟨htry, hsame⟩ := hattempted h hattempt
    exact ⟨htry.mono (by omega), hsame⟩

theorem restoreTimeout_spec (prev : ℕ) (c : Conn (HistoryDB codec)) :
    Keeps c (restoreTimeout prev c) ∧
      ((restoreTimeout prev c).tx = c.tx ∨ (restoreTimeout prev c).tx = none) ∧
      ((restoreTimeout prev c).discarded = true ∨ (restoreTimeout prev c).busyTimeout = prev) := by
  have hset := c.keeps_setTimeout prev
  rw [restoreTimeout]
  split
  · rename_i hok
    exact ⟨hset, c.tx_setTimeout prev, .inr (c.busyTimeout_setTimeout hok)⟩
  · exact ⟨hset.trans ⟨rfl, rfl, rfl⟩, .inr rfl, .inl rfl⟩

theorem Tried.restore {n : ℕ} (h : Tried n s c r) (prev : ℕ) : Tried n s c (r.1, restoreTimeout prev r.2) := by
  obtain ⟨hkeeps, htx, _⟩ := restoreTimeout_spec prev r.2
  refine ⟨hkeeps.attempts.le.trans h.attempts, fun hnone => ?_, fun hsome => ?_⟩
  · obtain ⟨hstore, hnone, hcommits⟩ := h.done hnone
    exact ⟨hkeeps.store.trans hstore, htx.elim (·.trans hnone) id, hkeeps.commits.trans hcommits⟩
  · obtain ⟨hstore, hcommits, hholds⟩ := h.failed hsome
    exact ⟨hkeeps.store.trans hstore, hkeeps.commits.trans hcommits, holds_of_tx hholds htx⟩

/-- The commit step: at most one attempt for each slice of the timeout and one more, and a
connection that keeps its timeout or is discarded. -/
theorem tried_commitCancellable (h : Holds s c) :
    Tried (c.busyTimeout / commitPollSlice + 1) s c (commitCancellable c) ∧
      ((commitCancellable c).2.discarded = true ∨ (commitCancellable c).2.busyTimeout = c.busyTimeout) := by
  have hread : Keeps c (c.exec id).2 := keeps_exec c fun _ => ⟨rfl, rfl, rfl⟩
  have hreadTimeout : (c.exec id).2.busyTimeout = c.busyTimeout :=
    busyTimeout_exec c fun _ => rfl
  have hreadTx : Holds s (c.exec id).2 := holds_of_tx h (tx_exec c fun _ => rfl)
  rw [commitCancellable]
  split
  · exact ⟨⟨hread.attempts.le.trans (Nat.le_add_right _ _), (fun h => nomatch h),
      fun _ => ⟨hread.store, hread.commits, hreadTx⟩⟩, .inr hreadTimeout⟩
  · split
    · have htry := (tried_commitAttempt hreadTx).of_keeps (b := c) (m := 0) hread.store
        hread.commits hread.attempts.le
      exact ⟨htry.mono (by simp), .inr ((busyTimeout_commitAttempt _).trans hreadTimeout)⟩
    · refine ⟨.restore ?_ _, ?_⟩
      · have hslice := (c.exec id).2.keeps_setTimeout commitPollSlice
        have hsliceTx := holds_of_tx hreadTx ((c.exec id).2.tx_setTimeout commitPollSlice)
        have hkeeps := hread.trans hslice
        split
        · exact ⟨hkeeps.attempts.le.trans (Nat.le_add_right _ _), (fun h => nomatch h),
            fun _ => ⟨hkeeps.store, hkeeps.commits, hsliceTx⟩⟩
        · have htry := (tried_commitLoop (c.busyTimeout / commitPollSlice) _ hsliceTx).1.of_keeps
            (b := c) (m := 0) hkeeps.store hkeeps.commits hkeeps.attempts.le
          exact htry.mono (by simp)
      · exact (restoreTimeout_spec _ _).2.2

/-- The row statements stay inside the transaction; without an error all of them are in it. -/
theorem saveRows_spec (samples : List JVMSample) {c : Conn (HistoryDB codec)}
    {s : HistoryDB codec} (htx : c.tx = some s) :
    Keeps c (saveRows samples c).2 ∧ (saveRows samples c).2.busyTimeout = c.busyTimeout ∧
      ((saveRows samples c).1 = none → (saveRows samples c).2.tx = some (s.saveJVMSamples samples)) := by
  induction samples generalizing c s with
  | nil => exact ⟨⟨rfl, rfl, rfl⟩, rfl, fun _ => htx⟩
  | cons sm samples ih =>
    have hinsert : ∀ inserted : Result × Conn (HistoryDB codec),
        inserted = (if sm.nmtOnly then (.ok, c) else c.write (.insertGC sm)) →
          Keeps c inserted.2 ∧ inserted.2.busyTimeout = c.busyTimeout ∧
            (inserted.1 = .ok →
              inserted.2.tx = some (if sm.nmtOnly then s else s.insertGC sm)) := by
      rintro _ rfl
      split
      · exact ⟨⟨rfl, rfl, rfl⟩, rfl, fun _ => htx⟩
      · exact ⟨keeps_write htx _, busyTimeout_write _ _, fun h => tx_write htx h⟩
    rw [saveRows]
    dsimp only
    generalize hins : (if sm.nmtOnly then (.ok, c) else c.write (.insertGC sm)) =
      inserted
    obtain ⟨hkeeps, htimeout, hok⟩ := hinsert inserted hins.symm
    split
    · rename_i hinserted
      have htx' := hok hinserted
      have hsave := keeps_write htx' (.saveNMTSample sm)
      have hsaveTimeout := busyTimeout_write inserted.2 (.saveNMTSample sm)
      split
      · rename_i hsaved
        obtain ⟨hrest, hrestTimeout, hrestOk⟩ := ih (tx_write htx' hsaved)
        exact ⟨(hkeeps.trans hsave).trans hrest, hrestTimeout.trans (hsaveTimeout.trans htimeout), hrestOk⟩
      · exact ⟨(hkeeps.trans hsave).trans ⟨rfl, rfl, rfl⟩, hsaveTimeout.trans htimeout, (fun h => nomatch h)⟩
    · exact ⟨hkeeps.trans ⟨rfl, rfl, rfl⟩, htimeout, (fun h => nomatch h)⟩

/-- What a call on a connection with an open transaction `s` leaves behind. -/
structure Saved (samples : List JVMSample) (s : HistoryDB codec) (c : Conn (HistoryDB codec))
    (r : Option SaveError × Conn (HistoryDB codec)) : Prop where
  attempts : r.2.attempts ≤ c.attempts + (c.busyTimeout / commitPollSlice + 1)
  timeout : r.2.discarded = true ∨ r.2.busyTimeout = c.busyTimeout
  done : r.1 = none → r.2.store = s.saveJVMSamples samples ∧ r.2.tx = none ∧
    r.2.commits = c.commits + 1
  failed : r.1 ≠ none → r.2.store = c.store ∧ r.2.commits = c.commits

private theorem saved_saveBody (samples : List JVMSample) (htx : c.tx = some s) :
    Saved samples s c (saveBody samples c) := by
  have hprepare : Keeps c (c.exec id).2 := keeps_exec c fun _ => ⟨rfl, rfl, rfl⟩
  have hprepareTimeout : (c.exec id).2.busyTimeout = c.busyTimeout :=
    busyTimeout_exec c fun _ => rfl
  have hrows : Keeps c (saveJVMSampleRows samples c).2 ∧
      (saveJVMSampleRows samples c).2.busyTimeout = c.busyTimeout ∧
        ((saveJVMSampleRows samples c).1 = none →
          (saveJVMSampleRows samples c).2.tx = some (s.saveJVMSamples samples)) := by
    unfold saveJVMSampleRows
    dsimp only
    split
    · rename_i hok
      have htx' : (c.exec id).2.tx = some s := by
        rw [(exec_ok hok).2]
        exact htx
      obtain ⟨hkeeps, htimeout, hdone⟩ := saveRows_spec samples htx'
      exact ⟨hprepare.trans hkeeps, htimeout.trans hprepareTimeout, hdone⟩
    · exact ⟨hprepare.trans ⟨rfl, rfl, rfl⟩, hprepareTimeout, (fun h => nomatch h)⟩
  rw [saveBody]
  generalize saveJVMSampleRows samples c = rows at hrows
  obtain ⟨err, c'⟩ := rows
  obtain ⟨hkeeps, htimeout, hdone⟩ := hrows
  cases err with
  | some err =>
    exact ⟨hkeeps.attempts.le.trans (Nat.le_add_right _ _), .inr htimeout, (fun h => nomatch h),
      fun _ => ⟨hkeeps.store, hkeeps.commits⟩⟩
  | none =>
    have hholds : Holds (s.saveJVMSamples samples) c' := by
      intro s' hs'
      rw [hdone rfl] at hs'
      exact (Option.some.inj hs').symm
    obtain ⟨htry, hrestored⟩ := tried_commitCancellable hholds
    have hall := htry.of_keeps (b := c) (m := 0) hkeeps.store hkeeps.commits hkeeps.attempts.le
    rw [htimeout] at hall hrestored
    dsimp only
    generalize commitCancellable c' = committed at hall hrestored
    obtain ⟨err, c''⟩ := committed
    have hattempts : c''.attempts ≤ c.attempts + (c.busyTimeout / commitPollSlice + 1) := by
      simpa using hall.attempts
    cases err with
    | none => exact ⟨hattempts, hrestored, fun _ => hall.done rfl, fun h => absurd rfl h⟩
    | some err =>
      obtain ⟨hstore, hcommits, _⟩ := hall.failed (by simp)
      exact ⟨hattempts, hrestored, (fun h => nomatch h), fun _ => ⟨hstore, hcommits⟩⟩

private theorem rollbackOrDiscard_spec (c : Conn (HistoryDB codec)) :
    Keeps c (rollbackOrDiscard c) ∧ (rollbackOrDiscard c).busyTimeout = c.busyTimeout ∧
      (rollbackOrDiscard c).tx = none ∧ (c.discarded = true → (rollbackOrDiscard c).discarded = true) := by
  have hkeeps := c.keeps_rollback
  have htimeout := c.busyTimeout_rollback
  rw [rollbackOrDiscard]
  split
  · rename_i hok
    obtain ⟨hopen, htx⟩ := c.rollback_ok hok
    exact ⟨hkeeps, htimeout, htx, fun hd => absurd hd (by simp [hopen])⟩
  · exact ⟨hkeeps.trans ⟨rfl, rfl, rfl⟩, htimeout, rfl, fun _ => rfl⟩

/-- A connection as the pool hands it out. -/
structure Idle (c : Conn (HistoryDB codec)) : Prop where
  tx : c.tx = none
  discarded : c.discarded = false
  attempts : c.attempts = 0
  commits : c.commits = 0

/-- All of the batch is stored or none of it: the call returns nil iff a `COMMIT` succeeded. The
connection is outside of a transaction and has its timeout, or is discarded. -/
structure Atomic (samples : List JVMSample) (c : Conn (HistoryDB codec))
    (r : Option SaveError × Conn (HistoryDB codec)) : Prop where
  returns : r.1 = none ↔ r.2.commits = 1
  stored : r.1 = none → r.2.store = c.store.saveJVMSamples samples
  untouched : r.1 ≠ none → r.2.store = c.store ∧ r.2.commits = 0
  clean : r.2.discarded = true ∨ r.2.tx = none ∧ r.2.busyTimeout = c.busyTimeout
  attempts : r.2.attempts ≤ c.busyTimeout / commitPollSlice + 1

theorem atomic_of_keeps {samples : List JVMSample} (hidle : Idle c) {err : SaveError}
    {c' : Conn (HistoryDB codec)} (hkeeps : Keeps c c')
    (hclean : c'.discarded = true ∨ c'.tx = none ∧ c'.busyTimeout = c.busyTimeout) :
    Atomic samples c (some err, c') := by
  have hcommits : c'.commits = 0 := hkeeps.commits.trans hidle.commits
  refine ⟨⟨(fun h => nomatch h), fun h => ?_⟩, (fun h => nomatch h), fun _ => ⟨hkeeps.store, hcommits⟩, hclean, ?_⟩
  · exact absurd (hcommits.symm.trans h) (by decide)
  · exact (hkeeps.attempts.trans hidle.attempts).le.trans (Nat.zero_le _)

/-- However its statements end and whenever the context is done, a call for a batch is atomic
and leaves a clean connection, after one `COMMIT` for each slice of the timeout and one more. -/
theorem save_jvm_samples_atomic (acquired : Bool) (samples : List JVMSample)
    (c : Conn (HistoryDB codec)) (hidle : Idle c) (hne : samples ≠ []) :
    Atomic samples c (saveJVMSamples acquired samples c) := by
  rw [saveJVMSamples, if_neg hne]
  cases acquired with
  | false => exact atomic_of_keeps hidle ⟨rfl, rfl, rfl⟩ (.inr ⟨hidle.tx, rfl⟩)
  | true =>
    have hbegin : c.Keeps c.begin.2 := c.keeps_exec fun _ => ⟨rfl, rfl, rfl⟩
    rw [if_pos rfl]
    dsimp only
    split
    · rename_i hok
      have hsaved := saved_saveBody samples (c.tx_begin hok)
      have hattempts := hsaved.attempts
      have htimeout := hsaved.timeout
      rw [c.busyTimeout_begin, hbegin.attempts, hidle.attempts, Nat.zero_add] at hattempts
      rw [c.busyTimeout_begin] at htimeout
      have hdone := hsaved.done
      have hfailed := hsaved.failed
      rw [hbegin.commits, hidle.commits] at hdone hfailed
      rw [hbegin.store] at hfailed
      generalize saveBody samples c.begin.2 = body at hdone hfailed hattempts htimeout
      obtain ⟨err, c'⟩ := body
      cases err with
      | none =>
        obtain ⟨hstore, htx, hcommits⟩ := hdone rfl
        exact ⟨iff_of_true rfl hcommits, fun _ => hstore, fun h => absurd rfl h, htimeout.imp id (⟨htx, ·⟩), hattempts⟩
      | some err =>
        obtain ⟨hstore, hcommits⟩ := hfailed (by simp)
        obtain ⟨hkeeps, hsame, htx, hdiscarded⟩ := rollbackOrDiscard_spec c'
        have hzero := hkeeps.commits.trans hcommits
        refine ⟨⟨(fun h => nomatch h), fun h => ?_⟩, (fun h => nomatch h),
          fun _ => ⟨hkeeps.store.trans hstore, hzero⟩,
          htimeout.imp hdiscarded fun h => ⟨htx, hsame.trans h⟩, hkeeps.attempts.le.trans hattempts⟩
        exact absurd (hzero.symm.trans h) (by decide)
    · exact atomic_of_keeps hidle (hbegin.trans ⟨rfl, rfl, rfl⟩) (.inl rfl)

/-- A connection with a timeout of 100 ms on which every `COMMIT` is busy. -/
def busyConn : Conn (HistoryDB Codec.plain) :=
  ⟨.new, none, 100, false,
    Stream'.cons .ok (Stream'.cons .ok (Stream'.cons .ok (Stream'.cons .ok (Stream'.cons .ok
      (Stream'.cons .ok (Stream'.const (.busy .untouched))))))), Stream'.const false, 0, 0⟩

theorem save_jvm_samples_atomic_busy :
    (saveJVMSamples true [⟨7, 0, 0, 0, 0, 0, 0, ∅, false⟩] busyConn).1.isSome ∧
    (saveJVMSamples true [⟨7, 0, 0, 0, 0, 0, 0, ∅, false⟩] busyConn).2.attempts = 3 ∧
    Atomic [⟨7, 0, 0, 0, 0, 0, 0, ∅, false⟩] busyConn
      (saveJVMSamples true [⟨7, 0, 0, 0, 0, 0, 0, ∅, false⟩] busyConn) :=
  ⟨by decide +kernel, by decide +kernel, save_jvm_samples_atomic true _ busyConn ⟨rfl, rfl, rfl, rfl⟩ (by simp)⟩

end Spectra.Jvm
