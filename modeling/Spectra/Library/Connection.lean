import Mathlib.Data.Stream.Defs

/-! A database connection on which any statement may fail. -/
namespace Spectra.Library

/-- What a statement that reports an error has done. -/
inductive Failure
  | untouched
  | applied
  | aborted
  | closed

inductive Answer
  | ok
  | busy (failure : Failure)
  | error (failure : Failure)

inductive Result
  | ok
  | busy
  | error
  deriving DecidableEq

/-- `attempts` counts the `COMMIT` statements and `commits` those that succeeded. -/
structure Conn (S : Type) where
  store : S
  tx : Option S
  busyTimeout : ℕ
  discarded : Bool
  answers : Stream' Answer
  ctx : Stream' Bool
  attempts : ℕ
  commits : ℕ

namespace Conn
variable {S : Type}

/-- A connection that is closed rolls back. -/
def discard (c : Conn S) : Conn S := { c with discarded := true, tx := none }

def fail (c : Conn S) (effect : Conn S → Conn S) : Failure → Conn S
  | .untouched => c
  | .applied => effect c
  | .aborted => { c with tx := none }
  | .closed => c.discard

/-- A statement with its effect; a closed connection runs none. -/
def exec (c : Conn S) (effect : Conn S → Conn S) : Result × Conn S :=
  if c.discarded then (.error, c)
  else
    let c' := { c with answers := c.answers.tail }
    match c.answers.head with
    | .ok => (.ok, effect c')
    | .busy failure => (.busy, c'.fail effect failure)
    | .error failure => (.error, c'.fail effect failure)

/-- `BEGIN IMMEDIATE`. -/
def begin (c : Conn S) : Result × Conn S := c.exec fun c => { c with tx := some c.store }

/-- A write goes to the open transaction, and is committed at once when there is none. -/
def write (c : Conn S) (f : S → S) : Result × Conn S :=
  c.exec fun c => match c.tx with
    | some s => { c with tx := some (f s) }
    | none => { c with store := f c.store }

def setTimeout (c : Conn S) (n : ℕ) : Result × Conn S :=
  c.exec fun c => { c with busyTimeout := n }

/-- `COMMIT`. One that reports an error has not committed, and one outside of a transaction is
an error. -/
def commit (c : Conn S) : Result × Conn S :=
  let c := { c with attempts := c.attempts + 1 }
  match c.tx with
  | none => (.error, c)
  | some s =>
    if c.discarded then (.error, c)
    else
      let c' := { c with answers := c.answers.tail }
      match c.answers.head with
      | .ok => (.ok, { c' with store := s, tx := none, commits := c.commits + 1 })
      | .busy failure => (.busy, c'.fail id failure)
      | .error failure => (.error, c'.fail id failure)

def rollback (c : Conn S) : Result × Conn S :=
  if c.tx.isNone then (.error, c) else c.exec fun c => { c with tx := none }

/-- `ctx.Err()` is not nil. -/
def ctxErr (c : Conn S) : Bool × Conn S := (c.ctx.head, { c with ctx := c.ctx.tail })

variable {c : Conn S}

theorem exec_ok {effect : Conn S → Conn S} (h : (c.exec effect).1 = .ok) :
    c.discarded = false ∧ (c.exec effect).2 = effect { c with answers := c.answers.tail } := by
  unfold exec at h ⊢
  cases hd : c.discarded with
  | true => simp [hd] at h
  | false =>
    cases ha : c.answers.head with
    | ok => exact ⟨rfl, by simp⟩
    | busy failure | error failure => simp [hd, ha] at h

theorem exec_preserves {effect : Conn S → Conn S} (P : Conn S → Prop) (hc : ∀ answers, P { c with answers := answers })
    (heffect : ∀ answers, P (effect { c with answers := answers }))
    (haborted : ∀ answers, P { c with answers := answers, tx := none })
    (hclosed : ∀ answers, P { c with answers := answers, discarded := true, tx := none }) :
    P (c.exec effect).2 := by
  have hfail (failure : Failure) :
      P (({ c with answers := c.answers.tail } : Conn S).fail effect failure) := by
    cases failure with
    | untouched => exact hc _
    | applied => exact heffect _
    | aborted => exact haborted _
    | closed => exact hclosed _
  rw [exec]
  split
  · exact hc c.answers
  · split
    · exact heffect _
    · exact hfail _
    · exact hfail _

/-- Nothing is committed in between. -/
structure Keeps (c c' : Conn S) : Prop where
  store : c'.store = c.store
  attempts : c'.attempts = c.attempts
  commits : c'.commits = c.commits

theorem Keeps.trans {a b : Conn S} (h : Keeps a b) (h' : Keeps b c) : Keeps a c :=
  ⟨h'.store.trans h.store, h'.attempts.trans h.attempts, h'.commits.trans h.commits⟩

section
variable {effect : Conn S → Conn S} (c : Conn S)

theorem keeps_exec (h : ∀ c, Keeps c (effect c)) : Keeps c (c.exec effect).2 := by
  refine exec_preserves (Keeps c) (fun _ => ⟨rfl, rfl, rfl⟩) (fun answers => ?_)
    (fun _ => ⟨rfl, rfl, rfl⟩) (fun _ => ⟨rfl, rfl, rfl⟩)
  obtain ⟨hstore, hattempts, hcommits⟩ := h { c with answers := answers }
  exact ⟨hstore, hattempts, hcommits⟩

theorem busyTimeout_exec (h : ∀ c, (effect c).busyTimeout = c.busyTimeout) :
    (c.exec effect).2.busyTimeout = c.busyTimeout :=
  exec_preserves (fun c' => c'.busyTimeout = c.busyTimeout) (fun _ => rfl) (fun _ => h _)
    (fun _ => rfl) (fun _ => rfl)

theorem tx_exec (h : ∀ c, (effect c).tx = c.tx) : (c.exec effect).2.tx = c.tx ∨ (c.exec effect).2.tx = none :=
  exec_preserves (fun c' => c'.tx = c.tx ∨ c'.tx = none) (fun _ => .inl rfl)
    (fun _ => .inl (h _)) (fun _ => .inr rfl) (fun _ => .inr rfl)

end

section
variable (c : Conn S)

theorem busyTimeout_begin : c.begin.2.busyTimeout = c.busyTimeout :=
  busyTimeout_exec c fun _ => rfl

theorem tx_begin (h : c.begin.1 = .ok) : c.begin.2.tx = some c.store := by
  rw [begin, (exec_ok h).2]

theorem keeps_setTimeout (n : ℕ) : Keeps c (c.setTimeout n).2 :=
  keeps_exec c fun _ => ⟨rfl, rfl, rfl⟩

theorem tx_setTimeout (n : ℕ) : (c.setTimeout n).2.tx = c.tx ∨ (c.setTimeout n).2.tx = none :=
  tx_exec c fun _ => rfl

theorem busyTimeout_setTimeout {n : ℕ} (h : (c.setTimeout n).1 = .ok) : (c.setTimeout n).2.busyTimeout = n := by
  rw [setTimeout, (exec_ok h).2]

theorem keeps_rollback : Keeps c c.rollback.2 := by
  rw [rollback]
  split
  · exact ⟨rfl, rfl, rfl⟩
  · exact keeps_exec c fun _ => ⟨rfl, rfl, rfl⟩

theorem busyTimeout_rollback : c.rollback.2.busyTimeout = c.busyTimeout := by
  rw [rollback]
  split
  · rfl
  · exact busyTimeout_exec c fun _ => rfl

theorem rollback_ok (h : c.rollback.1 = .ok) : c.discarded = false ∧ c.rollback.2.tx = none := by
  unfold rollback at h ⊢
  split at h
  · cases h
  · rename_i htx
    rw [if_neg htx, (exec_ok h).2]
    exact ⟨(exec_ok h).1, rfl⟩

end

theorem keeps_write {s : S} (htx : c.tx = some s) (f : S → S) : Keeps c (c.write f).2 := by
  refine exec_preserves (Keeps c) (fun _ => ⟨rfl, rfl, rfl⟩) (fun answers => ?_)
    (fun _ => ⟨rfl, rfl, rfl⟩) (fun _ => ⟨rfl, rfl, rfl⟩)
  simp only [htx]
  exact ⟨rfl, rfl, rfl⟩

theorem busyTimeout_write (c : Conn S) (f : S → S) : (c.write f).2.busyTimeout = c.busyTimeout := by
  refine busyTimeout_exec c fun c => ?_
  split <;> rfl

theorem tx_write {s : S} (htx : c.tx = some s) {f : S → S} (h : (c.write f).1 = .ok) :
    (c.write f).2.tx = some (f s) := by
  rw [write, (exec_ok h).2]
  simp [htx]

theorem commit_ok (h : c.commit.1 = .ok) : c.tx = some c.commit.2.store ∧
    c.commit.2.tx = none ∧ c.commit.2.commits = c.commits + 1 := by
  unfold commit at h ⊢
  dsimp only at h
  split at h
  · cases h
  · rename_i s htx
    split at h
    · cases h
    · rename_i hd
      rw [htx]
      simp only [hd]
      split at h
      · simp
      · cases h
      · cases h

/-- A `COMMIT` that fails commits nothing. -/
theorem commit_failed (h : c.commit.1 ≠ .ok) :
    c.commit.2.store = c.store ∧ c.commit.2.commits = c.commits ∧ (c.commit.2.tx = c.tx ∨ c.commit.2.tx = none) := by
  have hfail (failure : Failure) : ∀ answers,
      let c' := ({ c with attempts := c.attempts + 1, answers := answers } : Conn S).fail id failure
      c'.store = c.store ∧ c'.commits = c.commits ∧ (c'.tx = c.tx ∨ c'.tx = none) := by
    intro answers
    cases failure with
    | untouched | applied => exact ⟨rfl, rfl, .inl rfl⟩
    | aborted | closed => exact ⟨rfl, rfl, .inr rfl⟩
  unfold commit at h ⊢
  dsimp only
  split
  · exact ⟨rfl, rfl, .inl rfl⟩
  · split
    · exact ⟨rfl, rfl, .inl rfl⟩
    · rename_i s htx hd
      simp only [htx, hd] at h
      split
      · rename_i ha
        simp [ha] at h
      · exact hfail _ _
      · exact hfail _ _

theorem attempts_commit (c : Conn S) : c.commit.2.attempts = c.attempts + 1 ∧
    c.commit.2.busyTimeout = c.busyTimeout := by
  have hfail (failure : Failure) (answers : Stream' Answer) :
      let c' := ({ c with attempts := c.attempts + 1, answers := answers } : Conn S).fail id failure
      c'.attempts = c.attempts + 1 ∧ c'.busyTimeout = c.busyTimeout := by
    cases failure <;> exact ⟨rfl, rfl⟩
  rw [commit]
  split
  · exact ⟨rfl, rfl⟩
  · split
    · exact ⟨rfl, rfl⟩
    · split
      · exact ⟨rfl, rfl⟩
      · exact hfail _ _
      · exact hfail _ _

end Conn
end Spectra.Library
