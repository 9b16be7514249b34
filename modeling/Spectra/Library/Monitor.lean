import Mathlib.Data.List.Nodup

/-! A mutex with one condition variable. -/
namespace Spectra.Library
open List

structure Monitor (T : Type*) where
  owner : Option T
  waiting : List T
  woken : List T

namespace Monitor

variable {T : Type*}

def new : Monitor T := ⟨none, [], []⟩

/-- Only a free mutex is taken. -/
def lock (m : Monitor T) (t : T) : Monitor T := { m with owner := some t }

def unlock (m : Monitor T) : Monitor T := { m with owner := none }

/-- The first half of a wait: the caller joins the waiters and releases the mutex in one step. -/
def wait (m : Monitor T) (t : T) : Monitor T :=
  { m with owner := none, waiting := m.waiting ++ [t] }

/-- The second half of a wait, for a woken goroutine and a free mutex. -/
def rejoin [DecidableEq T] (m : Monitor T) (t : T) : Monitor T :=
  { m with owner := some t, woken := m.woken.filter (· ≠ t) }

/-- Wakes one waiter, if there is any. -/
def signal (m : Monitor T) : Monitor T :=
  { m with waiting := m.waiting.drop 1, woken := m.woken ++ m.waiting.take 1 }

def broadcast (m : Monitor T) : Monitor T :=
  { m with waiting := [], woken := m.woken ++ m.waiting }

/-- `t` waits and nobody has woken it. -/
def Blocked (m : Monitor T) (t : T) : Prop := t ∈ m.waiting ∧ t ∉ m.woken

/-- Those inside a wait, the next to run first. -/
def sleepers (m : Monitor T) : List T := m.woken ++ m.waiting

section
variable (m : Monitor T) (t : T)

@[simp] theorem owner_lock : (m.lock t).owner = some t := rfl

@[simp] theorem owner_unlock : m.unlock.owner = none := rfl

@[simp] theorem owner_wait : (m.wait t).owner = none := rfl

@[simp] theorem owner_signal : m.signal.owner = m.owner := rfl

@[simp] theorem sleepers_lock : (m.lock t).sleepers = m.sleepers := rfl

@[simp] theorem sleepers_unlock : m.unlock.sleepers = m.sleepers := rfl

@[simp] theorem sleepers_wait :
    (m.wait t).sleepers = m.sleepers ++ [t] := (append_assoc ..).symm

@[simp] theorem sleepers_signal : m.signal.sleepers = m.sleepers := by
  simp only [sleepers, signal, append_assoc, take_append_drop]

@[simp] theorem sleepers_broadcast : m.broadcast.sleepers = m.sleepers :=
  append_nil _

end

variable {m : Monitor T} {t : T}

theorem nodup_sleepers_wait (h : m.sleepers.Nodup)
    (hawake : t ∉ m.sleepers) : (m.wait t).sleepers.Nodup := by
  rw [sleepers_wait, nodup_append]
  refine ⟨h, nodup_singleton t, ?_⟩
  intro a ha b hb hab
  rw [hab, mem_singleton.mp hb] at ha
  exact hawake ha

theorem not_mem_waiting_of_woken (h : m.sleepers.Nodup)
    (hwoken : t ∈ m.woken) : t ∉ m.waiting := fun hwaiting =>
  (nodup_append.mp h).2.2 t hwoken t hwaiting rfl

variable [DecidableEq T]

@[simp] theorem owner_rejoin (m : Monitor T) (t : T) : (m.rejoin t).owner = some t := rfl

theorem sleepers_rejoin_sublist (m : Monitor T) (t : T) : (m.rejoin t).sleepers.Sublist m.sleepers :=
  filter_sublist.append (List.Sublist.refl _)

theorem not_mem_sleepers_rejoin (h : m.sleepers.Nodup)
    (hwoken : t ∈ m.woken) : t ∉ (m.rejoin t).sleepers := by
  intro hmem
  cases mem_append.mp hmem with
  | inl hmem => simpa using (mem_filter.mp hmem).2
  | inr hmem => exact not_mem_waiting_of_woken h hwoken hmem

end Monitor

end Spectra.Library
