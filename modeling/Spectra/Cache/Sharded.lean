import Spectra.Cache.AsyncWriter
import Mathlib.Data.List.Induction

/-! The sharded store. -/
namespace Spectra.Cache
open List

def hexEncode (bs : Bytes) : List Char :=
  bs.flatMap fun b => [Nat.digitChar (b.toNat / 16), Nat.digitChar (b.toNat % 16)]

theorem digitChar_inj {m n : ℕ} (hm : m < 16) (hn : n < 16)
    (h : Nat.digitChar m = Nat.digitChar n) : m = n := by
  have hall : ∀ a b : Fin 16, Nat.digitChar a = Nat.digitChar b → a = b := by decide
  exact congrArg Fin.val (hall ⟨m, hm⟩ ⟨n, hn⟩ h)

private theorem hexEncode_injective : Function.Injective hexEncode := by
  intro as
  induction as with
  | nil =>
    intro bs h
    cases bs with
    | nil => rfl
    | cons b bs => exact nomatch h
  | cons a as ih =>
    intro bs h
    cases bs with
    | nil => exact nomatch h
    | cons b bs =>
      simp only [hexEncode, flatMap_cons, cons_append, cons.injEq] at h
      obtain ⟨hhigh, hlow, hrest⟩ := h
      have ha := a.toNat_lt
      have hb := b.toNat_lt
      have hhigh := digitChar_inj (by omega) (by omega) hhigh
      have hlow := digitChar_inj (by omega) (by omega) hlow
      have hab : a = b := UInt8.toNat.inj (by omega)
      rw [hab, ih hrest]

/-- The directory and the file of a key, below the root of the store. -/
abbrev Path := List Char × List Char

/-- `ShardedStore.path`; cutting the hex form of an empty key at 2 panics. -/
def path (key : Bytes) : Option Path :=
  if key = [] then none else some ((hexEncode key).take 2, (hexEncode key).drop 2)

theorem path_of_ne_nil {key : Bytes} (h : key ≠ []) :
    path key = some ((hexEncode key).take 2, (hexEncode key).drop 2) := if_neg h

private theorem path_injective {key key' : Bytes} {p : Path} (h : path key = some p)
    (h' : path key' = some p) : key = key' := by
  unfold path at h h'
  split at h
  · exact nomatch h
  · split at h'
    · exact nomatch h'
    · have heq := Option.some.inj (h.trans h'.symm)
      obtain ⟨hdir, hfile⟩ := Prod.mk.inj heq
      apply hexEncode_injective
      rw [← take_append_drop 2 (hexEncode key), hdir, hfile, take_append_drop]

/-- The files of a store. -/
abbrev Store := Path → Option Bytes

/-- `ShardedStore.Put` whose writes to the disk succeed; `none` is the panic. -/
def Store.put (st : Store) (key data : Bytes) : Option Store :=
  (path key).map fun p => Function.update st p (some data)

def Store.get (st : Store) (key : Bytes) : Option (Option Bytes) := (path key).map st

def Store.after (puts : List WriteJob) : Option Store :=
  puts.foldlM (fun st job => st.put job.key job.data) fun _ => none

theorem Store.get_put {st st' : Store} {key key' data : Bytes} (h : st.put key data = some st') :
    st'.get key' = if key' = key then some (some data) else st.get key' := by
  obtain ⟨p, hp, rfl⟩ := Option.map_eq_some_iff.mp h
  by_cases hkey : key' = key
  · simp [Store.get, hkey, hp]
  · rw [if_neg hkey]
    unfold Store.get
    cases hp' : path key' with
    | none => rfl
    | some p' =>
      have hne : p' ≠ p := fun heq => hkey (path_injective hp' (heq ▸ hp))
      simp [Function.update_of_ne hne]

/-- Every put succeeds where no key is empty, and then a key reads as its last put. -/
theorem Store.after_spec {puts : List WriteJob} (h : ∀ job ∈ puts, job.key ≠ []) :
    ∃ st, Store.after puts = some st ∧ ∀ key, key ≠ [] →
      st.get key = some (((puts.filter (·.key = key)).getLast?).map WriteJob.data) := by
  induction puts using reverseRecOn with
  | nil => exact ⟨fun _ => none, rfl, fun key hkey => by simp [Store.get, path_of_ne_nil hkey]⟩
  | append_singleton puts job ih =>
    obtain ⟨st, hst, hget⟩ := ih fun job' hmem => h job' (mem_append_left _ hmem)
    have hkey := h job (mem_append_right _ (.head _))
    obtain ⟨st', hst'⟩ : ∃ st', st.put job.key job.data = some st' := by
      rw [Store.put, path_of_ne_nil hkey]
      exact ⟨_, rfl⟩
    refine ⟨st', ?_, fun key hne => ?_⟩
    · unfold Store.after at hst ⊢
      rw [foldlM_append, hst]
      simpa using hst'
    · rw [Store.get_put hst']
      by_cases heq : key = job.key
      · simp [heq]
      · have hne' : ¬ job.key = key := fun h => heq h.symm
        simp [heq, hne', hget key hne]

end Spectra.Cache
