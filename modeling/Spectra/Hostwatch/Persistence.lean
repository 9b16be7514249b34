import Spectra.Hostwatch.EngineIds
import Spectra.Hostwatch.Restart

/-! The stored rows of sustained alerts against the engine's alerts, when writes may fail. -/
namespace Spectra.Hostwatch
open Library Engine List SustainedState Std.ExtTreeMap

/-- A firing alert whose episode is the one the engine has under its key. -/
def Live (e : Engine) (b : Alert) : Prop :=
  b.state = .firing ∧ ∃ a, e.active[b.key]? = some a ∧ a.id = b.id

/-- What the row of id `i` says agrees with the engine. -/
structure RowAgrees (i : String) (e : Engine) (t : AlertTable) : Prop where
  row : ∀ (k : String) (a : Alert) r, e.active[k]? = some a → a.id = i → t[i]? = some r →
    r.key = k ∧ r.state = .firing
  held : ∀ r, t[i]? = some r → r.state = .firing → hasPrefix r.key sustainedKeyPrefix →
    ∃ a, e.active[r.key]? = some a ∧ a.id = i

/-- The keys remembered as persisted have a stored alert, but for those still to be
written. -/
def Remembered (e : Engine) (pending : List String) (persisted : KeyMap ℤ) (t : AlertTable) : Prop :=
  ∀ k : String, persisted[k]?.isSome →
    (∃ a, e.active[k]? = some a ∧ t[a.id]?.isSome) ∨ k ∈ pending

theorem Remembered.mono {e : Engine} {pending pending' : List String} {p : KeyMap ℤ} {t : AlertTable}
    (h : Remembered e pending p t) (hsub : pending ⊆ pending') : Remembered e pending' p t :=
  fun k hk => (h k hk).imp_right fun hmem => hsub hmem

namespace Writes
variable {e : Engine} {i : String} {a : Alert} {w : Writes}

/-- One write of `persistSustained`, and what becomes of `persisted`. -/
def persist (now : ℤ) (a : Alert) (keep : Bool) (s : KeyMap ℤ × Writes) : KeyMap ℤ × Writes :=
  (if s.2.outcomes.head ∧ keep then s.1.insert a.key now else s.1.erase a.key, (s.2.write a).1)

theorem persistEvents_cons (now : ℤ) (ev : Event) (events : List Event) (s : KeyMap ℤ × Writes) :
    persistEvents now (ev :: events) s = persistEvents now events (persist now ev.alert (ev.type ≠ .resolved) s) := by
  simp only [persist, decide_eq_true_eq]
  rfl

theorem persistActive_cons (now : ℤ) (a : Alert) (alerts : List Alert) (s : KeyMap ℤ × Writes) :
    persistActive now (a :: alerts) s =
      persistActive now alerts (if Recent now s.1 a.key then s else persist now a true s) := by
  simp only [persist, and_true]
  rw [persistActive]
  split <;> rfl

theorem getElem?_write (a : Alert) (w : Writes) :
    (w.write a).1.store[i]? =
      if w.outcomes.head ∧ a.id = i then
        some (w.store[i]?.elim (toRow a) fun r => r.update (toRow a)) else w.store[i]? := by
  rw [write]
  cases w.outcomes.head with
  | true =>
    rw [if_pos rfl, AlertTable.getElem?_upsertAlert]
    by_cases h : (toRow a).id = i
    · rw [if_pos h, if_pos ⟨rfl, h⟩]
    · rw [if_neg h, if_neg fun hc => h hc.2]
  | false => simp

theorem write_isSome (h : w.store[i]?.isSome) : (w.write a).1.store[i]?.isSome := by
  rw [getElem?_write]
  split
  · rfl
  · exact h

/-- A write of a live alert keeps a row in agreement. -/
theorem rowAgrees_write (hown : OwnId i e) (hlive : a.id = i → Live e a)
    (h : RowAgrees i e w.store) : RowAgrees i e (w.write a).1.store := by
  by_cases hw : w.outcomes.head ∧ a.id = i
  · obtain ⟨hstate, b, hb, hid⟩ := hlive hw.2
    have hrow : ∀ r, (w.write a).1.store[i]? = some r → r.key = a.key ∧ r.state = .firing := by
      intro r hr
      rw [getElem?_write, if_pos hw, Option.some.injEq] at hr
      rw [← hr]
      cases ht : w.store[i]? with
      | none => exact ⟨rfl, hstate⟩
      | some r' => exact ⟨(h.row _ b r' hb (hid.trans hw.2) ht).1, hstate⟩
    refine ⟨fun k c r hc hci hr => ?_, fun r hr _ _ => ?_⟩
    · rw [(hrow r hr).1]
      exact ⟨hown.unique _ _ b c hb hc (hid.trans hw.2) hci, (hrow r hr).2⟩
    · rw [(hrow r hr).1]
      exact ⟨b, hb, hid.trans hw.2⟩
  · have hsame : (w.write a).1.store[i]? = w.store[i]? := by rw [getElem?_write, if_neg hw]
    exact ⟨hsame ▸ h.row, hsame ▸ h.held⟩

variable {now : ℤ} {keep : Bool} {s : KeyMap ℤ × Writes} {pending : List String}

theorem remembered_persist (hlive : keep = true → Live e a) (h : Remembered e (a.key :: pending) s.1 s.2.store) :
    Remembered e pending (persist now a keep s).1 (persist now a keep s).2.store := by
  intro k hk
  change (if s.2.outcomes.head ∧ keep then s.1.insert a.key now else s.1.erase a.key)[k]?.isSome at hk
  have hother (hne : a.key ≠ k) (hs : s.1[k]?.isSome) :
      (∃ b, e.active[k]? = some b ∧ (persist now a keep s).2.store[b.id]?.isSome) ∨ k ∈ pending := by
    rcases h k hs with ⟨b, hb, hrow⟩ | hmem
    · exact .inl ⟨b, hb, write_isSome hrow⟩
    · exact .inr ((mem_cons.mp hmem).resolve_left (Ne.symm hne))
  split at hk
  · rename_i hw
    rw [getElem?_insert_eq] at hk
    split at hk
    · rename_i hkey
      obtain ⟨-, b, hb, hid⟩ := hlive hw.2
      refine .inl ⟨b, hkey ▸ hb, ?_⟩
      change (s.2.write a).1.store[b.id]?.isSome
      rw [getElem?_write, if_pos ⟨hw.1, hid.symm⟩]
      rfl
    · rename_i hkey
      exact hother hkey hk
  · rw [getElem?_erase_eq] at hk
    split at hk
    · cases hk
    · rename_i hkey
      exact hother hkey hk

variable (now : ℤ) {events : List Event} {P : KeyMap ℤ × Writes → Prop}

theorem persistEvents_induct (h : P s)
    (hstep : ∀ s, ∀ ev ∈ events, P s → P (persist now ev.alert (ev.type ≠ .resolved) s)) :
    P (persistEvents now events s) := by
  induction events generalizing s with
  | nil => exact h
  | cons ev events ih =>
    rw [persistEvents_cons]
    exact ih (hstep s ev (.head _) h) fun s ev' hev => hstep s ev' (.tail _ hev)

variable {alerts : List Alert}

theorem persistActive_induct (h : P s)
    (hstep : ∀ s, ∀ a ∈ alerts, P s → P (persist now a true s)) : P (persistActive now alerts s) := by
  induction alerts generalizing s with
  | nil => exact h
  | cons a alerts ih =>
    rw [persistActive_cons]
    refine ih ?_ fun s b hb => hstep s b (.tail _ hb)
    split
    · exact h
    · exact hstep s a (.head _) h

theorem rowAgrees_persistEvents (hown : OwnId i e)
    (hlive : ∀ ev ∈ events, ev.alert.id = i → Live e ev.alert) (h : RowAgrees i e s.2.store) :
    RowAgrees i e (persistEvents now events s).2.store :=
  persistEvents_induct (P := (RowAgrees i e ·.2.store)) now h fun _ ev hev => rowAgrees_write hown (hlive ev hev)

theorem rowAgrees_persistActive (hown : OwnId i e) (hlive : ∀ a ∈ alerts, Live e a)
    (h : RowAgrees i e s.2.store) : RowAgrees i e (persistActive now alerts s).2.store :=
  persistActive_induct (P := (RowAgrees i e ·.2.store)) now h fun _ a ha => rowAgrees_write hown fun _ => hlive a ha

theorem remembered_persistEvents (hlive : ∀ ev ∈ events, ev.type ≠ .resolved → Live e ev.alert)
    (h : Remembered e (events.map fun ev => ev.alert.key) s.1 s.2.store) :
    Remembered e [] (persistEvents now events s).1 (persistEvents now events s).2.store := by
  induction events generalizing s with
  | nil => exact h
  | cons ev events ih =>
    rw [persistEvents_cons]
    apply ih fun ev' hev => hlive ev' (.tail _ hev)
    exact remembered_persist (fun ht => hlive ev (.head _) (of_decide_eq_true ht)) h

theorem remembered_persistActive (hlive : ∀ a ∈ alerts, Live e a) (h : Remembered e [] s.1 s.2.store) :
    Remembered e [] (persistActive now alerts s).1 (persistActive now alerts s).2.store :=
  persistActive_induct (P := fun s => Remembered e [] s.1 s.2.store) now h fun _ a ha h =>
    remembered_persist (fun _ => hlive a ha) (h.mono (nil_subset _))

theorem persistActive_isSome (alerts : List Alert) (h : s.2.store[i]?.isSome) :
    (persistActive now alerts s).2.store[i]?.isSome :=
  persistActive_induct (P := (·.2.store[i]?.isSome)) now h fun _ _ _ => write_isSome

/-- When every write succeeds, the loop over the active alerts leaves a row of each. -/
theorem persistActive_stores (hlive : ∀ a ∈ alerts, Live e a) (h : Remembered e [] s.1 s.2.store)
    (hok : ∀ n, s.2.outcomes.get n = true) : ∀ a ∈ alerts, (persistActive now alerts s).2.store[a.id]?.isSome := by
  induction alerts generalizing s with
  | nil => simp
  | cons a alerts ih =>
    have hrest : ∀ b ∈ alerts, Live e b := fun b hb => hlive b (.tail _ hb)
    obtain ⟨-, b, hb, hid⟩ := hlive a mem_cons_self
    rw [persistActive_cons]
    split
    · rename_i hrecent
      have hkey : s.1[a.key]?.isSome := by
        rw [Recent] at hrecent
        cases hp : s.1[a.key]? with
        | none => simp [hp] at hrecent
        | some last => rfl
      intro c hc
      rcases mem_cons.mp hc with rfl | hc
      · obtain ⟨b', hb', hrow⟩ := (h c.key hkey).resolve_right (by simp)
        obtain rfl := Option.mem_unique hb hb'
        exact persistActive_isSome now alerts (hid ▸ hrow)
      · exact ih hrest h hok c hc
    · have hstep : Remembered e [] (persist now a true s).1 (persist now a true s).2.store :=
        remembered_persist (fun _ => hlive a (.head _)) (h.mono (nil_subset _))
      intro c hc
      rcases mem_cons.mp hc with rfl | hc
      · apply persistActive_isSome
        change (s.2.write c).1.store[c.id]?.isSome
        rw [getElem?_write, if_pos ⟨hok 0, rfl⟩]
        rfl
      · exact ih hrest hstep (fun n => hok (n + 1)) c hc

theorem persistEvents_frame (h : ∀ n ev, events[n]? = some ev → ev.alert.id = i → s.2.outcomes.get n = false) :
    (persistEvents now events s).2.store[i]? = s.2.store[i]? := by
  induction events generalizing s with
  | nil => rfl
  | cons ev events ih =>
    have hhead : ¬ (s.2.outcomes.head ∧ ev.alert.id = i) := by
      intro hc
      have hfalse : s.2.outcomes.head = false := h 0 ev rfl hc.2
      rw [hfalse] at hc
      cases hc.1
    rw [persistEvents_cons, ih fun n ev' hev => h (n + 1) ev' hev]
    change (s.2.write ev.alert).1.store[i]? = _
    rw [getElem?_write, if_neg hhead]

theorem persistActive_frame (h : ∀ a ∈ alerts, a.id ≠ i) :
    (persistActive now alerts s).2.store[i]? = s.2.store[i]? := by
  refine persistActive_induct (P := (·.2.store[i]? = s.2.store[i]?)) now rfl fun s' a ha hsame => ?_
  change (s'.2.write a).1.store[i]? = _
  rw [getElem?_write, if_neg fun hc => h a ha hc.2, hsame]

theorem persistEvents_append (l l' : List Event) :
    persistEvents now (l ++ l') s = persistEvents now l' (persistEvents now l s) := by
  induction l generalizing s with
  | nil => rfl
  | cons ev l ih => rw [cons_append, persistEvents_cons, persistEvents_cons, ih]

theorem persistEvents_outcomes (events : List Event) (n : ℕ) :
    (persistEvents now events s).2.outcomes.get n = s.2.outcomes.get (events.length + n) := by
  induction events generalizing s with
  | nil => rw [length_nil, Nat.zero_add]; rfl
  | cons ev events ih =>
    rw [persistEvents_cons, ih, length_cons, Nat.add_right_comm]
    rfl

/-- The row of an id after the loop over events of which one alone has that id, and its
write succeeded. -/
theorem persistEvents_written (before : List Event) {after : List Event} {ev : Event}
    (hid : ev.alert.id = i) (hok : s.2.outcomes.get before.length = true) (hafter : ∀ ev' ∈ after, ev'.alert.id ≠ i) :
    ∃ r, (persistEvents now (before ++ ev :: after) s).2.store[i]? = some r ∧ r.state = ev.alert.state := by
  rw [persistEvents_append, persistEvents_cons, persistEvents_frame]
  · change ∃ r, ((persistEvents now before s).2.write ev.alert).1.store[i]? = some r ∧ _
    have hhead : (persistEvents now before s).2.outcomes.head = true := by
      have := persistEvents_outcomes now before (s := s) 0
      exact this.trans hok
    rw [getElem?_write, if_pos ⟨hhead, hid⟩]
    refine ⟨_, rfl, ?_⟩
    cases (persistEvents now before s).2.store[i]? <;> rfl
  · intro n ev' hev hev'
    exact absurd hev' (hafter ev' (mem_of_getElem? hev))

end Writes

theorem mem_activeAlerts {e : Engine} {a : Alert} : a ∈ e.activeAlerts ↔ e.active[a.key]? = some a := by
  rw [Engine.activeAlerts, mem_map]
  constructor
  · rintro ⟨⟨k, b⟩, hmem, rfl⟩
    have hb := mem_toList_iff_getElem?_eq_some.mp hmem
    rw [e.keyed hb]
    exact hb
  · intro h
    exact ⟨(a.key, a), mem_toList_iff_getElem?_eq_some.mpr h, rfl⟩

def AllFiring (e : Engine) : Prop :=
  ∀ (k : String) (a : Alert), e.active[k]? = some a → a.state = .firing

/-- The alert of a resolved event was active, is no longer, and has no other event. -/
structure ResolvedBy (e e' : Engine) (events : List Event) (ev : Event) : Prop where
  before : ∃ a, e.active[ev.alert.key]? = some a ∧ a.id = ev.alert.id
  after : e'.active[ev.alert.key]? = none
  state : ev.alert.state = .resolved
  key : hasPrefix ev.alert.key sustainedKeyPrefix = true
  only : eventsOf ev.alert.key events = [ev]

/-- What the events of a tick say of the engine before and after it. -/
structure Told (e e' : Engine) (events : List Event) : Prop where
  firing : AllFiring e'
  live : ∀ ev ∈ events, ev.type ≠ .resolved → Live e' ev.alert
  resolved : ∀ ev ∈ events, ev.type = .resolved → ResolvedBy e e' events ev
  kept : ∀ (k : String) (a : Alert), e.active[k]? = some a →
    (∃ b, e'.active[k]? = some b ∧ b.id = a.id) ∨
      ∃ ev ∈ events, ev.type = .resolved ∧ ev.alert.key = k ∧ ev.alert.id = a.id
  origin : ∀ (k : String) (b : Alert), e'.active[k]? = some b → e.Origin k b
  own : ∀ i, OwnId i e → OwnId i e'
  later : Later e e'

section
variable {e : Engine} {rt : Runtime} {now : ℤ} {conds : List Condition} {ev : Event}

theorem mem_eventsOf {out : List Event} (h : ev ∈ out) : ev ∈ eventsOf ev.alert.key out :=
  mem_filter.mpr ⟨h, by simp⟩

theorem live_of_active {a : Alert} (hf : AllFiring e) (ha : e.active[a.key]? = some a) : Live e a :=
  ⟨hf _ a ha, a, ha, rfl⟩

theorem mem_clearedNoteEvents {stale : List String} (h : ev ∈ clearedNoteEvents stale e.activeAlerts) :
    ev.type = .updated ∧ e.active[ev.alert.key]? = some ev.alert := by
  obtain ⟨a, ha, rfl⟩ := mem_map.mp h
  exact ⟨rfl, mem_activeAlerts.mp (mem_of_mem_filter ha)⟩

variable {op : Op}

theorem withinScope_event (op : Op) {scope : Scope} {cs : List Condition} (hop : op.evaluation = some (scope, cs))
    (h : ev ∈ (e.step rt op).2) : withinScope scope ev.alert.key = true := by
  have hmem := mem_eventsOf (mem_step.mp h)
  rcases stepEmit_key rt op e ev.alert.key with ⟨-, hout, -⟩ | ⟨cs', hop', -⟩
  · rw [hout] at hmem
    cases hmem
  · exact withinScope_iff.mpr (congrArg Prod.fst (Option.some.inj (hop.symm.trans hop')))

theorem allFiring_step (rt : Runtime) (op : Op) (hf : AllFiring e) : AllFiring (e.step rt op).1 := by
  intro k b hb
  cases outcome_step rt op e k with
  | quiet halert =>
    obtain ⟨a, ha, -, hstate⟩ := halert b hb
    exact hstate.trans (hf k a ha)
  | hit b' halert _ _ hfiring =>
    obtain rfl : b' = b := Option.mem_unique halert hb
    exact (hfiring (hf k)).1
  | resolved a now _ halert =>
    rw [halert] at hb
    cases hb

private theorem live_step (hf : AllFiring e) (hev : ev ∈ (e.step rt op).2) (ht : ev.type ≠ .resolved) :
    Live (e.step rt op).1 ev.alert := by
  have hmem := mem_eventsOf hev
  cases outcome_step rt op e ev.alert.key with
  | quiet _ hout =>
    rw [hout] at hmem
    cases hmem
  | hit b halert _ hout hfiring =>
    exact ⟨(hfiring (hf _)).2 ev hmem, b, halert, (hout ev hmem).2.1.symm⟩
  | resolved a now _ _ hout =>
    rw [hout, mem_singleton] at hmem
    rw [hmem] at ht
    exact absurd rfl ht

private theorem resolved_step (hev : ev ∈ (e.step rt op).2) (ht : ev.type = .resolved) :
    (∃ a, e.active[ev.alert.key]? = some a ∧ a.id = ev.alert.id) ∧
      (e.step rt op).1.active[ev.alert.key]? = none ∧ ev.alert.state = .resolved ∧
      eventsOf ev.alert.key (e.step rt op).2 = [ev] := by
  have hmem := mem_eventsOf hev
  cases outcome_step rt op e ev.alert.key with
  | quiet _ hout =>
    rw [hout] at hmem
    cases hmem
  | hit b _ _ hout => exact absurd ht (hout ev hmem).1
  | resolved a now ha halert hout =>
    have heq : ev = ⟨.resolved, resolve a now⟩ := by simpa [hout] using hmem
    exact ⟨⟨a, ha, by rw [heq]; rfl⟩, halert, by rw [heq]; rfl, hout.trans (by rw [heq])⟩

private theorem kept_step {k : String} {a : Alert} (ha : e.active[k]? = some a) :
    (∃ b, (e.step rt op).1.active[k]? = some b ∧ b.id = a.id) ∨
      ∃ ev ∈ (e.step rt op).2, ev.type = .resolved ∧ ev.alert.key = k ∧ ev.alert.id = a.id := by
  obtain ⟨hevents, ⟨ev, hev, ht, hk⟩ | ⟨b, hb, hkeep⟩⟩ := step_keeps rt op ha
  · exact .inr ⟨ev, hev, ht, hk, (hevents ev hev hk).1⟩
  · exact .inl ⟨b, hb, hkeep.1⟩

private theorem told_evaluate (rt : Runtime) (now : ℤ) (conds : List Condition)
    (stale : List String) (hf : AllFiring e) :
    let r := e.step rt (.evaluateSustained now conds)
    Told e r.1 (r.2 ++ clearedNoteEvents stale r.1.activeAlerts) := by
  have hf' := allFiring_step rt (.evaluateSustained now conds) hf
  refine ⟨hf', fun ev hev ht => ?_, fun ev hev ht => ?_, fun k a ha => ?_, fun k b hb => origin_step hb,
    fun i h => ownId_step rt _ h, later_step rt _ e⟩
  · rcases mem_append.mp hev with hev | hev
    · exact live_step hf hev ht
    · exact live_of_active hf' (mem_clearedNoteEvents hev).2
  · rcases mem_append.mp hev with hev | hev
    · obtain ⟨hbefore, hafter, hstate, honly⟩ := resolved_step hev ht
      have hnone : eventsOf ev.alert.key (clearedNoteEvents stale
          (e.step rt (.evaluateSustained now conds)).1.activeAlerts) = [] := by
        rw [eventsOf, filter_eq_nil_iff]
        intro ev' hev' hkey
        have hactive := (mem_clearedNoteEvents hev').2
        rw [of_decide_eq_true hkey, hafter] at hactive
        cases hactive
      refine ⟨hbefore, hafter, hstate, withinScope_event (.evaluateSustained now conds) rfl hev, ?_⟩
      rw [eventsOf_append, honly, hnone, append_nil]
    · rw [(mem_clearedNoteEvents hev).1] at ht
      cases ht
  · refine (kept_step ha).imp_right ?_
    rintro ⟨ev, hev, hrest⟩
    exact ⟨ev, mem_append_left _ hev, hrest⟩

end

section
variable {e e' : Engine} {a : Alert}

/-- An alert of the same episode as the one the engine has under its key. -/
def KeptFrom (e : Engine) (a : Alert) : Prop :=
  ∃ b, e.active[a.key]? = some b ∧ b.Keeps a ∧ a.state = b.state

theorem KeptFrom.live (ha : KeptFrom e a) (hf : AllFiring e) (h : SameAlerts e e') : Live e' a := by
  obtain ⟨b, hb, hkeep, hs⟩ := ha
  obtain ⟨c, hc, hkeep'⟩ := h.kept _ b hb
  exact ⟨hs.trans (hf _ b hb), c, hc, hkeep'.1.trans hkeep.1.symm⟩

theorem Engine.SameAlerts.keptFrom (h : SameAlerts e e') (ha : e'.active[a.key]? = some a) : KeptFrom e a :=
  h.alert _ a ha

theorem AllFiring.of_sameAlerts (hf : AllFiring e) (h : SameAlerts e e') : AllFiring e' := by
  intro k b hb
  obtain ⟨a, ha, -, hs⟩ := h.alert k b hb
  exact hs.trans (hf k a ha)

private theorem setDetail_some {key detail : String} {b : Alert}
    (h : e.setDetail key detail = (e', some b)) : e'.active[b.key]? = some b := by
  rw [setDetail] at h
  split at h
  · cases h
  · split at h
    · cases h
    · obtain ⟨rfl, hb⟩ := Prod.mk.inj h
      rw [Option.some.inj hb]
      exact getElem?_insert_self

/-- Marking alerts as unavailable leaves them what they are. -/
theorem flagAlerts_kept {e₀ : Engine} {alerts : List Alert} (hsame : SameAlerts e₀ e)
    (hactive : ∀ a ∈ alerts, e₀.active[a.key]? = some a) :
    let r := flagAlerts alerts e
    SameAlerts e₀ r.1 ∧ (∀ ev ∈ r.2.1, ev.type = .updated ∧ KeptFrom e₀ ev.alert) ∧
      ∀ a ∈ r.2.2, KeptFrom e₀ a := by
  induction alerts generalizing e with
  | nil => exact ⟨hsame, by simp [flagAlerts], by simp [flagAlerts]⟩
  | cons a alerts ih =>
    have hrest : ∀ b ∈ alerts, e₀.active[b.key]? = some b :=
      fun b hb => hactive b (.tail _ hb)
    have ha : KeptFrom e₀ a := (SameAlerts.refl e₀).keptFrom (hactive a (.head _))
    have hcons {l : List Alert} {c : Alert} (hc : KeptFrom e₀ c) (hl : ∀ b ∈ l, KeptFrom e₀ b) :
        ∀ b ∈ c :: l, KeptFrom e₀ b := by
      intro b hb
      rcases mem_cons.mp hb with rfl | hb
      · exact hc
      · exact hl b hb
    rw [flagAlerts]
    split
    · obtain ⟨hsame', hev, hnoted⟩ := ih hsame hrest
      exact ⟨hsame', hev, hcons ha hnoted⟩
    · have hstep := hsame.trans
        (sameAlerts_step default (.setDetail a.key (a.detail ++ probeUnavailableNote)) rfl e)
      change SameAlerts e₀ (e.setDetail a.key (a.detail ++ probeUnavailableNote)).1 at hstep
      split
      · rename_i e' hset
        rw [hset] at hstep
        obtain ⟨hsame', hev, hnoted⟩ := ih hstep hrest
        exact ⟨hsame', hev, hcons ha hnoted⟩
      · rename_i e' b hset
        rw [hset] at hstep
        have hb : KeptFrom e₀ b := hstep.keptFrom (setDetail_some hset)
        obtain ⟨hsame', hev, hnoted⟩ := ih hstep hrest
        refine ⟨hsame', fun ev hmem => ?_, hcons hb hnoted⟩
        rcases mem_cons.mp hmem with rfl | hmem
        · exact ⟨rfl, hb⟩
        · exact hev ev hmem

theorem told_of_sameAlerts {events : List Event} (hf : AllFiring e) (h : SameAlerts e e')
    (hev : ∀ ev ∈ events, ev.type = .updated ∧ Live e' ev.alert) : Told e e' events := by
  refine ⟨hf.of_sameAlerts h, fun ev hmem _ => (hev ev hmem).2, fun ev hmem ht => ?_,
    fun k a ha => ?_, fun k b hb => ?_, fun i => h.ownId, Later.of_eq h.ids⟩
  · rw [(hev ev hmem).1] at ht
    cases ht
  · obtain ⟨b, hb, hkeep⟩ := h.kept k a ha
    exact .inl ⟨b, hb, hkeep.1⟩
  · obtain ⟨a, ha, hkeep, -⟩ := h.alert k b hb
    exact .inl ⟨a, ha, hkeep⟩

end

namespace Service
variable {text : DetailText} {x : Tick} {s : Service}

/-- What one tick does to the rows: it writes its events, then the alerts that are due,
from the keys remembered as persisted or fewer. -/
structure Persisting (text : DetailText) (x : Tick) (s : Service) (persisted : KeyMap ℤ)
    (alerts : List Alert) : Prop where
  told : Told s.engine (s.tick text x).1.engine (s.tick text x).2
  fewer : ∀ k : String, persisted[k]?.isSome → s.sustained.persisted[k]?.isSome
  live : ∀ a ∈ alerts, Live (s.tick text x).1.engine a
  all : x.probe.ps.isSome → alerts = sustainedAlerts (s.tick text x).1.engine
  remembered : (s.tick text x).1.sustained.persisted =
    (Writes.persistActive x.now alerts
      (Writes.persistEvents x.now (s.tick text x).2 (persisted, ⟨s.store, x.outcomes⟩))).1
  store : (s.tick text x).1.store =
    (Writes.persistActive x.now alerts
      (Writes.persistEvents x.now (s.tick text x).2 (persisted, ⟨s.store, x.outcomes⟩))).2.store

theorem erased_fewer (events : List Event) (p : KeyMap ℤ) (k : String)
    (h : (events.foldl (fun p ev => p.erase ev.alert.key) p)[k]?.isSome) : p[k]?.isSome := by
  induction events generalizing p with
  | nil => exact h
  | cons ev events ih =>
    have hk := ih _ h
    rw [getElem?_erase_eq] at hk
    split at hk
    · cases hk
    · exact hk

theorem sustainedConditions_persisted (text : DetailText) (probe : ProbeInput) (now : ℤ) (st : SustainedState) :
    (st.sustainedConditions text probe now).1.persisted = st.persisted := by
  cases hps : probe.ps with
  | none =>
    rw [sustainedConditions, hps]
  | some procs =>
    rw [sustainedConditions_eq hps, cpuObservations]
    split <;> rfl

theorem persisting_success {st : SustainedState} {conds : List Condition}
    (hps : s.sustained.sustainedConditions text x.probe x.now = (st, some conds)) (hf : AllFiring s.engine) :
    Persisting text x s s.sustained.persisted
      (sustainedAlerts (s.engine.step x.rt (.evaluateSustained x.now conds)).1) := by
  have hst : st.persisted = s.sustained.persisted := by
    rw [← sustainedConditions_persisted text x.probe x.now s.sustained, hps]
  have htick : s.tick text x =
      let r := s.engine.step x.rt (.evaluateSustained x.now conds)
      let events := r.2 ++ clearedNoteEvents (staleKeys s.engine.activeAlerts) r.1.activeAlerts
      (persistSustained x.now x.outcomes events (sustainedAlerts r.1)
        { s with engine := r.1, sustained := st }, events) := by
    unfold tick tickSustained
    rw [hps]
    rfl
  have htold := told_evaluate x.rt x.now conds (staleKeys s.engine.activeAlerts) hf
  refine ⟨?_, fun _ h => h, ?_, fun _ => ?_, ?_, ?_⟩
  · rw [htick]
    exact htold
  · rw [htick]
    exact fun _ ha => live_of_active htold.firing (mem_activeAlerts.mp (mem_of_mem_filter ha))
  · rw [htick]
    rfl
  · rw [htick, ← hst]
    rfl
  · rw [htick, ← hst]
    rfl

theorem persisting_failure (text : DetailText) (hnone : x.probe.ps = none)
    (hf : AllFiring s.engine) : ∃ persisted alerts, Persisting text x s persisted alerts := by
  obtain ⟨st, hps⟩ : ∃ st, s.sustained.sustainedConditions text x.probe x.now = (st, none) := by
    rw [sustainedConditions, hnone]
    exact ⟨_, rfl⟩
  have hst : st.persisted = s.sustained.persisted := by
    rw [← sustainedConditions_persisted text x.probe x.now s.sustained, hps]
  by_cases hlimit : sustainedProbeFailLimit ≤ st.failures
  · have htick : s.tick text x = flagProbeUnavailable x.now x.outcomes { s with sustained := st } := by
      unfold tick tickSustained
      rw [hps]
      exact if_pos hlimit
    obtain ⟨hsame, hev, hnoted⟩ := flagAlerts_kept (.refl s.engine) fun a ha =>
      mem_activeAlerts.mp (mem_of_mem_filter ha)
    refine ⟨(flagAlerts (sustainedAlerts s.engine) s.engine).2.1.foldl
      (fun p ev => p.erase ev.alert.key) st.persisted,
      (flagAlerts (sustainedAlerts s.engine) s.engine).2.2, ?_, fun k hk => ?_, ?_, fun h => ?_, ?_, ?_⟩
    · rw [htick]
      exact told_of_sameAlerts hf hsame fun ev hmem => ⟨(hev ev hmem).1, (hev ev hmem).2.live hf hsame⟩
    · exact hst ▸ erased_fewer _ _ _ hk
    · rw [htick]
      exact fun a ha => (hnoted a ha).live hf hsame
    · rw [hnone] at h
      cases h
    · rw [htick]
      rfl
    · rw [htick]
      rfl
  · have htick : s.tick text x = ({ s with sustained := st }, []) := by
      unfold tick tickSustained
      rw [hps]
      exact if_neg hlimit
    refine ⟨s.sustained.persisted, [], ?_, fun _ h => h, by simp, fun h => ?_, ?_, ?_⟩
    · rw [htick]
      exact told_of_sameAlerts hf (.refl _) (by simp)
    · rw [hnone] at h
      cases h
    · rw [htick]
      exact hst
    · rw [htick]
      rfl

theorem persisting_tick (text : DetailText) (x : Tick) (hf : AllFiring s.engine) :
    ∃ persisted alerts, Persisting text x s persisted alerts := by
  cases hps : x.probe.ps with
  | none => exact persisting_failure text hps hf
  | some procs =>
    obtain ⟨st, conds, hst, -⟩ := sustainedConditions_spec text hps s
    exact ⟨_, _, persisting_success hst hf⟩

end Service

end Spectra.Hostwatch
