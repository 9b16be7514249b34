import Spectra.Hostwatch.Engine

/-! The engine as one small machine per key. -/
namespace Spectra.Hostwatch
open Library List Prod Std.ExtTreeMap

/-- What the engine's tables hold for one key. -/
@[ext]
structure KeyView where
  alert : Option Alert
  clear : Option ℤ
  parent : Option ℤ
  deriving DecidableEq

open KeyView

namespace KeyView
variable (now : ℤ) (scope : Scope) (clearAfter topPID : ℤ)

def notedParent (v : KeyView) : Option ℤ :=
  if scope = .spawn ∧ 0 ≤ topPID then some topPID else v.parent

/-- A condition arrives: the key fires, or its alert takes the condition's text. -/
def apply (id : String) (c : Condition) (v : KeyView) : KeyView × Option Event :=
  match v.alert with
  | none =>
    (⟨some (Engine.fire c id now), some 0, v.notedParent scope topPID⟩, some ⟨.fired, Engine.fire c id now⟩)
  | some a =>
    (⟨some (a.refresh c), some 0, v.notedParent scope topPID⟩,
      if a.severity ≠ c.severity ∨ scope = .spawn ∧ 0 ≤ topPID ∧ ∃ p ∈ v.parent, p ≠ topPID
      then some ⟨.updated, a.refresh c⟩ else none)

/-- All conditions of one evaluation for this key; the id serves the first at most. -/
def applyAll (id : String) : List Condition → KeyView → KeyView × List Event
  | [], v => (v, [])
  | c :: cs, v =>
    let (v, event) := v.apply now scope topPID id c
    let (v, out) := applyAll id cs v
    (v, event.toList ++ out)

/-- An evaluation of the key's scope goes by without it. -/
def miss (v : KeyView) : KeyView × Option Event :=
  match v.alert with
  | none => (v, none)
  | some a =>
    if v.clear.getD 0 + 1 < clearAfter then (⟨some a, some (v.clear.getD 0 + 1), v.parent⟩, none)
    else (⟨none, none, none⟩, some ⟨.resolved, Engine.resolve a now⟩)

variable {now scope topPID} {v : KeyView} {c : Condition}

theorem apply_alert_isSome {id : String} : (v.apply now scope topPID id c).1.alert.isSome := by
  rw [apply]
  split <;> rfl

theorem apply_id (id id' : String) (h : v.alert.isSome) :
    v.apply now scope topPID id c = v.apply now scope topPID id' c := by
  obtain ⟨a, ha⟩ := Option.isSome_iff_exists.mp h
  unfold apply
  rw [ha]

theorem applyAll_cons {id : String} {cs : List Condition} :
    v.applyAll now scope topPID id (c :: cs) =
      let r := (v.apply now scope topPID id c).1.applyAll now scope topPID id cs
      (r.1, (v.apply now scope topPID id c).2.toList ++ r.2) := rfl

theorem applyAll_id (id id' : String) {cs : List Condition} (h : v.alert.isSome) :
    v.applyAll now scope topPID id cs = v.applyAll now scope topPID id' cs := by
  induction cs generalizing v with
  | nil => rfl
  | cons c cs ih =>
    rw [applyAll_cons, applyAll_cons, apply_id id id' h, ih apply_alert_isSome]

end KeyView

namespace Engine
variable {now : ℤ} {scope : Scope} {clearAfter topPID : ℤ}

def view (e : Engine) (k : String) : KeyView := ⟨e.active[k]?, e.clears[k]?, e.parents[k]?⟩

variable {e : Engine}

theorem ext_view {e' : Engine} (h : ∀ k, e.view k = e'.view k) (hids : e.ids = e'.ids) : e = e' := by
  have ha : e.active = e'.active :=
    ext_getElem? fun k => congrArg alert (h k)
  have hc : e.clears = e'.clears :=
    ext_getElem? fun k => congrArg clear (h k)
  have hp : e.parents = e'.parents :=
    ext_getElem? fun k => congrArg parent (h k)
  cases e
  simp_all

theorem view_setActive (e : Engine) (a : Alert) (k : String) :
    (e.setActive a).view k = if a.key = k then { e.view k with alert := some a } else e.view k := by
  unfold view setActive
  rw [getElem?_insert_eq]
  split <;> rfl

section
variable (e : Engine) (key : String)

theorem view_dropKey (k : String) : (e.dropKey key).view k = if key = k then ⟨none, none, none⟩ else e.view k := by
  unfold view dropKey
  rw [getElem?_erase_eq, getElem?_erase_eq, getElem?_erase_eq]
  split <;> rfl

theorem view_setClear (n : ℤ) (k : String) :
    ({ e with clears := e.clears.insert key n } : Engine).view k =
      if key = k then { e.view k with clear := some n } else e.view k := by
  rw [view, getElem?_insert_eq]
  split <;> rfl

theorem view_noteParent (k : String) :
    (e.noteParent scope topPID key).view k =
      if key = k then { e.view k with parent := (e.view k).notedParent scope topPID }
      else e.view k := by
  unfold noteParent notedParent
  split
  · rw [view, getElem?_insert_eq]
    split <;> rfl
  · split <;> rfl

theorem ids_noteParent : (e.noteParent scope topPID key).ids = e.ids := by
  rw [noteParent]
  split <;> rfl

end

variable {k : String} {a : Alert}

theorem view_key (h : (e.view k).alert = some a) : a.key = k :=
  e.keyed h

theorem applyCondition_spec (now : ℤ) (scope : Scope) (topPID : ℤ) (e : Engine) (c : Condition) (k : String) :
    let r := applyCondition now c scope topPID e
    let s := (e.view c.key).apply now scope topPID e.ids.head c
    (r.1.view k = if c.key = k then s.1 else e.view k) ∧ r.2 = s.2 ∧
      r.1.ids = if (e.view c.key).alert.isSome then e.ids else e.ids.tail := by
  unfold applyCondition apply
  dsimp only
  cases hv : (e.view c.key).alert with
  | none =>
    rw [show e.active[c.key]? = none from hv]
    refine ⟨?_, rfl, ids_noteParent _ _⟩
    rw [view_noteParent, view_setActive]
    by_cases hk : c.key = k
    · subst hk
      simp [fire, view, notedParent]
    · simp [fire, view, hk, getElem?_insert_eq]
  | some a =>
    rw [show e.active[c.key]? = some a from hv]
    have hkey : (a.refresh c).key = c.key := show a.key = c.key from view_key hv
    by_cases hc : a.title ≠ c.title ∨ a.detail ≠ c.detail ∨ a.severity ≠ c.severity
    · simp only [if_pos hc]
      refine ⟨?_, rfl, ids_noteParent _ _⟩
      rw [view_noteParent, view_setActive, hkey]
      by_cases hk : c.key = k
      · subst hk
        simp [view, notedParent]
      · simp [view, hk, getElem?_insert_eq]
    · have ha : a.refresh c = a := by
        cases a
        simp_all [Alert.refresh]
      simp only [if_neg hc, ha]
      refine ⟨?_, rfl, ids_noteParent _ _⟩
      rw [view_noteParent]
      by_cases hk : c.key = k
      · subst hk
        simp [view, notedParent, show e.active[c.key]? = some a from hv]
      · simp [view, hk, getElem?_insert_eq]

variable {cs : List Condition}

theorem applyConditions_cons {c : Condition} :
    applyConditions now scope topPID (c :: cs) e =
      if withinScope scope c.key then
        let r := applyCondition now c scope topPID e
        let s := applyConditions now scope topPID cs r.1
        (s.1, r.2.toList ++ s.2)
      else applyConditions now scope topPID cs e := rfl

theorem apply_event_key (now : ℤ) (scope : Scope) (topPID : ℤ) (id : String) (c : Condition)
    {ev : Event} (h : ((e.view c.key).apply now scope topPID id c).2 = some ev) : ev.alert.key = c.key := by
  rw [apply] at h
  cases hv : (e.view c.key).alert with
  | none =>
    simp only [hv, Option.some.injEq] at h
    rw [← h]
    rfl
  | some a =>
    simp only [hv] at h
    split at h
    · cases h
      exact show a.key = c.key from view_key hv
    · cases h

def eventsOf (k : String) (out : List Event) : List Event := out.filter fun ev => ev.alert.key = k

theorem eventsOf_append (k : String) (l l' : List Event) :
    eventsOf k (l ++ l') = eventsOf k l ++ eventsOf k l' := filter_append ..

variable {key : String}

theorem eventsOf_toList {o : Option Event} (h : ∀ ev, o = some ev → ev.alert.key = key) :
    eventsOf k o.toList = if key = k then o.toList else [] := by
  cases o with
  | none => simp [eventsOf]
  | some ev => simp [eventsOf, h ev rfl, filter_singleton]

def conditionsOf (scope : Scope) (k : String) (cs : List Condition) : List Condition :=
  cs.filter fun c => withinScope scope c.key && decide (c.key = k)

theorem conditionsOf_eq_nil (h : withinScope scope k = false) : conditionsOf scope k cs = [] := by
  rw [conditionsOf, filter_eq_nil_iff]
  intro c _ hc
  simp only [Bool.and_eq_true, decide_eq_true_eq] at hc
  rw [hc.2, h] at hc
  cases hc.1

theorem conditionsOf_eq_filter (h : withinScope scope k = true) :
    conditionsOf scope k cs = cs.filter fun c => c.key = k := by
  apply filter_congr
  intro c _
  by_cases hk : c.key = k
  · simp [hk, h]
  · simp [hk]

/-- The loop over the conditions runs the machine of every key on its own conditions, with
one of the generator's next ids. -/
theorem applyConditions_key (now : ℤ) (scope : Scope) (topPID : ℤ) (cs : List Condition) (e : Engine) (k : String) :
    ∃ i, ((applyConditions now scope topPID cs e).1.view k,
        eventsOf k (applyConditions now scope topPID cs e).2) =
      (e.view k).applyAll now scope topPID (e.ids.get i) (conditionsOf scope k cs) := by
  induction cs generalizing e with
  | nil => exact ⟨0, rfl⟩
  | cons c cs ih =>
    rw [applyConditions_cons]
    cases hs : withinScope scope c.key with
    | false => simpa [conditionsOf, hs] using ih e
    | true =>
      obtain ⟨hview, hev, hids⟩ := applyCondition_spec now scope topPID e c k
      obtain ⟨i, hi⟩ := ih (applyCondition now c scope topPID e).1
      obtain ⟨j, hj⟩ : ∃ j, (applyCondition now c scope topPID e).1.ids.get i = e.ids.get j := by
        rw [hids]
        split
        · exact ⟨i, rfl⟩
        · exact ⟨i + 1, rfl⟩
      obtain ⟨hi1, hi2⟩ := Prod.ext_iff.mp hi
      rw [hj] at hi1 hi2
      simp only at hi1 hi2
      have hkey := eventsOf_toList (k := k) fun ev h =>
        apply_event_key now scope topPID (e := e) e.ids.head c h
      simp only [if_true, eventsOf_append, hi1, hi2, hview, hev, hkey]
      by_cases hk : c.key = k
      · subst hk
        have hcons : conditionsOf scope c.key (c :: cs) = c :: conditionsOf scope c.key cs := by
          simp [conditionsOf, hs]
        rw [hcons]
        cases ha : (e.view c.key).alert with
        | none =>
          refine ⟨0, ?_⟩
          rw [applyAll_cons, applyAll_id _ (e.ids.get j) apply_alert_isSome]
          simp
        | some a =>
          refine ⟨j, ?_⟩
          rw [applyAll_cons, apply_id (e.ids.get j) e.ids.head (by simp [ha])]
          simp
      · exact ⟨j, by simp [hk, conditionsOf]⟩

def Missing (scope : Scope) (seen : List String) (k : String) : Prop :=
  withinScope scope k = true ∧ k ∉ seen

instance (scope : Scope) (seen : List String) (k : String) : Decidable (Missing scope seen k) :=
  inferInstanceAs (Decidable (_ ∧ _))

theorem resolveEntry_spec (now : ℤ) (scope : Scope) (clearAfter : ℤ) (seen : List String)
    (ha : (e.view key).alert = some a) (k : String) :
    let r := resolveEntry now seen scope clearAfter key a e
    let s := (e.view key).miss now clearAfter
    (r.1.view k = if key = k ∧ Missing scope seen key then s.1 else e.view k) ∧
      r.2 = (if Missing scope seen key then s.2 else none) ∧ r.1.ids = e.ids := by
  unfold resolveEntry miss
  simp only [ha]
  by_cases hs : Missing scope seen key
  · have hn : ¬ (withinScope scope key = false ∨ key ∈ seen) := by simp [hs.1, hs.2]
    have hclear : (e.view key).clear = e.clears[key]? := rfl
    simp only [if_neg hn, hs, and_true, hclear]
    split
    · refine ⟨?_, rfl, rfl⟩
      rw [view_setClear]
      split
      · rename_i hk
        subst hk
        simp [view, show e.active[key]? = some a from ha]
      · rfl
    · refine ⟨?_, rfl, rfl⟩
      rw [view_dropKey, view_setClear]
      split <;> rfl
  · have hy : withinScope scope key = false ∨ key ∈ seen := by
      simpa [Missing, or_iff_not_imp_left] using hs
    simp [hy, hs]

theorem miss_event_key {ev : Event} (h : ((e.view k).miss now clearAfter).2 = some ev) : ev.alert.key = k := by
  rw [miss] at h
  cases hv : (e.view k).alert with
  | none => simp [hv] at h
  | some a =>
    simp only [hv] at h
    split at h
    · cases h
    · cases h
      exact show a.key = k from view_key hv

theorem resolveEntries_cons {seen : List String} {rest : List (String × Alert)} :
    resolveEntries now seen scope clearAfter ((key, a) :: rest) e =
      let r := resolveEntry now seen scope clearAfter key a e
      let s := resolveEntries now seen scope clearAfter rest r.1
      (s.1, r.2.toList ++ s.2) := rfl

/-- The loop over the active alerts runs every missing key among them through a miss. -/
theorem resolveEntries_key (now : ℤ) (scope : Scope) (clearAfter : ℤ) (seen : List String)
    {entries : List (String × Alert)} (hn : (entries.map fst).Nodup)
    (ha : ∀ x ∈ entries, (e.view x.1).alert = some x.2) (k : String) :
    let r := resolveEntries now seen scope clearAfter entries e
    let s := (e.view k).miss now clearAfter
    let due := k ∈ entries.map fst ∧ Missing scope seen k
    (r.1.view k = if due then s.1 else e.view k) ∧
      eventsOf k r.2 = (if due then s.2.toList else []) ∧ r.1.ids = e.ids := by
  induction entries generalizing e with
  | nil => simp [resolveEntries, eventsOf]
  | cons x rest ih =>
    obtain ⟨key, a⟩ := x
    have hkey : (e.view key).alert = some a := ha (key, a) (by simp)
    obtain ⟨hnot, hn⟩ := nodup_cons.mp hn
    have hstep := resolveEntry_spec now scope clearAfter seen hkey
    have hrest : ∀ x ∈ rest,
        ((resolveEntry now seen scope clearAfter key a e).1.view x.1).alert = some x.2 := by
      intro x hx
      have hne : key ≠ x.1 := fun h => hnot (mem_map.mpr ⟨x, hx, h.symm⟩)
      rw [(hstep x.1).1, if_neg fun h => hne h.1]
      exact ha x (.tail _ hx)
    obtain ⟨h1, h2, h3⟩ := hstep k
    obtain ⟨i1, i2, i3⟩ := ih hn hrest
    have hev : eventsOf k (resolveEntry now seen scope clearAfter key a e).2.toList =
        if key = k then (resolveEntry now seen scope clearAfter key a e).2.toList else [] := by
      apply eventsOf_toList
      intro ev h
      rw [h2] at h
      split at h
      · exact miss_event_key h
      · cases h
    rw [resolveEntries_cons]
    by_cases hk : key = k
    · subst hk
      have hdue : ¬ (key ∈ rest.map fst ∧ Missing scope seen key) := fun h => hnot h.1
      rw [if_neg hdue] at i1 i2
      refine ⟨?_, ?_, i3.trans h3⟩
      · simpa using i1.trans h1
      · rw [eventsOf_append, hev, i2, h2]
        by_cases hm : Missing scope seen key <;> simp [hm]
    · rw [if_neg fun h => hk h.1] at h1
      rw [h1] at i1 i2
      have hmem : k ∈ ((key, a) :: rest).map fst ↔ k ∈ rest.map fst := by
        simp [Ne.symm hk]
      refine ⟨i1.trans (by simp only [hmem]), ?_, i3.trans h3⟩
      rw [eventsOf_append, hev, if_neg hk, i2]
      simp only [hmem, nil_append]

theorem mem_seenKeys : k ∈ seenKeys scope cs ↔ withinScope scope k = true ∧ k ∈ cs.map Condition.key := by
  simp only [seenKeys, mem_map, mem_filter]
  constructor
  · rintro ⟨c, ⟨hc, hs⟩, rfl⟩
    exact ⟨hs, c, hc, rfl⟩
  · rintro ⟨hs, c, hc, rfl⟩
    exact ⟨c, ⟨hc, hs⟩, rfl⟩

theorem resolveMissing_key (rt : Runtime) (now : ℤ) (seen : List String) (scope : Scope)
    (clearAfter : ℤ) (e : Engine) (k : String) :
    let r := resolveMissing rt now seen scope clearAfter e
    let s := (e.view k).miss now clearAfter
    (r.1.view k = if Missing scope seen k then s.1 else e.view k) ∧
      eventsOf k r.2 = (if Missing scope seen k then s.2.toList else []) ∧ r.1.ids = e.ids := by
  obtain ⟨h1, h2, h3⟩ := resolveEntries_key now scope clearAfter
    seen (rt.range.nodup_keys e.active) (fun x hx => rt.range.mem_order.mp hx) k
  refine ⟨h1.trans ?_, h2.trans ?_, h3⟩
  all_goals
    cases ha : (e.view k).alert with
    | none => simp [miss, ha]
    | some a =>
      have hk : k ∈ (rt.range.order e.active).map fst :=
        mem_map.mpr ⟨(k, a), rt.range.mem_order.mpr ha, rfl⟩
      simp [hk]

theorem emit_eq {rt : Runtime} :
    emit rt now cs scope clearAfter topPID e =
      let s := applyConditions now scope topPID cs e
      let r := resolveMissing rt now (seenKeys scope cs) scope clearAfter s.1
      (r.1, s.2 ++ r.2) := rfl

/-- What one evaluation does to one key, before its events are sorted. -/
theorem emit_key (rt : Runtime) (now : ℤ) (cs : List Condition) (scope : Scope)
    (clearAfter topPID : ℤ) (e : Engine) (k : String) :
    let r := emit rt now cs scope clearAfter topPID e
    (withinScope scope k = false → r.1.view k = e.view k ∧ eventsOf k r.2 = []) ∧
    (withinScope scope k = true → k ∈ cs.map Condition.key →
      ∃ i, (r.1.view k, eventsOf k r.2) =
        (e.view k).applyAll now scope topPID (e.ids.get i) (cs.filter fun c => c.key = k)) ∧
    (withinScope scope k = true → k ∉ cs.map Condition.key →
      r.1.view k = ((e.view k).miss now clearAfter).1 ∧
        eventsOf k r.2 = ((e.view k).miss now clearAfter).2.toList) := by
  obtain ⟨i, hi⟩ := applyConditions_key now scope topPID cs e k
  obtain ⟨h1, h2, -⟩ := resolveMissing_key rt now (seenKeys scope cs) scope clearAfter
    (applyConditions now scope topPID cs e).1 k
  obtain ⟨hv, hev⟩ := Prod.ext_iff.mp hi
  dsimp only at hv hev
  rw [emit_eq]
  dsimp only
  rw [eventsOf_append, h1, h2, hv, hev]
  refine ⟨fun hs => ?_, fun hs hk => ⟨i, ?_⟩, fun hs hk => ?_⟩
  · have hm : ¬ Missing scope (seenKeys scope cs) k := by simp [Missing, hs]
    rw [conditionsOf_eq_nil hs, if_neg hm, if_neg hm]
    exact ⟨rfl, rfl⟩
  · have hm : ¬ Missing scope (seenKeys scope cs) k := fun h => h.2 (mem_seenKeys.mpr ⟨hs, hk⟩)
    rw [conditionsOf_eq_filter hs, if_neg hm, if_neg hm, append_nil]
  · have hm : Missing scope (seenKeys scope cs) k := ⟨hs, fun h => hk (mem_seenKeys.mp h).2⟩
    have hnil : (cs.filter fun c => c.key = k) = [] := by
      rw [filter_eq_nil_iff]
      intro c hc h
      exact hk (mem_map.mpr ⟨c, hc, of_decide_eq_true h⟩)
    rw [conditionsOf_eq_filter hs, hnil, if_pos hm, if_pos hm]
    exact ⟨rfl, rfl⟩

end Engine
end Spectra.Hostwatch
