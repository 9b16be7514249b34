import Spectra.Hostwatch.Episodes

/-! Runs of the engine. -/
namespace Spectra.Hostwatch
open Library List Condition Prod

def scopeOf (key : String) : Scope :=
  if spawnKey key then .spawn
  else if hasPrefix key sustainedKeyPrefix then .sustained
  else .slow

private theorem spawnKey_not_sustained {key : String} (h : spawnKey key = true) :
    hasPrefix key sustainedKeyPrefix = false := by
  simp only [spawnKey, decide_eq_true_eq] at h
  rcases h with rfl | rfl | rfl <;> decide

theorem withinScope_iff {scope : Scope} {key : String} : withinScope scope key = true ↔ scope = scopeOf key := by
  unfold withinScope scopeOf
  cases hs : spawnKey key with
  | true =>
    have hp := spawnKey_not_sustained hs
    cases scope <;> simp [hp]
  | false =>
    cases hp : hasPrefix key sustainedKeyPrefix <;> cases scope <;> simp

/-- How many evaluations in a row must miss an alert of the scope. -/
def Scope.clearAfter : Scope → ℕ
  | .slow => 2
  | .spawn => 3
  | .sustained => 2

inductive Op where
  | evaluateSlow (now : ℤ) (conditions : List Condition)
  | evaluateSpawn (now : ℤ) (conditions : List Condition) (topPID : List ℤ)
  | evaluateSustained (now : ℤ) (conditions : List Condition)
  | setDetail (key detail : String)
  | ack (id : String) (now : ℤ)

namespace Op

def evaluation : Op → Option (Scope × List Condition)
  | .evaluateSlow _ cs => some (.slow, cs)
  | .evaluateSpawn _ cs _ => some (.spawn, cs)
  | .evaluateSustained _ cs => some (.sustained, cs)
  | .setDetail _ _ => none
  | .ack _ _ => none

/-- No evaluation of key `k` in this step holds two conditions for it. -/
def NamesOnce (k : String) (op : Op) : Prop :=
  ∀ scope cs, op.evaluation = some (scope, cs) → (cs.map Condition.key).count k ≤ 1

end Op

/-- Neither the episode of an alert nor its acknowledgement is lost. -/
def Alert.Keeps (a b : Alert) : Prop :=
  b.id = a.id ∧ b.firedAt = a.firedAt ∧ (a.ackedAt.isSome → b.ackedAt.isSome)

theorem Alert.Keeps.refl (a : Alert) : a.Keeps a := ⟨rfl, rfl, fun h => h⟩

theorem Alert.Keeps.trans {a b c : Alert} (h : a.Keeps b) (h' : b.Keeps c) : a.Keeps c :=
  ⟨h'.1.trans h.1, h'.2.1.trans h.2.1, h'.2.2 ∘ h.2.2⟩

/-- The key is left alone, or its alert gives way to one of the same episode. -/
def KeyView.Replaced (v w : KeyView) : Prop :=
  w = v ∨ ∃ a b, v.alert = some a ∧ a.Keeps b ∧ b.state = a.state ∧ w = { v with alert := some b }

open KeyView

namespace Engine

/-- One call, with its events in the order the engine appended them. -/
def stepEmit (rt : Runtime) (op : Op) (e : Engine) : Engine × List Event :=
  match op with
  | .evaluateSlow now cs => emit rt now cs .slow 2 0 e
  | .evaluateSpawn now cs topPID => emit rt now cs .spawn 3 (topPID.headD (-1)) e
  | .evaluateSustained now cs => emit rt now cs .sustained 2 (-1) e
  | .setDetail key detail => ((e.setDetail key detail).1, [])
  | .ack id now => ((e.ack rt id now).1, [])

/-- One call, with its events as returned. -/
def step (rt : Runtime) (op : Op) (e : Engine) : Engine × List Event :=
  match op with
  | .evaluateSlow now cs => evaluateSlow rt now cs e
  | .evaluateSpawn now cs topPID => evaluateSpawn rt now cs topPID e
  | .evaluateSustained now cs => evaluateSustained rt now cs e
  | .setDetail key detail => ((e.setDetail key detail).1, [])
  | .ack id now => ((e.ack rt id now).1, [])

def runWith (f : Runtime → Op → Engine → Engine × List Event) :
    List (Runtime × Op) → Engine → Engine × List (List Event)
  | [], e => (e, [])
  | (rt, op) :: ops, e =>
    let (e, out) := f rt op e
    let (e, outs) := runWith f ops e
    (e, out :: outs)

def run (ops : List (Runtime × Op)) (e : Engine) : Engine × List (List Event) :=
  runWith step ops e

variable (rt : Runtime) (op : Op) (e : Engine)

theorem step_fst : (step rt op e).1 = (stepEmit rt op e).1 := by
  cases op <;> rfl

theorem step_perm : (step rt op e).2.Perm (stepEmit rt op e).2 := by
  cases op
  case setDetail => exact .refl _
  case ack => exact .refl _
  all_goals exact rt.sort.perm _

theorem mem_step {rt : Runtime} {op : Op} {e : Engine} {ev : Event} :
    ev ∈ (step rt op e).2 ↔ ev ∈ (stepEmit rt op e).2 := (step_perm rt op e).mem_iff

theorem replaced_setActive {e : Engine} {key : String} {a b : Alert}
    (ha : e.active[key]? = some a) (hk : b.key = a.key) (hb : a.Keeps b) (hs : b.state = a.state) (k : String) :
    (e.view k).Replaced ((e.setActive b).view k) := by
  rw [view_setActive]
  split
  · rename_i h
    have hkey : key = k := (e.keyed ha).symm.trans (hk.symm.trans h)
    exact .inr ⟨a, b, hkey ▸ ha, hb, hs, rfl⟩
  · exact .inl rfl

/-- Everything a call can do: an evaluation, or the replacement of an alert by one of the
same episode. -/
theorem step_cases :
    (∃ now cs scope topPID, op.evaluation = some (scope, cs) ∧
      stepEmit rt op e = emit rt now cs scope scope.clearAfter topPID e) ∨
    op.evaluation = none ∧ (stepEmit rt op e).2 = [] ∧ ∀ k, (e.view k).Replaced ((stepEmit rt op e).1.view k) := by
  cases op with
  | evaluateSlow now cs => exact .inl ⟨now, cs, .slow, 0, rfl, rfl⟩
  | evaluateSpawn now cs topPID => exact .inl ⟨now, cs, .spawn, _, rfl, rfl⟩
  | evaluateSustained now cs => exact .inl ⟨now, cs, .sustained, -1, rfl, rfl⟩
  | setDetail key detail =>
    refine .inr ⟨rfl, rfl, fun k => ?_⟩
    change (e.view k).Replaced ((e.setDetail key detail).1.view k)
    rw [setDetail]
    cases ha : e.active[key]? with
    | none => exact .inl rfl
    | some a =>
      dsimp only
      split
      · exact .inl rfl
      · exact replaced_setActive (b := { a with detail := detail }) ha rfl ⟨rfl, rfl, id⟩ rfl k
  | ack id now =>
    refine .inr ⟨rfl, rfl, fun k => ?_⟩
    change (e.view k).Replaced ((e.ack rt id now).1.view k)
    rw [ack]
    cases hf : (rt.range.order e.active).find? fun entry => entry.2.id = id with
    | none => exact .inl rfl
    | some entry =>
      have ha := rt.range.mem_order.mp (mem_of_find?_eq_some hf)
      exact replaced_setActive (b := { entry.2 with ackedAt := some now }) ha rfl
        ⟨rfl, rfl, fun _ => rfl⟩ rfl k

end Engine

variable {cs : List Condition}

namespace KeyView
variable {v : KeyView}

/-- What some conditions have done to a key: there is an alert that has not missed an
evaluation, no event resolved it, and an alert that was there before is kept. -/
structure Hit (v : KeyView) (r : KeyView × List Event) : Prop where
  alert : r.1.alert.isSome
  clear : r.1.clear = some 0
  type : ∀ ev ∈ r.2, ev.type ≠ .resolved
  keeps : ∀ a, v.alert = some a →
    (∃ b, r.1.alert = some b ∧ a.Keeps b) ∧ ∀ ev ∈ r.2, a.Keeps ev.alert

section
variable (now : ℤ) (scope : Scope) (topPID : ℤ) (id : String)

theorem hit_apply (c : Condition) :
    Hit v ((v.apply now scope topPID id c).1, (v.apply now scope topPID id c).2.toList) := by
  rw [apply]
  cases ha : v.alert with
  | none =>
    refine ⟨rfl, rfl, by simp, fun a h => ?_⟩
    rw [ha] at h
    cases h
  | some a =>
    refine ⟨rfl, rfl, ?_, fun a' h => ?_⟩
    · intro ev hev
      simp only [Option.mem_toList] at hev
      split at hev
      · cases hev
        simp
      · cases hev
    · rw [ha] at h
      cases h
      have hkeep : a.Keeps (a.refresh c) := ⟨rfl, rfl, fun h => h⟩
      refine ⟨⟨_, rfl, hkeep⟩, fun ev hev => ?_⟩
      simp only [Option.mem_toList] at hev
      split at hev
      · cases hev
        exact hkeep
      · cases hev

theorem hit_applyAll (hcs : cs ≠ []) : Hit v (v.applyAll now scope topPID id cs) := by
  induction cs generalizing v with
  | nil => exact absurd rfl hcs
  | cons c cs ih =>
    have hc := hit_apply (v := v) now scope topPID id c
    by_cases hn : cs = []
    · subst hn
      simpa [applyAll] using hc
    · have hr := ih (v := (v.apply now scope topPID id c).1) hn
      refine ⟨hr.alert, hr.clear, fun ev hev => ?_, fun a ha => ?_⟩
      · rcases mem_append.mp hev with hev | hev
        · exact hc.type ev hev
        · exact hr.type ev hev
      · obtain ⟨⟨b, hb, hab⟩, hev⟩ := hc.keeps a ha
        obtain ⟨⟨d, hd, hbd⟩, hev'⟩ := hr.keeps b hb
        refine ⟨⟨d, hd, hab.trans hbd⟩, fun ev h => ?_⟩
        rcases mem_append.mp h with h | h
        · exact hev ev h
        · exact hab.trans (hev' ev h)

theorem applyAll_length (cs : List Condition) : (v.applyAll now scope topPID id cs).2.length ≤ cs.length := by
  induction cs generalizing v with
  | nil => rfl
  | cons c cs ih =>
    rw [applyAll_cons, length_append, length_cons]
    have hi := ih (v := (v.apply now scope topPID id c).1)
    have ho : (v.apply now scope topPID id c).2.toList.length ≤ 1 := by
      cases (v.apply now scope topPID id c).2 <;> simp
    omega

end

theorem miss_spec (now : ℤ) (clearAfter : ℤ) {a : Alert} (ha : v.alert = some a) :
    let r := v.miss now clearAfter
    if v.clear.getD 0 + 1 < clearAfter then
      r = (⟨some a, some (v.clear.getD 0 + 1), v.parent⟩, none)
    else r = (⟨none, none, none⟩, some ⟨.resolved, Engine.resolve a now⟩) := by
  rw [miss, ha]
  dsimp only
  split <;> rfl

end KeyView

/-- Count on the evaluations of a key's scope that go by without the key. -/
def missStep (k : String) (n : ℕ) (op : Op) : ℕ :=
  match op.evaluation with
  | none => n
  | some (scope, cs) =>
    if scope = scopeOf k then if k ∈ cs.map Condition.key then 0 else n + 1 else n

/-- How many consecutive evaluations of its scope, up to the last one, missed the key. -/
def missStreak (k : String) (ops : List Op) : ℕ := ops.foldl (missStep k) 0

/-- What holds for a key after a run that missed it `n` times at the end and emitted `l`. -/
structure KeyInv (k : String) (n : ℕ) (v : KeyView) (l : List Event) : Prop where
  episodes : EpisodesUpTo l v.tag
  clear : v.alert.isSome → v.clear.getD 0 = n ∧ n < (scopeOf k).clearAfter

namespace Engine
variable {k : String} {n : ℕ} {l : List Event} {e : Engine}

/-- Everything a call can do to one key. -/
theorem stepEmit_key (rt : Runtime) (op : Op) (e : Engine) (k : String) :
    let v := (stepEmit rt op e).1.view k
    let out := eventsOf k (stepEmit rt op e).2
    ((∀ cs, op.evaluation ≠ some (scopeOf k, cs)) ∧ out = [] ∧ (e.view k).Replaced v) ∨
    ∃ cs, op.evaluation = some (scopeOf k, cs) ∧
      (k ∈ cs.map key ∧ (∃ now topPID i,
        let r := (e.view k).applyAll now (scopeOf k) topPID (e.ids.get i) (cs.filter (·.key = k))
        v = r.1 ∧ out = r.2) ∨
      k ∉ cs.map key ∧ ∃ now, v = ((e.view k).miss now (scopeOf k).clearAfter).1 ∧
        out = ((e.view k).miss now (scopeOf k).clearAfter).2.toList) := by
  rcases step_cases rt op e with ⟨now, cs, scope, topPID, hop, hstep⟩ | ⟨hop, hev, hview⟩
  · obtain ⟨h1, h2, h3⟩ := emit_key rt now cs scope scope.clearAfter topPID e k
    rw [hstep]
    by_cases hs : scope = scopeOf k
    · subst hs
      refine .inr ⟨cs, hop, ?_⟩
      by_cases hk : k ∈ cs.map key
      · obtain ⟨i, hi⟩ := h2 (withinScope_iff.mpr rfl) hk
        exact .inl ⟨hk, now, topPID, i, Prod.ext_iff.mp hi⟩
      · exact .inr ⟨hk, now, h3 (withinScope_iff.mpr rfl) hk⟩
    · have hout : withinScope scope k = false := by
        rw [← Bool.not_eq_true, withinScope_iff]
        exact hs
      refine .inl ⟨fun cs' h => hs ?_, (h1 hout).2, .inl (h1 hout).1⟩
      rw [hop, Option.some.injEq, Prod.mk.injEq] at h
      exact h.1
  · refine .inl ⟨fun cs h => ?_, by simp [hev, eventsOf], hview k⟩
    rw [hop] at h
    cases h

theorem filter_ne_nil (h : k ∈ cs.map key) : (cs.filter fun c => c.key = k) ≠ [] := by
  obtain ⟨c, hc, hk⟩ := mem_map.mp h
  exact ne_nil_of_mem (mem_filter.mpr ⟨hc, by simpa using hk⟩)

theorem keyInv_step (rt : Runtime) (op : Op) (h : KeyInv k n (e.view k) l) :
    KeyInv k (missStep k n op) ((stepEmit rt op e).1.view k) (l ++ eventsOf k (stepEmit rt op e).2) := by
  rcases stepEmit_key rt op e k with
    ⟨hop, hout, hrep⟩ | ⟨cs, hop, ⟨hk, now, topPID, i, hv, hout⟩ | ⟨hk, now, hv, hout⟩⟩
  · have hn : missStep k n op = n := by
      rw [missStep]
      split
      · rfl
      · rename_i scope cs hcs
        rw [if_neg]
        rintro rfl
        exact hop cs hcs
    rw [hout, hn, append_nil]
    rcases hrep with hv | ⟨a, b, ha, hkeep, -, hv⟩
    · rw [hv]
      exact h
    · rw [hv]
      refine ⟨?_, fun _ => h.clear (by simp [ha])⟩
      have hep := h.episodes
      simp only [tag, ha] at hep
      simpa [tag, hkeep.1, hkeep.2.1] using hep
  · have hn : missStep k n op = 0 := by simp [missStep, hop, hk]
    have hhit := hit_applyAll (v := e.view k) now (scopeOf k) topPID (e.ids.get i)
      (filter_ne_nil hk)
    rw [hv, hout, hn]
    refine ⟨episodes_applyAll h.episodes, fun _ => ?_⟩
    rw [hhit.clear]
    exact ⟨rfl, by cases scopeOf k <;> decide⟩
  · have hn : missStep k n op = n + 1 := by simp [missStep, hop, hk]
    rw [hv, hout, hn]
    refine ⟨episodes_miss h.episodes, fun hsome => ?_⟩
    cases ha : (e.view k).alert with
    | none => simp [miss, ha] at hsome
    | some a =>
      have hm := miss_spec now (scopeOf k).clearAfter ha
      obtain ⟨hc, -⟩ := h.clear (by simp [ha])
      rw [hc] at hm
      split at hm
      · rename_i hlt
        rw [hm]
        exact ⟨by simp, by exact_mod_cast hlt⟩
      · rw [hm] at hsome
        cases hsome

variable {ops : List (Runtime × Op)} {rt : Runtime}

theorem runWith_cons {f : Runtime → Op → Engine → Engine × List Event} {op : Op} :
    runWith f ((rt, op) :: ops) e =
      let r := runWith f ops (f rt op e).1
      (r.1, (f rt op e).2 :: r.2) := rfl

theorem run_eq (ops : List (Runtime × Op)) (e : Engine) :
    (run ops e).1 = (runWith stepEmit ops e).1 ∧ List.Forall₂ List.Perm (run ops e).2 (runWith stepEmit ops e).2 := by
  rw [run]
  induction ops generalizing e with
  | nil => exact ⟨rfl, .nil⟩
  | cons x ops ih =>
    obtain ⟨rt, op⟩ := x
    rw [runWith_cons, step_fst]
    exact ⟨(ih _).1, .cons (step_perm rt op e) (ih _).2⟩

theorem keyInv_run (ops : List (Runtime × Op)) (h : KeyInv k n (e.view k) l) :
    KeyInv k ((ops.map snd).foldl (missStep k) n) ((runWith stepEmit ops e).1.view k)
      (l ++ eventsOf k (runWith stepEmit ops e).2.flatten) := by
  induction ops generalizing e n l with
  | nil => simpa [runWith, eventsOf] using h
  | cons x ops ih =>
    obtain ⟨rt, op⟩ := x
    have hi := ih (keyInv_step rt op h)
    rw [runWith_cons]
    simpa [eventsOf_append] using hi

theorem keyInv_new (ids : Stream' String) (ops : List (Runtime × Op)) :
    KeyInv k (missStreak k (ops.map snd)) ((runWith stepEmit ops (new ids)).1.view k)
      (eventsOf k (runWith stepEmit ops (new ids)).2.flatten) := by
  have h0 : KeyInv k 0 ((new ids).view k) [] :=
    ⟨by exact EpisodesUpTo.nil, by simp [view, new]⟩
  exact keyInv_run ops h0

/-- The evaluation that resolves a key with an alert: the one of its own scope that misses
it for the `clearAfter`-th time in a row. -/
def Resolves (k : String) (n : ℕ) (op : Op) : Prop :=
  ∃ cs, op.evaluation = some (scopeOf k, cs) ∧ k ∉ cs.map Condition.key ∧
    n + 1 = (scopeOf k).clearAfter

theorem exists_event_iff {op : Op} {P : Event → Prop} :
    (∃ ev ∈ (step rt op e).2, P ev ∧ ev.alert.key = k) ↔ ∃ ev ∈ eventsOf k (stepEmit rt op e).2, P ev := by
  simp only [mem_step, eventsOf, mem_filter, decide_eq_true_eq]
  constructor
  · rintro ⟨ev, hev, hp, hk⟩
    exact ⟨ev, ⟨hev, hk⟩, hp⟩
  · rintro ⟨ev, ⟨hev, hk⟩, hp⟩
    exact ⟨ev, hev, hp, hk⟩

variable {a : Alert}

theorem step_resolves (rt : Runtime) (op : Op) (h : KeyInv k n (e.view k) l) (ha : (e.view k).alert = some a) :
    ((∃ ev ∈ (step rt op e).2, ev.type = .resolved ∧ ev.alert.key = k) ↔ Resolves k n op) ∧
      (((step rt op e).1.view k).alert = none ↔ Resolves k n op) := by
  rw [exists_event_iff, step_fst]
  rcases stepEmit_key rt op e k with
    ⟨hop, hout, hrep⟩ | ⟨cs, hop, ⟨hk, now, topPID, i, hv, hout⟩ | ⟨hk, now, hv, hout⟩⟩
  · have hno : ¬ Resolves k n op := fun ⟨cs, hcs, _⟩ => hop cs hcs
    refine ⟨by simp [hout, hno], ?_⟩
    rcases hrep with hv | ⟨b, c, hb, -, -, hv⟩
    · simp [hv, ha, hno]
    · simp [hv, hno]
  · have hhit := hit_applyAll (v := e.view k) now (scopeOf k) topPID (e.ids.get i)
      (filter_ne_nil hk)
    have hno : ¬ Resolves k n op := by
      rintro ⟨cs', hcs, hk', -⟩
      obtain rfl : cs = cs' := by simpa using hop.symm.trans hcs
      exact hk' hk
    rw [hv, hout]
    constructor
    · simp only [hno, iff_false]
      rintro ⟨ev, hev, ht⟩
      exact hhit.type ev hev ht
    · simp only [hno, iff_false]
      exact Option.isSome_iff_ne_none.mp hhit.alert
  · have hres : Resolves k n op ↔ n + 1 = (scopeOf k).clearAfter := by
      constructor
      · exact fun ⟨_, _, _, h⟩ => h
      · exact fun h => ⟨cs, hop, hk, h⟩
    obtain ⟨hc, hlt⟩ := h.clear (by simp [ha])
    have hm := miss_spec now (scopeOf k).clearAfter ha
    rw [hv, hout, hres]
    split at hm
    · have hne : n + 1 ≠ (scopeOf k).clearAfter := by omega
      simp [hm, hne]
    · have he : n + 1 = (scopeOf k).clearAfter := by omega
      simp [hm, he]

/-- A call on an engine with an alert for the key keeps it, unless the call resolves it;
its events carry it on either way. -/
theorem step_keeps (rt : Runtime) (op : Op) (ha : (e.view k).alert = some a) :
    (∀ ev ∈ (step rt op e).2, ev.alert.key = k → a.Keeps ev.alert) ∧
      ((∃ ev ∈ (step rt op e).2, ev.type = .resolved ∧ ev.alert.key = k) ∨
        ∃ b, ((step rt op e).1.view k).alert = some b ∧ a.Keeps b) := by
  have hmem : (∀ ev ∈ (step rt op e).2, ev.alert.key = k → a.Keeps ev.alert) ↔
      ∀ ev ∈ eventsOf k (stepEmit rt op e).2, a.Keeps ev.alert := by
    simp only [mem_step, eventsOf, mem_filter, decide_eq_true_eq, and_imp]
  rw [exists_event_iff, step_fst, hmem]
  rcases stepEmit_key rt op e k with
    ⟨hop, hout, hrep⟩ | ⟨cs, hop, ⟨hk, now, topPID, i, hv, hout⟩ | ⟨hk, now, hv, hout⟩⟩
  · refine ⟨by simp [hout], .inr ?_⟩
    rcases hrep with hv | ⟨a', b, ha', hkeep, -, hv⟩
    · exact ⟨a, by rw [hv, ha], .refl a⟩
    · obtain rfl := Option.mem_unique ha ha'
      exact ⟨b, by rw [hv], hkeep⟩
  · have hhit := hit_applyAll (v := e.view k) now (scopeOf k) topPID (e.ids.get i)
      (filter_ne_nil hk)
    obtain ⟨hb, hev⟩ := hhit.keeps a ha
    rw [hv, hout]
    exact ⟨hev, .inr hb⟩
  · have hm := miss_spec now (scopeOf k).clearAfter ha
    rw [hv, hout]
    split at hm
    · rw [hm]
      exact ⟨by simp, .inr ⟨a, rfl, .refl a⟩⟩
    · rw [hm]
      have hkeep : a.Keeps (resolve a now) := ⟨rfl, rfl, fun h => h⟩
      exact ⟨by simpa using hkeep, .inl ⟨⟨.resolved, resolve a now⟩, by simp, rfl⟩⟩

theorem run_keeps (ha : (e.view k).alert = some a)
    (hno : ∀ out ∈ (run ops e).2, ∀ ev ∈ out, ev.type = .resolved → ev.alert.key ≠ k) :
    ∃ b, ((run ops e).1.view k).alert = some b ∧ a.Keeps b := by
  induction ops generalizing e a with
  | nil => exact ⟨a, ha, .refl a⟩
  | cons x ops ih =>
    obtain ⟨rt, op⟩ := x
    rw [run, runWith_cons] at hno
    rcases (step_keeps rt op ha).2 with ⟨ev, hev, ht, hk⟩ | ⟨b, hb, hab⟩
    · exact absurd hk (hno _ (by simp) ev hev ht)
    · obtain ⟨c, hc, hbc⟩ := ih hb fun out hout => hno out (.tail _ hout)
      exact ⟨c, hc, hab.trans hbc⟩

/-- An evaluation whose list names the key at most once has at most one event for it. -/
theorem emit_length (rt : Runtime) (now : ℤ) (scope : Scope)
    (clearAfter topPID : ℤ) (e : Engine) (h : (cs.map key).count k ≤ 1) :
    (eventsOf k (emit rt now cs scope clearAfter topPID e).2).length ≤ 1 := by
  obtain ⟨h1, h2, h3⟩ := emit_key rt now cs scope clearAfter topPID e k
  cases hs : withinScope scope k with
  | false => simp [(h1 hs).2]
  | true =>
    by_cases hk : k ∈ cs.map key
    · obtain ⟨i, hi⟩ := h2 hs hk
      rw [show eventsOf k (emit rt now cs scope clearAfter topPID e).2 = _ from congrArg snd hi]
      apply (applyAll_length now scope topPID (e.ids.get i) _).trans
      rw [count_eq_countP, countP_map, countP_eq_length_filter] at h
      exact h
    · rw [(h3 hs hk).2]
      cases ((e.view k).miss now clearAfter).2 <;> simp

theorem eventsOf_step (rt : Runtime) {op : Op} (e : Engine) (hop : op.NamesOnce k) :
    eventsOf k (step rt op e).2 = eventsOf k (stepEmit rt op e).2 := by
  have hlen : (eventsOf k (stepEmit rt op e).2).length ≤ 1 := by
    rcases step_cases rt op e with ⟨now, cs, scope, topPID, hcs, hstep⟩ | ⟨-, hout, -⟩
    · rw [hstep]
      exact emit_length rt now scope _ topPID e (hop scope cs hcs)
    · simp [hout, eventsOf]
  have hp : (eventsOf k (step rt op e).2).Perm (eventsOf k (stepEmit rt op e).2) :=
    (step_perm rt op e).filter _
  cases hl : eventsOf k (stepEmit rt op e).2 with
  | nil => rwa [hl, perm_nil] at hp
  | cons ev rest =>
    obtain rfl : rest = [] := by
      rw [hl, length_cons] at hlen
      exact length_eq_zero_iff.mp (by omega)
    rwa [hl, perm_singleton] at hp

theorem eventsOf_run (e : Engine) (hops : ∀ x ∈ ops, x.2.NamesOnce k) :
    eventsOf k (run ops e).2.flatten = eventsOf k (runWith stepEmit ops e).2.flatten := by
  rw [run]
  induction ops generalizing e with
  | nil => rfl
  | cons x ops ih =>
    obtain ⟨rt, op⟩ := x
    rw [runWith_cons, runWith_cons, flatten_cons, flatten_cons, eventsOf_append,
      eventsOf_append, eventsOf_step rt e (hops (rt, op) (by simp)), step_fst,
      ih _ fun y hy => hops y (.tail _ hy)]

theorem ack_spec {id : String} {now : ℤ} {e' : Engine} (h : e.ack rt id now = (e', some a)) :
    a.id = id ∧ a.ackedAt = some now ∧ (e'.view a.key).alert = some a := by
  rw [ack] at h
  cases hf : (rt.range.order e.active).find? fun entry => entry.2.id = id with
  | none => simp [hf] at h
  | some entry =>
    simp only [hf] at h
    obtain ⟨rfl, rfl⟩ := h
    refine ⟨by simpa using find?_some hf, rfl, ?_⟩
    simp [view_setActive]

/-- The life of alerts in every run of the engine. The events of a key form episodes in
the order the engine appends them, and in the order it returns them unless a list names the
key twice: `sort.Slice` may swap the two events of such a key. -/
theorem run_episodes (ids : Stream' String) (ops : List (Runtime × Op)) :
    let r := (new ids).run ops
    (∃ emitted, List.Forall₂ List.Perm r.2 emitted ∧ ∀ k, Episodes (eventsOf k emitted.flatten)) ∧
    (∀ k, (∀ x ∈ ops, x.2.NamesOnce k) → Episodes (eventsOf k r.2.flatten)) ∧
    (∀ k a rt op, r.1.active[k]? = some a →
      ((∃ ev ∈ (step rt op r.1).2, ev.type = .resolved ∧ ev.alert.key = k) ↔
        Resolves k (missStreak k (ops.map Prod.snd)) op) ∧
      ((step rt op r.1).1.active[k]? = none ↔ Resolves k (missStreak k (ops.map Prod.snd)) op)) ∧
    (∀ rt id now e a, r.1.ack rt id now = (e, some a) → ∀ more,
      (∀ out ∈ (e.run more).2, ∀ ev ∈ out, ev.type = .resolved → ev.alert.key ≠ a.key) →
      (∃ b, (e.run more).1.active[a.key]? = some b ∧ b.id = id ∧ b.ackedAt.isSome) ∧
      ∀ rt op, ∀ ev ∈ (step rt op (e.run more).1).2, ev.alert.key = a.key →
        ev.alert.id = id ∧ ev.alert.ackedAt.isSome) := by
  obtain ⟨he, hperm⟩ := run_eq ops (new ids)
  have hinv (k : String) := keyInv_new (k := k) ids ops
  refine ⟨⟨_, hperm, fun k => ⟨_, (hinv k).episodes⟩⟩, fun k hk => ?_, fun k a rt op ha => ?_, ?_⟩
  · rw [eventsOf_run _ hk]
    exact ⟨_, (hinv k).episodes⟩
  · have h := hinv k
    rw [← he] at h
    exact step_resolves rt op h ha
  · intro rt id now e a hack more hno
    obtain ⟨hid, hacked, ha⟩ := ack_spec hack
    obtain ⟨b, hb, hab⟩ := run_keeps ha hno
    have hbid : b.id = id := hab.1.trans hid
    have hback : b.ackedAt.isSome := hab.2.2 (by simp [hacked])
    refine ⟨⟨b, hb, hbid, hback⟩, fun rt op ev hev hk => ?_⟩
    have hkeep := (step_keeps rt op hb).1 ev hev hk
    exact ⟨hkeep.1.trans hbid, hkeep.2.2 hback⟩

/-- Thirteen conditions, two of them for the key `g`, the second more severe. The standard
library's sort leaves the two resulting events in reverse order. -/
def repeatedKey : List Condition :=
  ["e", "f", "g"].map (fun k => ⟨k, "warn", "High", ""⟩) ++
    ["g", "h", "j", "a", "b", "i", "c", "d", "k", "l"].map fun k => ⟨k, "critical", "High", ""⟩

theorem not_episodes_of_updated {evs : List Event} (h : evs.map Event.type = [.updated, .fired]) :
    ¬ Episodes evs := by
  intro hepisodes
  obtain ⟨ev, rest, rfl, hev, -⟩ := map_eq_cons_iff.mp h
  exact absurd (hepisodes.head_fired.symm.trans hev) (by decide)

/-- One evaluation of a list that names a key twice can return `updated` before `fired`. -/
theorem run_repeated_key_not_episodes :
    ¬ Episodes (eventsOf "g" ((new (Stream'.const "id")).run
      [(⟨default, SliceSort.reversing _⟩, .evaluateSlow 0 repeatedKey)]).2.flatten) :=
  not_episodes_of_updated (by decide +kernel)

end Engine
end Spectra.Hostwatch
