import Spectra.Hostwatch.EngineRuns

/-! The three scopes of the engine do not interfere. -/
namespace Spectra.Hostwatch
open Library List

namespace Engine
variable {scope : Scope}

def Agree (scope : Scope) (e e' : Engine) : Prop :=
  ∀ k, withinScope scope k = true → e.view k = e'.view k

theorem perm_of_eventsOf {l l' : List Event} (h : ∀ k, eventsOf k l = eventsOf k l') : l.Perm l' := by
  rw [perm_iff_count]
  intro ev
  have hc (l : List Event) : l.count ev = (eventsOf ev.alert.key l).count ev :=
    (count_filter (by simp)).symm
  rw [hc l, hc l', h]

variable {e e' : Engine}

theorem applyCondition_congr (now : ℤ) (topPID : ℤ) (c : Condition)
    (hs : withinScope scope c.key = true) (ha : Agree scope e e')
    (hh : (e.view c.key).alert = none → e.ids.head = e'.ids.head) :
    (applyCondition now c scope topPID e').2 = (applyCondition now c scope topPID e).2 ∧
      Agree scope (applyCondition now c scope topPID e).1 (applyCondition now c scope topPID e').1 := by
  have happly : (e.view c.key).apply now scope topPID e.ids.head c =
      (e'.view c.key).apply now scope topPID e'.ids.head c := by
    rw [← ha _ hs]
    cases hv : (e.view c.key).alert with
    | none => rw [hh hv]
    | some a => exact KeyView.apply_id _ _ (by simp [hv])
  refine ⟨?_, fun k hk => ?_⟩
  · rw [(applyCondition_spec now scope topPID e c c.key).2.1,
      (applyCondition_spec now scope topPID e' c c.key).2.1, happly]
  · rw [(applyCondition_spec now scope topPID e c k).1,
      (applyCondition_spec now scope topPID e' c k).1, happly, ha k hk]

/-- The loop over the conditions draws some ids; on an engine that agrees on the scope and
is about to hand out the same ids it does the same. -/
theorem applyConditions_congr (now : ℤ) (scope : Scope) (topPID : ℤ) (cs : List Condition) (e : Engine) :
    ∃ xs, e.ids = xs ++ₛ (applyConditions now scope topPID cs e).1.ids ∧
      ∀ e' r, Agree scope e e' → e'.ids = xs ++ₛ r →
        let p := applyConditions now scope topPID cs e
        let q := applyConditions now scope topPID cs e'
        q.2 = p.2 ∧ Agree scope p.1 q.1 ∧ q.1.ids = r := by
  induction cs generalizing e with
  | nil => exact ⟨[], rfl, fun e' r ha hids => ⟨rfl, ha, hids⟩⟩
  | cons c cs ih =>
    cases hs : withinScope scope c.key with
    | false => simpa [applyConditions_cons, hs] using ih e
    | true =>
      obtain ⟨xs, hxs, hcongr⟩ := ih (applyCondition now c scope topPID e).1
      have hids := (applyCondition_spec now scope topPID e c c.key).2.2
      simp only [applyConditions_cons, hs, if_true]
      cases hv : (e.view c.key).alert with
      | none =>
        rw [hv] at hids
        refine ⟨e.ids.head :: xs, ?_, fun e' r ha hr => ?_⟩
        · rw [Stream'.cons_append_stream, ← hxs, hids]
          exact (Stream'.eta e.ids).symm
        · rw [Stream'.cons_append_stream] at hr
          have hids' := (applyCondition_spec now scope topPID e' c c.key).2.2
          rw [← ha _ hs, hv, hr] at hids'
          obtain ⟨hev, hagree⟩ := applyCondition_congr now topPID c hs ha
            fun _ => by rw [hr, Stream'.head_cons]
          obtain ⟨h1, h2, h3⟩ := hcongr _ r hagree hids'
          exact ⟨by rw [hev, h1], h2, h3⟩
      | some a =>
        rw [hv] at hids
        refine ⟨xs, Eq.trans hids.symm hxs, fun e' r ha hr => ?_⟩
        have hids' := (applyCondition_spec now scope topPID e' c c.key).2.2
        rw [← ha _ hs, hv] at hids'
        obtain ⟨hev, hagree⟩ := applyCondition_congr now topPID c hs ha
          fun h => by rw [hv] at h; cases h
        obtain ⟨h1, h2, h3⟩ := hcongr _ r hagree (hids'.trans hr)
        exact ⟨by rw [hev, h1], h2, h3⟩

theorem resolveMissing_congr (rt rt' : Runtime) (now : ℤ) (seen : List String) (scope : Scope)
    (clearAfter : ℤ) (ha : Agree scope e e') :
    let p := resolveMissing rt now seen scope clearAfter e
    let q := resolveMissing rt' now seen scope clearAfter e'
    q.2.Perm p.2 ∧ Agree scope p.1 q.1 := by
  have hp := resolveMissing_key rt now seen scope clearAfter e
  have hq := resolveMissing_key rt' now seen scope clearAfter e'
  refine ⟨perm_of_eventsOf fun k => ?_, fun k hk => ?_⟩
  · rw [(hp k).2.1, (hq k).2.1]
    by_cases hs : withinScope scope k = true
    · rw [ha k hs]
    · have hm : ¬ Missing scope seen k := fun h => hs h.1
      rw [if_neg hm, if_neg hm]
  · rw [(hp k).1, (hq k).1, ha k hk]

variable (rt : Runtime)

/-- An evaluation draws some ids; on an engine that agrees on its scope and is about to
hand out the same ids it does the same, whatever the runtime chooses. -/
theorem emit_congr (now : ℤ) (cs : List Condition) (scope : Scope) (clearAfter topPID : ℤ) (e : Engine) :
    ∃ xs, e.ids = xs ++ₛ (emit rt now cs scope clearAfter topPID e).1.ids ∧
      ∀ rt' e' r, Agree scope e e' → e'.ids = xs ++ₛ r →
        let p := emit rt now cs scope clearAfter topPID e
        let q := emit rt' now cs scope clearAfter topPID e'
        q.2.Perm p.2 ∧ Agree scope p.1 q.1 ∧ q.1.ids = r := by
  obtain ⟨xs, hxs, hcongr⟩ := applyConditions_congr now scope topPID cs e
  have hids (rt : Runtime) (e : Engine) : (emit rt now cs scope clearAfter topPID e).1.ids =
      (applyConditions now scope topPID cs e).1.ids :=
    (resolveMissing_key rt now (seenKeys scope cs) scope clearAfter _ "").2.2
  refine ⟨xs, by rw [hids]; exact hxs, fun rt' e' r ha hr => ?_⟩
  obtain ⟨h1, h2, h3⟩ := hcongr e' r ha hr
  obtain ⟨h4, h5⟩ := resolveMissing_congr rt rt' now (seenKeys scope cs) scope clearAfter h2
  rw [emit_eq, emit_eq]
  refine ⟨?_, h5, (hids rt' e').trans h3⟩
  dsimp only
  rw [h1]
  exact h4.append_left _

theorem emit_frame (now : ℤ) (cs : List Condition) {scope other : Scope} (clearAfter topPID : ℤ)
    (e : Engine) (h : scope ≠ other) : Agree other e (emit rt now cs scope clearAfter topPID e).1 := by
  intro k hk
  refine ((emit_key rt now cs scope clearAfter topPID e k).1 ?_).1.symm
  rw [← Bool.not_eq_true, withinScope_iff, ← withinScope_iff.mp hk]
  exact h

theorem Agree.symm (h : Agree scope e e') : Agree scope e' e :=
  fun k hk => (h k hk).symm

theorem Agree.trans {e'' : Engine} (h : Agree scope e e') (h' : Agree scope e' e'') :
    Agree scope e e'' := fun k hk => (h k hk).trans (h' k hk)

/-- The outcome of two evaluations of different scopes, in either order. -/
theorem emit_comm (e : Engine) {s t : Scope} (hst : s ≠ t) (rt₁ rt₂ rt₃ rt₄ : Runtime)
    (now₁ now₂ : ℤ) (cs ds : List Condition) (n₁ n₂ pid₁ pid₂ : ℤ) :
    ∃ xs ys rest, e.ids = xs ++ₛ (ys ++ₛ rest) ∧
      let a := emit rt₁ now₁ cs s n₁ pid₁ e
      let ab := emit rt₂ now₂ ds t n₂ pid₂ a.1
      let b := emit rt₃ now₂ ds t n₂ pid₂ { e with ids := ys ++ₛ (xs ++ₛ rest) }
      let ba := emit rt₄ now₁ cs s n₁ pid₁ b.1
      ab.1 = ba.1 ∧ ba.2.Perm a.2 ∧ b.2.Perm ab.2 := by
  obtain ⟨xs, hxs, ha⟩ := emit_congr rt₁ now₁ cs s n₁ pid₁ e
  obtain ⟨ys, hys, hb⟩ := emit_congr rt₂ now₂ ds t n₂ pid₂ (emit rt₁ now₁ cs s n₁ pid₁ e).1
  refine ⟨xs, ys, _, hys ▸ hxs, ?_⟩
  intro a ab b ba
  have hab (u : Scope) (hu : t ≠ u) : Agree u a.1 ab.1 := emit_frame rt₂ now₂ ds n₂ pid₂ a.1 hu
  have hea (u : Scope) (hu : s ≠ u) : Agree u e a.1 := emit_frame rt₁ now₁ cs n₁ pid₁ e hu
  have heb (u : Scope) (hu : t ≠ u) : Agree u e b.1 :=
    emit_frame rt₃ now₂ ds n₂ pid₂ { e with ids := ys ++ₛ (xs ++ₛ ab.1.ids) } hu
  have hba (u : Scope) (hu : s ≠ u) : Agree u b.1 ba.1 := emit_frame rt₄ now₁ cs n₁ pid₁ b.1 hu
  obtain ⟨b1, b2, b3⟩ := hb rt₃ { e with ids := ys ++ₛ (xs ++ₛ ab.1.ids) } _ (hea t hst).symm rfl
  obtain ⟨a1, a2, a3⟩ := ha rt₄ b.1 _ (heb s (Ne.symm hst)) b3
  refine ⟨ext_view (fun k => (?_ : ∀ u, Agree u _ _) _ k (withinScope_iff.mpr rfl)) a3.symm, a1, b1⟩
  intro u
  by_cases hs : s = u
  · subst hs
    exact (hab s (Ne.symm hst)).symm.trans a2
  · by_cases ht : t = u
    · subst ht
      exact b2.trans (hba t hst)
    · exact (hab u ht).symm.trans ((hea u hs).symm.trans ((heb u ht).trans (hba u hs)))

theorem keys_emit_nodup (now : ℤ) {cs : List Condition} (scope : Scope) (clearAfter topPID : ℤ)
    (e : Engine) (hcs : (cs.map Condition.key).Nodup) :
    ((emit rt now cs scope clearAfter topPID e).2.map fun ev => ev.alert.key).Nodup := by
  rw [nodup_iff_count_le_one]
  intro k
  rw [count_eq_countP, countP_map, countP_eq_length_filter]
  have h := emit_length (k := k) rt now scope clearAfter topPID e
    (nodup_iff_count_le_one.mp hcs k)
  exact h

theorem step_eq_evaluate {op : Op} {cs : List Condition} (h : op.evaluation = some (scope, cs)) :
    ∃ now topPID, ∀ rt e, step rt op e = evaluate rt now cs scope scope.clearAfter topPID e := by
  cases op with
  | evaluateSlow now cs =>
    obtain ⟨rfl, rfl⟩ := Prod.mk.inj (Option.some.inj h)
    exact ⟨now, 0, fun _ _ => rfl⟩
  | evaluateSpawn now cs topPID =>
    obtain ⟨rfl, rfl⟩ := Prod.mk.inj (Option.some.inj h)
    exact ⟨now, topPID.headD (-1), fun _ _ => rfl⟩
  | evaluateSustained now cs =>
    obtain ⟨rfl, rfl⟩ := Prod.mk.inj (Option.some.inj h)
    exact ⟨now, -1, fun _ _ => rfl⟩
  | setDetail key detail | ack id now => cases h

/-- Independence of the scopes. Every key has one scope; an evaluation touches no key of
another scope; and two evaluations of different scopes commute, up to which of the freshly
drawn ids goes to which alert. -/
theorem scopes_independent :
    (∀ k, ∃! scope, withinScope scope k = true) ∧
    (∀ rt op e scope cs, op.evaluation = some (scope, cs) → ∀ k, withinScope scope k = false →
      (step rt op e).1.active[k]? = e.active[k]? ∧ (step rt op e).1.clears[k]? = e.clears[k]? ∧
      (step rt op e).1.parents[k]? = e.parents[k]? ∧ ∀ ev ∈ (step rt op e).2, ev.alert.key ≠ k) ∧
    (∀ e op op' s s' cs cs', op.evaluation = some (s, cs) → op'.evaluation = some (s', cs') →
      s ≠ s' → ∀ rt₁ rt₂ rt₃ rt₄, ∃ xs ys rest, e.ids = xs ++ₛ (ys ++ₛ rest) ∧
        let a := step rt₁ op e
        let ab := step rt₂ op' a.1
        let b := step rt₃ op' { e with ids := ys ++ₛ (xs ++ₛ rest) }
        let ba := step rt₄ op b.1
        ab.1 = ba.1 ∧ ba.2.Perm a.2 ∧ b.2.Perm ab.2 ∧
          ((cs.map Condition.key).Nodup → ba.2 = a.2) ∧
          ((cs'.map Condition.key).Nodup → b.2 = ab.2)) := by
  refine ⟨fun k => ⟨scopeOf k, withinScope_iff.mpr rfl, fun _ h => withinScope_iff.mp h⟩, ?_, ?_⟩
  · intro rt op e scope cs hop k hk
    obtain ⟨now, topPID, hstep⟩ := step_eq_evaluate hop
    obtain ⟨hview, hev⟩ := (emit_key rt now cs scope scope.clearAfter topPID e k).1 hk
    rw [hstep]
    refine ⟨congrArg KeyView.alert hview, congrArg KeyView.clear hview,
      congrArg KeyView.parent hview, fun ev hmem he => ?_⟩
    have : ev ∈ eventsOf k (emit rt now cs scope scope.clearAfter topPID e).2 :=
      mem_filter.mpr ⟨rt.sort.mem_sort.mp hmem, by simpa using he⟩
    rw [hev] at this
    cases this
  · intro e op op' s s' cs cs' hop hop' hs rt₁ rt₂ rt₃ rt₄
    obtain ⟨now, pid, hstep⟩ := step_eq_evaluate hop
    obtain ⟨now', pid', hstep'⟩ := step_eq_evaluate hop'
    obtain ⟨xs, ys, rest, hids, heq, ha, hb⟩ := emit_comm e hs rt₁ rt₂ rt₃ rt₄ now now' cs cs'
      s.clearAfter s'.clearAfter pid pid'
    refine ⟨xs, ys, rest, hids, ?_⟩
    simp only [hstep, hstep']
    refine ⟨heq, ?_, ?_, fun hn => ?_, fun hn => ?_⟩
    · exact ((rt₄.sort.perm _).trans ha).trans (rt₁.sort.perm _).symm
    · exact ((rt₃.sort.perm _).trans hb).trans (rt₂.sort.perm _).symm
    · exact rt₄.sort.sort_eq_of_perm rt₁.sort ha (keys_emit_nodup rt₄ now s _ pid _ hn)
    · exact rt₃.sort.sort_eq_of_perm rt₂.sort hb (keys_emit_nodup rt₃ now' s' _ pid' _ hn)

end Engine
end Spectra.Hostwatch
