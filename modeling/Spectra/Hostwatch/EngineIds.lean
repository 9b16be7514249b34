import Spectra.Hostwatch.EngineRuns

/-! Which id belongs to which alert. -/
namespace Spectra.Hostwatch
open Library KeyView Option

namespace KeyView
variable (now : ℤ) (scope : Scope) (topPID : ℤ) {v : KeyView} (id : String)

/-- Conditions on a key without an alert give it one with the next id. -/
theorem applyAll_new {cs : List Condition} (hcs : cs ≠ []) (hv : v.alert = none) :
    (∃ b, (v.applyAll now scope topPID id cs).1.alert = some b ∧ b.id = id) ∧
      ∀ ev ∈ (v.applyAll now scope topPID id cs).2, ev.alert.id = id := by
  cases cs with
  | nil => exact absurd rfl hcs
  | cons c cs =>
    rw [applyAll_cons]
    have hfirst : v.apply now scope topPID id c =
        (⟨some (Engine.fire c id now), some 0, v.notedParent scope topPID⟩,
          some ⟨.fired, Engine.fire c id now⟩) := by
      unfold apply
      rw [hv]
    rw [hfirst]
    by_cases hn : cs = []
    · subst hn
      simp [applyAll, Engine.fire]
    · obtain ⟨⟨b, hb, hkeep⟩, hev⟩ := (hit_applyAll
        (v := ⟨some (Engine.fire c id now), some 0, v.notedParent scope topPID⟩)
        now scope topPID id hn).keeps _ rfl
      refine ⟨⟨b, hb, hkeep.1⟩, fun ev h => ?_⟩
      rcases List.mem_append.mp h with h | h
      · simp only [toList_some, List.mem_singleton] at h
        rw [h]
        rfl
      · exact (hev ev h).1

variable {S P : Alert → Prop}

theorem apply_all {c : Condition} (hv : ∀ a ∈ v.alert, S a) (hrefresh : ∀ a, S a → P (a.refresh c))
    (hfire : P (Engine.fire c id now)) :
    (∀ a ∈ (v.apply now scope topPID id c).1.alert, P a) ∧ ∀ ev ∈ (v.apply now scope topPID id c).2, P ev.alert := by
  rw [apply]
  cases ha : v.alert with
  | none => exact ⟨by simpa using hfire, by simpa using hfire⟩
  | some a =>
    have hP := hrefresh a (hv a ha)
    refine ⟨by simpa using hP, fun ev hev => ?_⟩
    dsimp only at hev
    split at hev
    · rw [← some.inj hev]
      exact hP
    · cases hev

/-- What every condition gives the alert it fires or refreshes holds of the alert and the events. -/
theorem applyAll_all (cs : List Condition) (hPS : ∀ a, P a → S a)
    (hcs : ∀ c ∈ cs, (∀ a, S a → P (a.refresh c)) ∧ P (Engine.fire c id now))
    (hS : ∀ a ∈ v.alert, S a) (hv : cs = [] → ∀ a ∈ v.alert, P a) :
    (∀ a ∈ (v.applyAll now scope topPID id cs).1.alert, P a) ∧
      ∀ ev ∈ (v.applyAll now scope topPID id cs).2, P ev.alert := by
  induction cs generalizing v with
  | nil => exact ⟨hv rfl, by simp [applyAll]⟩
  | cons c cs ih =>
    obtain ⟨hrefresh, hfire⟩ := hcs c List.mem_cons_self
    obtain ⟨hone, hevent⟩ := apply_all now scope topPID id hS hrefresh hfire
    obtain ⟨halert, hevents⟩ := ih (fun c hc => hcs c (.tail _ hc)) (fun a ha => hPS a (hone a ha)) fun _ => hone
    refine ⟨halert, fun ev hev => ?_⟩
    rcases List.mem_append.mp hev with hev | hev
    · exact hevent ev (mem_toList.mp hev)
    · exact hevents ev hev

theorem miss_alert {now clearAfter : ℤ} {a : Alert} (h : (v.miss now clearAfter).1.alert = some a) :
    v.alert = some a := by
  cases hv : v.alert with
  | none => simp [miss, hv] at h
  | some b =>
    have hmiss := miss_spec now clearAfter hv
    split at hmiss
    · rwa [hmiss] at h
    · rw [hmiss] at h
      cases h

end KeyView

namespace Engine
variable {e : Engine} {k : String}

/-- Where an alert of a key comes from: it was there, or has one of the next ids. -/
def Origin (e : Engine) (k : String) (b : Alert) : Prop :=
  (∃ a, e.active[k]? = some a ∧ a.Keeps b) ∨ e.active[k]? = none ∧ ∃ n, b.id = e.ids.get n

/-- What a call does to the alert of a key, with the events it returns for it. -/
inductive Outcome (e : Engine) (k : String) (after : Option Alert) (out : List Event) : Prop
  | quiet (halert : ∀ b, after = some b → ∃ a, e.active[k]? = some a ∧ a.Keeps b ∧ b.state = a.state)
      (hout : out = [])
  | hit (b : Alert) (halert : after = some b) (horigin : e.Origin k b)
      (hout : ∀ ev ∈ out, ev.type ≠ .resolved ∧ ev.alert.id = b.id ∧ e.Origin k ev.alert)
      (hfiring : (∀ a ∈ e.active[k]?, a.state = .firing) → b.state = .firing ∧ ∀ ev ∈ out, ev.alert.state = .firing)
  | resolved (a : Alert) (now : ℤ) (ha : e.active[k]? = some a) (halert : after = none)
      (hout : out = [⟨.resolved, resolve a now⟩])

theorem outcome_replaced {v : KeyView} (h : (e.view k).Replaced v) : Outcome e k v.alert [] := by
  rcases h with rfl | ⟨a, b, ha, hkeep, hstate, rfl⟩
  · exact .quiet (fun b hb => ⟨b, hb, .refl b, rfl⟩) rfl
  · refine .quiet (fun b' hb => ?_) rfl
    cases hb
    exact ⟨a, ha, hkeep, hstate⟩

theorem outcome_applyAll (now : ℤ) (scope : Scope) (topPID : ℤ) (n : ℕ) {cs : List Condition} (hcs : cs ≠ []) :
    Outcome e k ((e.view k).applyAll now scope topPID (e.ids.get n) cs).1.alert
      ((e.view k).applyAll now scope topPID (e.ids.get n) cs).2 := by
  have hhit := hit_applyAll (v := e.view k) now scope topPID (e.ids.get n) hcs
  have hfiring (h : ∀ a ∈ (e.view k).alert, a.state = .firing) :=
    applyAll_all (P := (·.state = .firing)) now scope topPID (e.ids.get n) cs
      (fun _ h => h) (fun _ _ => ⟨fun _ h => h, rfl⟩) h fun _ => h
  cases ha : e.active[k]? with
  | some a =>
    obtain ⟨⟨b, hb, hkeep⟩, hev⟩ := hhit.keeps a ha
    refine .hit b hb (.inl ⟨a, ha, hkeep⟩) (fun ev h => ?_) (fun h => ?_)
    · exact ⟨hhit.type ev h, (hev ev h).1.trans hkeep.1.symm, .inl ⟨a, ha, hev ev h⟩⟩
    · exact ⟨(hfiring h).1 b hb, (hfiring h).2⟩
  | none =>
    obtain ⟨⟨b, hb, hid⟩, hev⟩ :=
      applyAll_new (v := e.view k) now scope topPID (e.ids.get n) hcs ha
    refine .hit b hb (.inr ⟨ha, n, hid⟩) (fun ev h => ?_) (fun h => ?_)
    · exact ⟨hhit.type ev h, (hev ev h).trans hid.symm, .inr ⟨ha, n, hev ev h⟩⟩
    · exact ⟨(hfiring h).1 b hb, (hfiring h).2⟩

theorem outcome_miss (now clearAfter : ℤ) :
    Outcome e k ((e.view k).miss now clearAfter).1.alert ((e.view k).miss now clearAfter).2.toList := by
  cases ha : e.active[k]? with
  | none =>
    have hmiss : (e.view k).miss now clearAfter = (e.view k, none) := by
      rw [miss, show (e.view k).alert = none from ha]
    rw [hmiss]
    exact outcome_replaced (.inl rfl)
  | some a =>
    have hmiss := miss_spec now clearAfter (v := e.view k) ha
    split at hmiss
    · rw [hmiss]
      refine .quiet (fun b hb => ?_) rfl
      cases hb
      exact ⟨a, ha, .refl a, rfl⟩
    · rw [hmiss]
      exact .resolved a now ha rfl rfl

theorem outcome_stepEmit (rt : Runtime) (op : Op) (e : Engine) (k : String) :
    Outcome e k (stepEmit rt op e).1.active[k]? (eventsOf k (stepEmit rt op e).2) := by
  rcases stepEmit_key rt op e k with
    ⟨-, hout, hrep⟩ | ⟨cs, -, ⟨hk, now, topPID, i, hv, hout⟩ | ⟨-, now, hv, hout⟩⟩
  · rw [hout]
    exact outcome_replaced hrep
  · have halert : (stepEmit rt op e).1.active[k]? = _ := congrArg alert hv
    rw [halert, hout]
    exact outcome_applyAll now (scopeOf k) topPID i (filter_ne_nil hk)
  · have halert : (stepEmit rt op e).1.active[k]? = _ := congrArg alert hv
    rw [halert, hout]
    exact outcome_miss now _

theorem Outcome.perm {after : Option Alert} {out out' : List Event} (h : Outcome e k after out)
    (hp : out'.Perm out) : Outcome e k after out' := by
  cases h with
  | quiet halert hout => exact .quiet halert (hout ▸ hp).eq_nil
  | hit b halert horigin hout hfiring =>
    refine .hit b halert horigin (fun ev hev => hout ev (hp.mem_iff.mp hev)) fun hf => ?_
    exact ⟨(hfiring hf).1, fun ev hev => (hfiring hf).2 ev (hp.mem_iff.mp hev)⟩
  | resolved a now ha halert hout =>
    exact .resolved a now ha halert (List.perm_singleton.mp (hout ▸ hp))

theorem outcome_step (rt : Runtime) (op : Op) (e : Engine) (k : String) :
    Outcome e k (step rt op e).1.active[k]? (eventsOf k (step rt op e).2) := by
  rw [step_fst]
  exact (outcome_stepEmit rt op e k).perm ((step_perm rt op e).filter _)

theorem origin_step {rt : Runtime} {op : Op} {b : Alert} (hb : (step rt op e).1.active[k]? = some b) :
    e.Origin k b := by
  cases outcome_step rt op e k with
  | quiet halert =>
    obtain ⟨a, ha, hkeep, -⟩ := halert b hb
    exact .inl ⟨a, ha, hkeep⟩
  | hit b' halert horigin =>
    obtain rfl : b' = b := mem_unique halert hb
    exact horigin
  | resolved a now _ halert =>
    rw [halert] at hb
    cases hb

/-- No active alert has the id. -/
def NoAlert (i : String) (e : Engine) : Prop :=
  ∀ (k : String) (a : Alert), e.active[k]? = some a → a.id ≠ i

/-- No two keys have alerts with the id `i`, and none has if the generator is still to hand
it out; it hands out no id twice. -/
structure OwnId (i : String) (e : Engine) : Prop where
  injective : Function.Injective e.ids.get
  fresh : ∀ n, e.ids.get n = i → NoAlert i e
  unique : ∀ (k k' : String) (a a' : Alert), e.active[k]? = some a → e.active[k']? = some a' →
    a.id = i → a'.id = i → k = k'

/-- The generator never goes back. -/
def Later (e e' : Engine) : Prop := ∀ n, ∃ m, e'.ids.get n = e.ids.get m

variable {e' : Engine} {i : String}

theorem Later.trans {e'' : Engine} (h : Later e e') (h' : Later e' e'') : Later e e'' := by
  intro n
  obtain ⟨m, hm⟩ := h' n
  obtain ⟨l, hl⟩ := h m
  exact ⟨l, hm.trans hl⟩

theorem Later.past (h : Later e e') (hi : ∀ n, e.ids.get n ≠ i) (n : ℕ) : e'.ids.get n ≠ i := by
  obtain ⟨m, hm⟩ := h n
  rw [hm]
  exact hi m

theorem Later.of_eq (h : e'.ids = e.ids) : Later e e' := fun n => ⟨n, by rw [h]⟩

theorem OwnId.of_kept (h : OwnId i e) (hids : e'.ids = e.ids)
    (hkept : ∀ (k : String) (b : Alert), e'.active[k]? = some b →
      ∃ a, e.active[k]? = some a ∧ b.id = a.id) : OwnId i e' := by
  refine ⟨hids ▸ h.injective, fun n hn k b hb => ?_, fun k k' b b' hb hb' hi hi' => ?_⟩
  · obtain ⟨a, ha, hid⟩ := hkept k b hb
    rw [hid]
    exact h.fresh n (hids ▸ hn) k a ha
  · obtain ⟨a, ha, hid⟩ := hkept k b hb
    obtain ⟨a', ha', hid'⟩ := hkept k' b' hb'
    exact h.unique k k' a a' ha ha' (hid ▸ hi) (hid' ▸ hi')

/-- A key that fires takes the next id. -/
theorem OwnId.of_fired (key : String) (h : OwnId i e) (hids : e'.ids = e.ids.tail)
    (hactive : ∀ (k : String) (b : Alert), e'.active[k]? = some b →
      k = key ∧ b.id = e.ids.head ∨ ∃ a, e.active[k]? = some a ∧ b.id = a.id) : OwnId i e' := by
  have hhead : e.ids.head = e.ids.get 0 := rfl
  have htail (n : ℕ) : e'.ids.get n = e.ids.get (n + 1) := by
    rw [hids]
    rfl
  have hnew {k : String} {a : Alert} (hi : e.ids.head = i) (ha : e.active[k]? = some a) : a.id ≠ i :=
    h.fresh 0 (hhead ▸ hi) k a ha
  refine ⟨fun n m hnm => ?_, fun n hn k b hb => ?_, fun k k' b b' hb hb' hi hi' => ?_⟩
  · rw [htail, htail] at hnm
    have := h.injective hnm
    omega
  · rw [htail] at hn
    rcases hactive k b hb with ⟨-, hid⟩ | ⟨a, ha, hid⟩
    · rw [hid, ← hn]
      intro heq
      have := h.injective heq
      omega
    · rw [hid]
      exact h.fresh (n + 1) hn k a ha
  · rcases hactive k b hb with ⟨hk, hid⟩ | ⟨a, ha, hid⟩
    · rcases hactive k' b' hb' with ⟨hk', -⟩ | ⟨a', ha', hid'⟩
      · rw [hk, hk']
      · exact absurd (hid' ▸ hi') (hnew (hid ▸ hi) ha')
    · rcases hactive k' b' hb' with ⟨-, hid'⟩ | ⟨a', ha', hid'⟩
      · exact absurd (hid ▸ hi) (hnew (hid' ▸ hi') ha)
      · exact h.unique k k' a a' ha ha' (hid ▸ hi) (hid' ▸ hi')

section
variable (now : ℤ) (scope : Scope) (topPID : ℤ)

theorem ownId_applyCondition (c : Condition) (h : OwnId i e) : OwnId i (applyCondition now c scope topPID e).1 := by
  have hspec := applyCondition_spec now scope topPID e c
  have hids := (hspec c.key).2.2
  have hactive (k : String) : (applyCondition now c scope topPID e).1.active[k]? =
      if c.key = k then ((e.view c.key).apply now scope topPID e.ids.head c).1.alert
      else e.active[k]? := by
    have hview := congrArg alert (hspec k).1
    split at hview
    · rename_i hk
      rw [if_pos hk]
      exact hview
    · rename_i hk
      rw [if_neg hk]
      exact hview
  cases ha : e.active[c.key]? with
  | none =>
    have halert : (e.view c.key).alert = none := ha
    simp only [halert] at hids
    refine h.of_fired c.key hids fun k b hb => ?_
    rw [hactive] at hb
    split at hb
    · rename_i hk
      refine .inl ⟨hk.symm, ?_⟩
      simp only [apply, halert, some.injEq] at hb
      rw [← hb]
      rfl
    · exact .inr ⟨b, hb, rfl⟩
  | some a =>
    have halert : (e.view c.key).alert = some a := ha
    simp only [halert] at hids
    refine h.of_kept hids fun k b hb => ?_
    rw [hactive] at hb
    split at hb
    · rename_i hk
      simp only [apply, halert, some.injEq] at hb
      exact ⟨a, hk ▸ ha, by rw [← hb]; rfl⟩
    · exact ⟨b, hb, rfl⟩

theorem ownId_applyConditions (cs : List Condition) (h : OwnId i e) :
    OwnId i (applyConditions now scope topPID cs e).1 := by
  induction cs generalizing e with
  | nil => exact h
  | cons c cs ih =>
    rw [applyConditions_cons]
    split
    · exact ih (ownId_applyCondition now scope topPID c h)
    · exact ih h

theorem later_applyConditions (cs : List Condition) (e : Engine) :
    Later e (applyConditions now scope topPID cs e).1 := by
  induction cs generalizing e with
  | nil => exact .of_eq rfl
  | cons c cs ih =>
    rw [applyConditions_cons]
    split
    · refine .trans (fun n => ?_) (ih _)
      rw [(applyCondition_spec now scope topPID e c c.key).2.2]
      split
      · exact ⟨n, rfl⟩
      · exact ⟨n + 1, rfl⟩
    · exact ih e

end

variable (rt : Runtime)

theorem ids_resolveMissing (now : ℤ) (seen : List String) (scope : Scope) (clearAfter : ℤ)
    (e : Engine) : (resolveMissing rt now seen scope clearAfter e).1.ids = e.ids :=
  (resolveMissing_key rt now seen scope clearAfter e "").2.2

theorem resolveMissing_kept {rt : Runtime} {now : ℤ} {seen : List String} {scope : Scope} {clearAfter : ℤ} {b : Alert}
    (hb : (resolveMissing rt now seen scope clearAfter e).1.active[k]? = some b) : e.active[k]? = some b := by
  have hview := congrArg alert (resolveMissing_key rt now seen scope clearAfter e k).1
  rw [show ((resolveMissing rt now seen scope clearAfter e).1.view k).alert = some b from hb] at hview
  split at hview
  · exact miss_alert hview.symm
  · exact hview.symm

theorem ids_setDetail (key detail : String) (e : Engine) : (e.setDetail key detail).1.ids = e.ids := by
  rw [setDetail]
  split
  · rfl
  · split <;> rfl

theorem ids_ack (id : String) (now : ℤ) (e : Engine) : (e.ack rt id now).1.ids = e.ids := by
  rw [ack]
  split <;> rfl

/-- The alerts are the same episodes as before, under the same keys. -/
structure SameAlerts (e e' : Engine) : Prop where
  ids : e'.ids = e.ids
  alert : ∀ (k : String) (b : Alert), e'.active[k]? = some b →
    ∃ a, e.active[k]? = some a ∧ a.Keeps b ∧ b.state = a.state
  kept : ∀ (k : String) (a : Alert), e.active[k]? = some a → ∃ b, e'.active[k]? = some b ∧ a.Keeps b

theorem SameAlerts.refl (e : Engine) : SameAlerts e e :=
  ⟨rfl, fun _ b hb => ⟨b, hb, .refl b, rfl⟩, fun _ a ha => ⟨a, ha, .refl a⟩⟩

theorem SameAlerts.trans {e'' : Engine} (h : SameAlerts e e') (h' : SameAlerts e' e'') : SameAlerts e e'' := by
  refine ⟨h'.ids.trans h.ids, fun k c hc => ?_, fun k a ha => ?_⟩
  · obtain ⟨b, hb, hkeep', hs'⟩ := h'.alert k c hc
    obtain ⟨a, ha, hkeep, hs⟩ := h.alert k b hb
    exact ⟨a, ha, hkeep.trans hkeep', hs'.trans hs⟩
  · obtain ⟨b, hb, hkeep⟩ := h.kept k a ha
    obtain ⟨c, hc, hkeep'⟩ := h'.kept k b hb
    exact ⟨c, hc, hkeep.trans hkeep'⟩

theorem SameAlerts.of_replaced (hids : e'.ids = e.ids)
    (h : ∀ k, (e.view k).Replaced (e'.view k)) : SameAlerts e e' := by
  refine ⟨hids, fun k b hb => ?_, fun k a ha => ?_⟩
  · rcases h k with hv | ⟨a, b', ha, hkeep, hstate, hv⟩
    · exact ⟨b, (congrArg KeyView.alert hv).symm.trans hb, .refl b, rfl⟩
    · obtain rfl : b' = b := some.inj ((congrArg KeyView.alert hv).symm.trans hb)
      exact ⟨a, ha, hkeep, hstate⟩
  · rcases h k with hv | ⟨a', b, ha', hkeep, -, hv⟩
    · exact ⟨a, (congrArg KeyView.alert hv).trans ha, .refl a⟩
    · obtain rfl := mem_unique ha' ha
      exact ⟨b, congrArg KeyView.alert hv, hkeep⟩

theorem SameAlerts.ownId (hsame : SameAlerts e e') (h : OwnId i e) : OwnId i e' := by
  refine h.of_kept hsame.ids fun k b hb => ?_
  obtain ⟨a, ha, hkeep, -⟩ := hsame.alert k b hb
  exact ⟨a, ha, hkeep.1⟩

theorem sameAlerts_step (op : Op) (hop : op.evaluation = none) (e : Engine) : SameAlerts e (step rt op e).1 := by
  rw [step_fst]
  rcases step_cases rt op e with ⟨now, cs, scope, topPID, hop', -⟩ | ⟨-, -, hview⟩
  · rw [hop] at hop'
    cases hop'
  · refine .of_replaced ?_ hview
    cases op with
    | setDetail key detail => exact ids_setDetail key detail e
    | ack id now => exact ids_ack rt id now e
    | _ => cases hop

theorem ownId_step (op : Op) (h : OwnId i e) : OwnId i (step rt op e).1 := by
  rcases step_cases rt op e with ⟨now, cs, scope, topPID, -, hstep⟩ | ⟨hop, -⟩
  · rw [step_fst, hstep]
    exact (ownId_applyConditions now scope topPID cs h).of_kept (ids_resolveMissing rt now _ scope _ _)
      fun k b hb => ⟨b, resolveMissing_kept hb, rfl⟩
  · exact (sameAlerts_step rt op hop e).ownId h

theorem later_step (op : Op) (e : Engine) : Later e (step rt op e).1 := by
  rcases step_cases rt op e with ⟨now, cs, scope, topPID, -, hstep⟩ | ⟨hop, -⟩
  · rw [step_fst, hstep]
    exact (later_applyConditions now scope topPID cs e).trans (.of_eq (ids_resolveMissing rt now _ scope _ _))
  · exact .of_eq (sameAlerts_step rt op hop e).ids

end Engine
end Spectra.Hostwatch
