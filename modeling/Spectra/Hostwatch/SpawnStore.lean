import Spectra.Hostwatch.SpawnProbe
import Spectra.Hostwatch.Acknowledge

/-! The stored rows of spawn alerts against the engine's alerts. -/
namespace Spectra.Hostwatch
open Library Engine List Condition KeyView Engine Option

def SpawnRow (i severity : String) (t : AlertTable) : Prop :=
  ∃ r, t[i]? = some r ∧ r.state = .firing ∧ spawnKey r.key = true ∧ r.severity = severity

def SpawnActive (i severity : String) (e : Engine) : Prop :=
  ∃ (k : String) (a : Alert), e.active[k]? = some a ∧ spawnKey k = true ∧ a.id = i ∧
    a.severity = severity

section
variable {e : Engine} {rt : Runtime} {now : ℤ} {conds : List Condition} {topPID : List ℤ}
  {k : String}

/-- What a spawn evaluation does to the alert of a spawn key that has at most one condition. -/
inductive SpawnOutcome (e : Engine) (k : String) (conds : List Condition) (after : Option Alert)
    (out : List Event) : Prop
  | quiet (hbefore : e.active[k]? = none) (hafter : after = none) (hout : out = [])
  | fired (a : Alert) (n : ℕ) (hbefore : e.active[k]? = none) (hafter : after = some a)
      (hstate : a.state = .firing) (hid : a.id = e.ids.get n) (hout : out = [⟨.fired, a⟩])
  | kept (a b : Alert) (hbefore : e.active[k]? = some a) (hafter : after = some b)
      (hid : b.id = a.id) (hstate : b.state = a.state)
      (hout : out = [] ∧ b.severity = a.severity ∨ out = [⟨.updated, b⟩] ∧ k ∈ conds.map Condition.key)
  | resolved (a : Alert) (now : ℤ) (hbefore : e.active[k]? = some a) (hafter : after = none)
      (hout : out = [⟨.resolved, resolve a now⟩])

private theorem spawnOutcome_apply (now : ℤ) (topPID : ℤ) (n : ℕ) {c : Condition} (hk : k ∈ conds.map key) :
    SpawnOutcome e k conds ((e.view k).applyAll now .spawn topPID (e.ids.get n) [c]).1.alert
      ((e.view k).applyAll now .spawn topPID (e.ids.get n) [c]).2 := by
  rw [applyAll_cons]
  unfold apply applyAll
  cases ha : (e.view k).alert with
  | none => exact .fired _ n ha rfl rfl rfl rfl
  | some a =>
    refine .kept a (a.refresh c) ha rfl rfl rfl ?_
    dsimp only
    split
    · exact .inr ⟨rfl, hk⟩
    · rename_i hsame
      simp only [not_or, not_not] at hsame
      exact .inl ⟨rfl, hsame.1.symm⟩

theorem SpawnOutcome.perm {after : Option Alert} {out out' : List Event}
    (h : SpawnOutcome e k conds after out) (hp : out'.Perm out) : SpawnOutcome e k conds after out' := by
  have heq : out' = out := by
    cases h with
    | quiet _ _ hout =>
      subst hout
      exact hp.eq_nil
    | fired _ _ _ _ _ _ hout | resolved _ _ _ _ hout =>
      subst hout
      exact perm_singleton.mp hp
    | kept _ _ _ _ _ _ hout =>
      obtain ⟨rfl, _⟩ | ⟨rfl, _⟩ := hout
      · exact hp.eq_nil
      · exact perm_singleton.mp hp
  exact heq ▸ h

theorem spawnOutcome_step (e : Engine) (rt : Runtime) (now : ℤ) (topPID : List ℤ)
    (hk : spawnKey k = true) (hconds : (conds.map key).Nodup) :
    SpawnOutcome e k conds (e.step rt (.evaluateSpawn now conds topPID)).1.active[k]?
      (eventsOf k (e.step rt (.evaluateSpawn now conds topPID)).2) := by
  have hscope : scopeOf k = .spawn := by simp [scopeOf, hk]
  have hemit : SpawnOutcome e k conds (e.stepEmit rt (.evaluateSpawn now conds topPID)).1.active[k]?
      (eventsOf k (e.stepEmit rt (.evaluateSpawn now conds topPID)).2) := by
    obtain ⟨hop, _⟩ | ⟨cs, hop, ⟨hmem, now', pid, n, hv, hout⟩ | ⟨_, now', hv, hout⟩⟩ :=
      stepEmit_key rt (.evaluateSpawn now conds topPID) e k
    · exact absurd (by rw [hscope]; rfl) (hop conds)
    · obtain rfl : conds = cs := congrArg Prod.snd (some.inj hop)
      have halert : (e.stepEmit rt (.evaluateSpawn now conds topPID)).1.active[k]? = _ :=
        congrArg alert hv
      obtain ⟨c, hc⟩ : ∃ c, (conds.filter fun c => c.key = k) = [c] := by
        obtain ⟨c, hc, hkey⟩ := mem_map.mp hmem
        exact ⟨c, hkey ▸ filter_key_eq_singleton key hconds hc⟩
      rw [halert, hout, hscope, hc]
      exact spawnOutcome_apply now' pid n hmem
    · have halert : (e.stepEmit rt (.evaluateSpawn now conds topPID)).1.active[k]? = _ :=
        congrArg alert hv
      rw [halert, hout, miss]
      cases ha : (e.view k).alert with
      | none => exact .quiet ha ha rfl
      | some a =>
        dsimp only
        split
        · exact .kept a a ha rfl rfl rfl (.inl ⟨rfl, rfl⟩)
        · exact .resolved a now' ha rfl rfl
  exact hemit.perm ((step_perm rt _ e).filter _)

end

section
variable {now : ℤ} {previous : String → String} {a : Alert}

/-- Only updates that leave the severity as it is may be left out of an item. -/
theorem mem_item_of_event {events : List Event} (alerts : List Alert)
    (persisted : KeyMap SpawnPersistRecord) {ev : Event} (hev : ev ∈ events)
    (h : ev.type = .updated → previous ev.alert.key ≠ ev.alert.severity) :
    ev.alert ∈ (spawnPersistenceItem now previous events alerts persisted).1 := by
  have hmem : ∀ persisted, ev.alert ∈ (spawnItemEvents now previous events persisted).1 := by
    induction events with
    | nil => cases hev
    | cons ev' events ih =>
      intro persisted
      rw [spawnItemEvents]
      rcases mem_cons.mp hev with rfl | hev
      · split
        · exact .head _
        · rw [if_neg fun hskip => h hskip.1 hskip.2.1]
          exact .head _
      · split
        · exact .tail _ (ih hev _)
        · split
          · exact ih hev _
          · exact .tail _ (ih hev _)
  exact mem_append_left _ (hmem persisted)

private theorem spawnKey_of_mem_spawnItemActive {alerts : List Alert}
    {persisted : KeyMap SpawnPersistRecord} (h : a ∈ (spawnItemActive now alerts persisted).1) :
    spawnKey a.key = true := by
  induction alerts generalizing persisted with
  | nil => simp [spawnItemActive] at h
  | cons b alerts ih =>
    rw [spawnItemActive] at h
    split at h
    · exact ih h
    · rename_i hb
      rcases mem_cons.mp h with rfl | h
      · simp only [not_or, Bool.not_eq_false] at hb
        exact hb.1
      · exact ih h

end

/-- The alerts still to be written, in the order they will be. -/
def Watch.spawnPending (m : Watch) : List Alert :=
  m.writing ++ m.queue.flatten ++ m.published.getD []

def settle (pending : List Alert) (t : AlertTable) : AlertTable :=
  pending.foldl (fun t a => t.upsertAlert (toRow a)) t

/-- Where all alerts of an id are the same one, its row is what that alert makes of it. -/
theorem getElem?_settle {pending : List Alert} {x : Alert} (h : ∀ a ∈ pending, a.id = x.id → a = x) (t : AlertTable) :
    (settle pending t)[x.id]? =
      if x ∈ pending then some (t[x.id]?.elim (toRow x) fun r => r.update (toRow x)) else t[x.id]? := by
  induction pending generalizing t with
  | nil => rfl
  | cons a pending ih =>
    have hrest := ih (fun b hb => h b (.tail _ hb)) (t.upsertAlert (toRow a))
    rw [settle, foldl_cons, ← settle, hrest, AlertTable.getElem?_upsertAlert]
    by_cases hid : a.id = x.id
    · obtain rfl := h a (.head _) hid
      rw [if_pos (show (toRow a).id = a.id from rfl), if_pos mem_cons_self]
      split
      · cases t[a.id]? <;> rfl
      · rfl
    · rw [if_neg (show ¬ (toRow a).id = x.id from hid)]
      refine if_congr ⟨mem_cons_of_mem _, fun hmem => ?_⟩ rfl rfl
      rcases mem_cons.mp hmem with rfl | hmem
      · exact absurd rfl hid
      · exact hmem

theorem getElem?_settle_of_not_mem {pending : List Alert} {i : String}
    (h : ∀ a ∈ pending, a.id ≠ i) (t : AlertTable) : (settle pending t)[i]? = t[i]? := by
  induction pending generalizing t with
  | nil => rfl
  | cons a pending ih =>
    rw [settle, foldl_cons, ← settle, ih fun b hb => h b (.tail _ hb),
      AlertTable.getElem?_upsertAlert, if_neg (show ¬ (toRow a).id = i from h a (.head _))]

/-- The table agrees with the engine on the spawn alerts, and ids to come are not in use. -/
structure SpawnAgrees (e : Engine) (t : AlertTable) : Prop where
  iff : ∀ i severity, SpawnRow i severity t ↔ SpawnActive i severity e
  own : ∀ i, OwnId i e
  fresh : ∀ n, t[e.ids.get n]? = none
  firing : AllFiring e

section
variable {e : Engine} {t : AlertTable} {rt : Runtime} {now : ℤ} {conds : List Condition}
  {topPID : List ℤ} {persisted : KeyMap SpawnPersistRecord} {x : Alert}

def probeItem (e : Engine) (rt : Runtime) (now : ℤ) (conds : List Condition) (topPID : List ℤ)
    (persisted : KeyMap SpawnPersistRecord) : List Alert :=
  let r := e.step rt (.evaluateSpawn now conds topPID)
  (spawnPersistenceItem now (previousSeverity e conds) r.2 r.1.activeAlerts persisted).1

theorem item_cases (hconds : (conds.map key).Nodup) (hx : x ∈ probeItem e rt now conds topPID persisted) :
    spawnKey x.key = true ∧
      ((e.step rt (.evaluateSpawn now conds topPID)).1.active[x.key]? = some x ∨
        (e.step rt (.evaluateSpawn now conds topPID)).1.active[x.key]? = none ∧
          x.state = .resolved ∧ (∃ a, e.active[x.key]? = some a ∧ a.id = x.id) ∧
          eventsOf x.key (e.step rt (.evaluateSpawn now conds topPID)).2 = [⟨.resolved, x⟩]) := by
  rcases mem_append.mp hx with hx | hx
  · obtain ⟨ev, hev, rfl⟩ := mem_spawnItemEvents hx
    have hkey := withinScope_event (.evaluateSpawn now conds topPID) rfl hev
    refine ⟨hkey, ?_⟩
    have hmem := mem_eventsOf hev
    cases spawnOutcome_step e rt now topPID hkey hconds with
    | quiet _ _ hout =>
      rw [hout] at hmem
      cases hmem
    | fired a n _ hafter _ _ hout =>
      rw [hout, mem_singleton] at hmem
      rw [hmem] at hafter ⊢
      exact .inl hafter
    | kept a b _ hafter _ _ hout =>
      obtain ⟨hout, _⟩ | ⟨hout, _⟩ := hout
      · rw [hout] at hmem
        cases hmem
      · rw [hout, mem_singleton] at hmem
        rw [hmem] at hafter ⊢
        exact .inl hafter
    | resolved a now' hbefore hafter hout =>
      have hev' : ev = ⟨.resolved, resolve a now'⟩ := by simpa [hout] using hmem
      refine .inr ⟨hafter, ?_, ⟨a, hbefore, ?_⟩, hout.trans ?_⟩ <;> rw [hev'] <;> rfl
  · exact ⟨spawnKey_of_mem_spawnItemActive hx, .inl (mem_activeAlerts.mp (mem_spawnItemActive hx))⟩

theorem item_unique (hown : ∀ i, OwnId i e) (hconds : (conds.map key).Nodup)
    {y : Alert} (hx : x ∈ probeItem e rt now conds topPID persisted)
    (hy : y ∈ probeItem e rt now conds topPID persisted) (hid : y.id = x.id) : y = x := by
  have hown' : ∀ i, OwnId i (e.step rt (.evaluateSpawn now conds topPID)).1 :=
    fun i => ownId_step rt _ (hown i)
  have hmixed : ∀ {x y : Alert} {a : Alert}, y.id = x.id →
      (e.step rt (.evaluateSpawn now conds topPID)).1.active[x.key]? = some x →
      (e.step rt (.evaluateSpawn now conds topPID)).1.active[y.key]? = none →
      e.active[y.key]? = some a → a.id = y.id → False := by
    intro x y a hid hcur hnone hbefore hy
    have hya : a.id = x.id := hy.trans hid
    rcases origin_step hcur with ⟨b, hb, hba, -⟩ | ⟨-, n, hn⟩
    · have hkeys := (hown x.id).unique _ _ b a hb hbefore hba.symm hya
      rw [hkeys, hnone] at hcur
      cases hcur
    · exact (hown x.id).fresh n hn.symm _ a hbefore hya
  obtain ⟨_, hx | ⟨hx, _, ⟨a, ha, hxa⟩, hout⟩⟩ := item_cases hconds hx
  · obtain ⟨_, hy | ⟨hy, _, ⟨b, hb, hyb⟩, _⟩⟩ := item_cases hconds hy
    · have hkeys := (hown' x.id).unique _ _ y x hy hx hid rfl
      rw [hkeys, hx] at hy
      exact (some.inj hy).symm
    · exact (hmixed hid hx hy hb hyb).elim
  · obtain ⟨_, hy | ⟨hy, _, ⟨b, hb, hyb⟩, hout'⟩⟩ := item_cases hconds hy
    · exact (hmixed hid.symm hy hx ha hxa).elim
    · have hkeys := (hown x.id).unique _ _ b a hb ha (hyb.trans hid) hxa
      rw [hkeys, hout] at hout'
      simpa using hout'.symm

theorem active_of_not_mem_item (hconds : (conds.map key).Nodup) {i k : String}
    (hk : spawnKey k = true) (hno : ∀ x ∈ probeItem e rt now conds topPID persisted, x.id ≠ i) (severity : String) :
    (∃ a, e.active[k]? = some a ∧ a.id = i ∧ a.severity = severity) ↔
      ∃ b, (e.step rt (.evaluateSpawn now conds topPID)).1.active[k]? = some b ∧ b.id = i ∧ b.severity = severity := by
  have hmem : ∀ ev, ev ∈ eventsOf k (e.step rt (.evaluateSpawn now conds topPID)).2 →
      (ev.type = .updated → previousSeverity e conds ev.alert.key ≠ ev.alert.severity) →
      ev.alert.id ≠ i := by
    intro ev hev hsev
    exact hno _ (mem_item_of_event _ _ (mem_of_mem_filter hev) hsev)
  cases spawnOutcome_step e rt now topPID hk hconds with
  | quiet hbefore hafter _ => simp [hbefore, hafter]
  | fired a n hbefore hafter _ hid hout =>
    have := hmem ⟨.fired, a⟩ (hout ▸ mem_singleton_self _) (fun h => nomatch h)
    simp [hbefore, hafter, this]
  | kept a b hbefore hafter hid _ hout =>
    simp only [hbefore, hafter, some.injEq, exists_eq_left', hid]
    refine and_congr_right fun hi => ?_
    obtain ⟨_, hsev⟩ | ⟨hout, hkc⟩ := hout
    · rw [hsev]
    · have hsev : b.severity = a.severity := by
        by_contra hne
        refine hmem ⟨.updated, b⟩ (hout ▸ mem_singleton_self _) (fun _ => ?_) (hid.trans hi)
        have hkey : b.key = k := keyed _ hafter
        rw [previousSeverity, hkey, if_pos hkc, hbefore]
        exact fun h => hne h.symm
      rw [hsev]
  | resolved a now' hbefore hafter hout =>
    have hno' := hmem ⟨.resolved, resolve a now'⟩ (hout ▸ mem_singleton_self _)
      (fun h => nomatch h)
    have : a.id ≠ i := hno'
    simp [hbefore, hafter, this]

section
variable (h : SpawnAgrees e t) (hconds : (conds.map Condition.key).Nodup)
include h hconds

private theorem spawnRow_of_current (hx : x ∈ probeItem e rt now conds topPID persisted) (hkey : spawnKey x.key = true)
    (hcur : (e.step rt (.evaluateSpawn now conds topPID)).1.active[x.key]? = some x) (severity : String) :
    SpawnRow x.id severity (settle (probeItem e rt now conds topPID persisted) t) ↔
      SpawnActive x.id severity (e.step rt (.evaluateSpawn now conds topPID)).1 := by
  have hactive : SpawnActive x.id severity (e.step rt (.evaluateSpawn now conds topPID)).1 ↔
      x.severity = severity := by
    constructor
    · rintro ⟨k, b, hb, _, hid, rfl⟩
      have hkeys := (ownId_step rt _ (h.own x.id)).unique _ _ b x hb hcur hid rfl
      rw [hkeys, hcur] at hb
      rw [some.inj hb]
    · exact fun hs => ⟨x.key, x, hcur, hkey, rfl, hs⟩
  have hrowKey : ∀ r, t[x.id]? = some r → spawnKey r.key = true := by
    intro r hr
    rcases origin_step hcur with ⟨a, ha, hid, -⟩ | ⟨-, n, hn⟩
    · obtain ⟨r', hr', _, hk', _⟩ :=
        (h.iff x.id a.severity).mpr ⟨x.key, a, ha, hkey, hid.symm, rfl⟩
      rw [hr] at hr'
      rw [some.inj hr']
      exact hk'
    · rw [hn, h.fresh n] at hr
      cases hr
  have hstate := allFiring_step rt _ h.firing _ x hcur
  have hrow := getElem?_settle (fun a ha hid => item_unique h.own hconds hx ha hid) t
  rw [if_pos hx] at hrow
  rw [SpawnRow, hrow, hactive]
  cases ht : t[x.id]? with
  | none => simp [toRow, hstate, hkey]
  | some r => simp [AlertRow.update, toRow, hstate, hrowKey r ht]

private theorem spawnRow_of_resolved (hx : x ∈ probeItem e rt now conds topPID persisted)
    (hnone : (e.step rt (.evaluateSpawn now conds topPID)).1.active[x.key]? = none)
    (hstate : x.state = .resolved) {a : Alert} (ha : e.active[x.key]? = some a)
    (hxid : a.id = x.id) (severity : String) :
    SpawnRow x.id severity (settle (probeItem e rt now conds topPID persisted) t) ↔
      SpawnActive x.id severity (e.step rt (.evaluateSpawn now conds topPID)).1 := by
  have hrow := getElem?_settle (fun a ha hid => item_unique h.own hconds hx ha hid) t
  rw [if_pos hx] at hrow
  refine iff_of_false ?_ ?_
  · rintro ⟨r, hr, hfir, _⟩
    rw [hrow] at hr
    cases ht : t[x.id]? with
    | none | some r' =>
      rw [ht] at hr
      cases hr
      exact absurd (hstate.symm.trans hfir) (by decide)
  · rintro ⟨k, b, hb, _, hid, _⟩
    rcases origin_step hb with ⟨c, hc, hbc, -⟩ | ⟨-, n, hn⟩
    · have hkeys := (h.own x.id).unique _ _ c a hc ha (hbc.symm.trans hid) hxid
      rw [hkeys, hnone] at hb
      cases hb
    · exact absurd hxid ((h.own x.id).fresh n (hn.symm.trans hid) _ a ha)

private theorem spawnRow_of_not_mem {i : String}
    (hno : ∀ x ∈ probeItem e rt now conds topPID persisted, x.id ≠ i) (severity : String) :
    SpawnRow i severity (settle (probeItem e rt now conds topPID persisted) t) ↔
      SpawnActive i severity (e.step rt (.evaluateSpawn now conds topPID)).1 := by
  have hrow : SpawnRow i severity (settle (probeItem e rt now conds topPID persisted) t) ↔
      SpawnRow i severity t := by
    unfold SpawnRow
    rw [getElem?_settle_of_not_mem hno]
  rw [hrow, h.iff]
  constructor
  · rintro ⟨k, a, ha, hk, hid, hsev⟩
    obtain ⟨b, hb, hrest⟩ :=
      (active_of_not_mem_item hconds hk hno severity).mp ⟨a, ha, hid, hsev⟩
    exact ⟨k, b, hb, hk, hrest⟩
  · rintro ⟨k, b, hb, hk, hid, hsev⟩
    obtain ⟨a, ha, hrest⟩ :=
      (active_of_not_mem_item hconds hk hno severity).mpr ⟨b, hb, hid, hsev⟩
    exact ⟨k, a, ha, hk, hrest⟩

end

/-- What a probe captures keeps the table in agreement once it is written. -/
theorem SpawnAgrees.publish (h : SpawnAgrees e t) (rt : Runtime) (now : ℤ) (topPID : List ℤ)
    (persisted : KeyMap SpawnPersistRecord) (hconds : (conds.map key).Nodup) :
    SpawnAgrees (e.step rt (.evaluateSpawn now conds topPID)).1
      (settle (probeItem e rt now conds topPID persisted) t) := by
  have hown : ∀ i, OwnId i (e.step rt (.evaluateSpawn now conds topPID)).1 :=
    fun i => ownId_step rt _ (h.own i)
  refine ⟨fun i severity => ?_, hown, fun n => ?_, allFiring_step rt _ h.firing⟩
  · by_cases hitem : ∃ x ∈ probeItem e rt now conds topPID persisted, x.id = i
    · obtain ⟨x, hx, rfl⟩ := hitem
      obtain ⟨hkey, hcur | ⟨hnone, hstate, ⟨a, ha, hxid⟩, _⟩⟩ := item_cases hconds hx
      · exact spawnRow_of_current h hconds hx hkey hcur severity
      · exact spawnRow_of_resolved h hconds hx hnone hstate ha hxid severity
    · exact spawnRow_of_not_mem h hconds (fun x hx hid => hitem ⟨x, hx, hid⟩) severity
  · obtain ⟨m, hm⟩ := later_step rt (.evaluateSpawn now conds topPID) e n
    rw [getElem?_settle_of_not_mem, hm, h.fresh m]
    intro x hx hid
    obtain ⟨_, hcur | ⟨_, _, ⟨a, ha, hxa⟩, _⟩⟩ := item_cases hconds hx
    · exact (hown x.id).fresh n hid.symm _ x hcur rfl
    · exact (h.own x.id).fresh m (hm.symm.trans hid.symm) _ a ha hxa

end
namespace Watch
variable {m : Watch}

/-- The item of the probe under way, if it has alerts, finds room in the queue. -/
def HasRoom (m : Watch) : Prop :=
  m.published.getD [] = [] ∨ m.queue.length < spawnPersistQueueSize

instance (m : Watch) : Decidable m.HasRoom := inferInstanceAs (Decidable (_ ∨ _))

/-- The store, once everything is written that waits, agrees with the engine. -/
def Settles (m : Watch) : Prop := SpawnAgrees m.engine (settle m.spawnPending m.store)

variable (h : m.Settles)
include h

theorem Settles.publish (rt : Runtime) (now : ℤ) {conds : List Condition}
    (parentPID : ℤ) (hconds : (conds.map key).Nodup) : (m.step (.publishSpawn rt now conds parentPID)).Settles := by
  rw [step]
  split
  · rename_i hnone
    have hpending : m.spawnPending = m.writing ++ m.queue.flatten := by
      simp [spawnPending, hnone]
    rw [Settles, hpending] at h
    have hpublish := h.publish rt now [parentPID] m.spawnPersisted hconds
    rw [settle, settle, ← foldl_append] at hpublish
    exact hpublish
  · exact h

theorem Settles.enqueue (hroom : m.HasRoom) : (m.step .enqueueSpawn).Settles := by
  unfold step
  dsimp only
  split
  · exact h
  · rename_i item hitem
    have hpending : ∀ queue, queue.flatten = m.queue.flatten ++ item →
        ({ m with published := none, queue := queue } : Watch).spawnPending = m.spawnPending := by
      intro queue hqueue
      simp [spawnPending, hqueue, hitem]
    unfold Settles
    rw [hpending]
    · exact h
    · by_cases hnil : item = []
      · simp [hnil]
      · have hlen : m.queue.length < spawnPersistQueueSize := by
          refine hroom.resolve_left ?_
          rw [hitem]
          exact hnil
        rw [if_pos ⟨hnil, hlen⟩, flatten_append, flatten_singleton]

theorem Settles.receive : (m.step .receiveSpawn).Settles := by
  unfold step
  dsimp only
  split
  · rename_i item queue hwriting hqueue
    have hpending : ({ m with writing := item, queue := queue } : Watch).spawnPending =
        m.spawnPending := by
      simp [spawnPending, hwriting, hqueue]
    unfold Settles
    rw [hpending]
    exact h
  · exact h

theorem Settles.write : (m.step (.writeSpawn true)).Settles := by
  unfold step
  dsimp only
  split
  · exact h
  · rename_i a writing hwriting
    have hpending : m.spawnPending =
        a :: ({ m with writing := writing } : Watch).spawnPending := by
      simp [spawnPending, hwriting]
    rw [Settles, hpending] at h
    exact h

end Watch

namespace SpawnService
variable {cfg : SpawnThresholds} {s : SpawnService}

def RoomDuring (cfg : SpawnThresholds) : List SpawnOp → SpawnService → Prop
  | [], _ => True
  | op :: ops, s => (op = .enqueue → s.watch.HasRoom) ∧ RoomDuring cfg ops (s.step cfg op)

theorem settles_step (h : s.watch.Settles) {op : SpawnOp} (hroom : op = .enqueue → s.watch.HasRoom) :
    (s.step cfg op).watch.Settles := by
  cases op with
  | tick rt x =>
    change (if _ then _ else _ : SpawnService).watch.Settles
    split
    · exact h.publish rt x.now x.parentPID ((s.tracker.keys_sampleSpawn cfg x).nodup (by decide))
    · exact h
  | enqueue => exact h.enqueue (hroom rfl)
  | receive => exact h.receive
  | write => exact h.write

theorem settles_run {ops : List SpawnOp} (h : s.watch.Settles) (hroom : RoomDuring cfg ops s) :
    (s.run cfg ops).watch.Settles := by
  induction ops generalizing s with
  | nil => exact h
  | cons op ops ih => exact ih (settles_step h hroom.1) hroom.2

theorem settles_start {ids : Stream' String} {store : AlertTable}
    (hinj : Function.Injective ids.get) (hnew : ∀ n, store[ids.get n]? = none)
    (hstore : ∀ i severity, ¬ SpawnRow i severity store) : (start ids store).watch.Settles where
  iff i severity := by
    refine iff_of_false (hstore i severity) ?_
    rintro ⟨k, a, ha, _⟩
    simp [start, Watch.start, restore, new] at ha
  own i := by
    refine ⟨hinj, fun n _ k a ha => ?_, fun k k' a a' ha => ?_⟩ <;>
      simp [start, Watch.start, restore, new] at ha
  fresh := hnew
  firing k a ha := by
    simp [start, Watch.start, restore, new] at ha

end SpawnService

/-- Over every run of `TickSpawn` and its persister in which no item finds the queue full:
whenever the queue is empty and the persister idle, the rows of firing spawn alerts are those
of the engine's active spawn alerts, with the same severity. -/
theorem spawn_store_converges (cfg : SpawnThresholds) (ids : Stream' String) (store : AlertTable)
    (hinj : Function.Injective ids.get) (hnew : ∀ n, store[ids.get n]? = none)
    (hstore : ∀ i severity, ¬ SpawnRow i severity store) (ops : List SpawnOp)
    (hroom : SpawnService.RoomDuring cfg ops (.start ids store)) :
    let s := (SpawnService.start ids store).run cfg ops
    s.Idle → ∀ i severity, SpawnRow i severity s.watch.store ↔
      SpawnActive i severity s.watch.engine := by
  rintro s ⟨hpublished, hqueue, hwriting⟩ i severity
  have hsettles := SpawnService.settles_run
    (SpawnService.settles_start hinj hnew hstore) hroom
  have hpending : s.watch.spawnPending = [] := by
    simp [Watch.spawnPending, hpublished, hqueue, hwriting]
  have hagrees := hsettles.iff i severity
  rw [hpending] at hagrees
  exact hagrees

/-- A probe of one process of the user; the limit on the user's processes is one. -/
def busyProbe (now parentPID : ℤ) : SpawnOp := .tick default ⟨now, [⟨1, 501⟩], 501, 1, 100, parentPID, ""⟩

def quietProbe (now : ℤ) : SpawnOp := .tick default ⟨now, [], 501, 1, 100, 0, ""⟩

/-- One probe with the condition, whose item is written. -/
theorem spawn_store_converges_fired :
    let s := (SpawnService.start shortOptions.ids ∅).run defaultSpawnThresholds
      [busyProbe 0 1, .enqueue, .receive, .write]
    SpawnActive "x" "critical" s.watch.engine ∧ SpawnRow "x" "critical" s.watch.store := by
  intro s
  have hactive : SpawnActive "x" "critical" s.watch.engine :=
    ⟨"procs.uid", ⟨"x", "procs.uid", "critical", "User process limit is near exhaustion", "",
      .firing, 0, none, none⟩, by decide +kernel, rfl, rfl, rfl⟩
  refine ⟨hactive, (spawn_store_converges defaultSpawnThresholds shortOptions.ids ∅ shortOptions_ids
    (by simp) ?_ _ ?_ (by decide +kernel) "x" "critical").mpr hactive⟩
  · rintro i severity ⟨r, hr, _⟩
    simp at hr
  · exact ⟨(fun h => nomatch h), fun _ => by decide +kernel, (fun h => nomatch h), (fun h => nomatch h), trivial⟩

/-- Sixteen probes with changing parents and three without the condition before the persister runs;
then it writes the sixteen items. -/
def floodOps : List SpawnOp :=
  ((List.range 16).flatMap fun n => [busyProbe (n * spawnPersistInterval) (n % 2), .enqueue]) ++
    [quietProbe (16 * spawnPersistInterval), .enqueue, quietProbe (17 * spawnPersistInterval),
      .enqueue, quietProbe (18 * spawnPersistInterval), .enqueue] ++
    (List.replicate 16 [.receive, .write]).flatten

/-- The item with the resolved alert finds the queue full, and the row stays firing. -/
theorem spawn_store_diverges :
    ¬ ∀ (cfg : SpawnThresholds) (ids : Stream' String) (store : AlertTable),
      Function.Injective ids.get → (∀ n, store[ids.get n]? = none) →
      (∀ i severity, ¬ SpawnRow i severity store) → ∀ ops : List SpawnOp,
      let s := (SpawnService.start ids store).run cfg ops
      s.Idle → ∀ i severity, SpawnRow i severity s.watch.store ↔
        SpawnActive i severity s.watch.engine := by
  intro h
  have hiff := h defaultSpawnThresholds shortOptions.ids ∅ shortOptions_ids (by simp) (by
    rintro i severity ⟨r, hr, _⟩
    simp at hr) floodOps (by decide +kernel) "x" "critical"
  obtain ⟨k, a, ha, _⟩ := hiff.mp ⟨⟨"x", "procs.uid", "critical",
    "User process limit is near exhaustion", "", .firing, 0, none, none⟩, by decide +kernel, rfl,
    rfl, rfl⟩
  have hempty : ((SpawnService.start shortOptions.ids ∅).run defaultSpawnThresholds
      floodOps).watch.engine.active = ∅ := by
    decide +kernel
  rw [hempty] at ha
  simp at ha

end Spectra.Hostwatch
