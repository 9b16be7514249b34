import Spectra.Hostwatch.DetailIdentity
import Spectra.Hostwatch.ProbeNote
import Spectra.Hostwatch.StoreAgreement

/-! A failed probe carries no evidence. -/
namespace Spectra.Hostwatch
open Library Pattern GoTime Engine List SustainedState AlertTable KeyView Service

section
variable (f : SustainedFinding) (now : ℤ) (chain : List ChainLink) (os : Os) (summary : String)

private theorem not_suffix_of_last {v w : Text} (hne : w ≠ []) (h : ']' ∉ w) :
    ¬ probeUnavailableNote.toList <:+ v ++ w := by
  intro hsuffix
  obtain ⟨u, hu⟩ := hsuffix
  have hlast : probeUnavailableNote.toList.getLast? = some ']' := by
    rw [probeUnavailableNote, String.toList_ofList]
    decide +kernel
  have hend : (v ++ w).getLast? = some ']' := by
    rw [← hu, getLast?_append, hlast]
    rfl
  rw [getLast?_append_of_ne_nil _ hne] at hend
  exact h (mem_of_getLast? hend)

/-- A detail ends in the command to run next. -/
theorem sustainedDetail_not_noted :
    hasSuffix (sustainedDetail f now chain os summary) probeUnavailableNote = false := by
  have hpid : (GoText.itoa f.pid).toList ≠ [] := by
    rw [GoText.itoa]
    split
    · simp
    · simpa using GoText.decimal_ne_nil _
  have hdigits : ']' ∉ (GoText.itoa f.pid).toList := (stamp_itoa _).not_mem (by decide)
  have hend : ∃ v w : Text, suggestNextCommand os f.pid = v ++ w ∧ w ≠ [] ∧ ']' ∉ w := by
    rw [suggestNextCommand]
    split
    · exact ⟨_, _, rfl, by simp, by decide⟩
    · exact ⟨_, _, rfl, hpid, hdigits⟩
  obtain ⟨v, w, hcommand, hne, hw⟩ := hend
  rw [hasSuffix, ← Bool.not_eq_true, isSuffixOf_iff_suffix, sustainedDetail, String.toList_ofList]
  have hparts : detailParts f now chain os summary =
      frontParts f now chain summary ++ [nextText ++ v ++ w] := by
    rw [append_assoc, ← hcommand]
    rfl
  rw [hparts, ← intercalate_append]
  exact not_suffix_of_last hne hw

end

section
variable {P : Alert → Prop}

theorem scopeOf_eq_sustained {k : String} (h : hasPrefix k sustainedKeyPrefix = true) : scopeOf k = .sustained := by
  have hwithin : withinScope .sustained k = true := h
  exact (withinScope_iff.mp hwithin).symm

private theorem renderConditions_all {text : DetailText} (sample : ℤ → String × Bool)
    (table : PidMap ProcObs) (now : ℤ) (os : Os) (fs : List SustainedFinding) (budget : ℕ)
    (summaries : KeyMap SampleSummary) :
    ∀ c ∈ (renderConditions text sample table now os fs budget summaries).1,
      c.severity = "warn" ∧ ∃ f chain summary, c.detail = text.render f now chain os summary := by
  induction fs generalizing budget summaries with
  | nil => simp [renderConditions]
  | cons f fs ih =>
    intro c hc
    rcases mem_cons.mp hc with rfl | hc
    · exact ⟨rfl, f, _, _, rfl⟩
    · exact ih _ _ c hc

variable (now : ℤ) {v : KeyView}

theorem KeyView.applyAll_quiet (topPID : ℤ) (id : String) {cs : List Condition} {a : Alert}
    (ha : v.alert = some a) (hcs : ∀ c ∈ cs, c.severity = a.severity) :
    (v.applyAll now .sustained topPID id cs).2 = [] := by
  induction cs generalizing v a with
  | nil => rfl
  | cons c cs ih =>
    have hc := hcs c mem_cons_self
    have hone : (v.apply now .sustained topPID id c).2 = none := by
      rw [apply, ha]
      simp [hc]
    have hnext : (v.apply now .sustained topPID id c).1.alert = some (a.refresh c) := by
      rw [apply, ha]
    have hrest : ∀ d ∈ cs, d.severity = (a.refresh c).severity :=
      fun d hd => (hcs d (.tail _ hd)).trans hc.symm
    rw [applyAll_cons]
    dsimp only
    rw [hone, ih hnext hrest]
    rfl

theorem KeyView.miss_all (clearAfter : ℤ) (hresolve : ∀ a now, P a → P (resolve a now))
    (hv : ∀ a ∈ v.alert, P a) :
    (∀ a ∈ (v.miss now clearAfter).1.alert, P a) ∧ ∀ ev ∈ (v.miss now clearAfter).2, P ev.alert := by
  rw [miss]
  cases ha : v.alert with
  | none => exact ⟨by simp [ha], by simp⟩
  | some a =>
    have hP := hv a ha
    dsimp only
    split
    · exact ⟨by simpa using hP, by simp⟩
    · exact ⟨by simp, by simpa using hresolve a now hP⟩

variable {e : Engine} {k : String} {conds : List Condition} {a : Alert}
  (rt : Runtime) (now : ℤ) (hk : scopeOf k = .sustained)
include hk

/-- An evaluation of the sustained conditions keeps what holds of the alerts it is given and of
those its conditions make. -/
theorem evaluateSustained_all (hconds : ∀ c ∈ conds, (∀ a : Alert, P (a.refresh c)) ∧ ∀ id now, P (fire c id now))
    (hresolve : ∀ a now, P a → P (resolve a now)) (ha : ∀ a ∈ e.active[k]?, P a) :
    (∀ a ∈ (e.step rt (.evaluateSustained now conds)).1.active[k]?, P a) ∧
      ∀ ev ∈ (e.step rt (.evaluateSustained now conds)).2, ev.alert.key = k → P ev.alert := by
  have hview : ∀ a ∈ (e.view k).alert, P a := ha
  suffices hall : (∀ a ∈ ((stepEmit rt (.evaluateSustained now conds) e).1.view k).alert, P a) ∧
      ∀ ev ∈ eventsOf k (stepEmit rt (.evaluateSustained now conds) e).2, P ev.alert by
    refine ⟨hall.1, fun ev hev hkey => hall.2 ev ?_⟩
    exact mem_filter.mpr ⟨mem_step.mp hev, by simpa using hkey⟩
  rcases evaluateSustained_cases rt now conds e hk with ⟨-, now', topPID, i, hv, hout⟩ | ⟨-, now', hv, hout⟩
  · rw [hv, hout]
    exact applyAll_all (S := fun _ => True) _ _ _ _ _ (fun _ _ => trivial) (fun c hc =>
      ⟨fun a _ => (hconds c (mem_of_mem_filter hc)).1 a, (hconds c (mem_of_mem_filter hc)).2 _ _⟩)
      (fun _ _ => trivial) fun _ => hview
  · obtain ⟨halert, hevents⟩ := miss_all now' 2 hresolve hview
    rw [hv, hout]
    exact ⟨halert, fun ev hev => hevents ev (Option.mem_toList.mp hev)⟩

/-- An evaluation that finds the condition of an active alert again, with the severity the alert
has: the alert takes the new text, and there is no event for it. -/
theorem evaluateSustained_found (ha : e.active[k]? = some a) (hfound : k ∈ conds.map Condition.key)
    (hseverity : ∀ c ∈ conds, c.severity = a.severity)
    (hconds : ∀ c ∈ conds, (∀ a : Alert, P (a.refresh c)) ∧ ∀ id now, P (fire c id now)) :
    (∃ b, (e.step rt (.evaluateSustained now conds)).1.active[k]? = some b ∧ P b) ∧
      eventsOf k (e.step rt (.evaluateSustained now conds)).2 = [] := by
  obtain ⟨⟨b, hb, -⟩, -⟩ := evaluateSustained_hit rt now hk ha hfound
  rcases evaluateSustained_cases rt now conds e hk with ⟨-, now', topPID, i, hv, hout⟩ | ⟨hn, -⟩
  · have hmem : ∀ c ∈ conds.filter fun c => c.key = k, c ∈ conds :=
      fun c hc => mem_of_mem_filter hc
    have hquiet := applyAll_quiet now' topPID (e.ids.get i)
      (show (e.view k).alert = some a from ha) fun c hc => hseverity c (hmem c hc)
    have hall := applyAll_all (S := fun _ => True) now' .sustained topPID (e.ids.get i) _ (v := e.view k)
      (fun _ _ => trivial) (fun c hc => ⟨fun a _ => (hconds c (hmem c hc)).1 a,
        (hconds c (hmem c hc)).2 _ now'⟩) (fun _ _ => trivial) fun hnil => absurd hnil (filter_ne_nil hfound)
    rw [← hv] at hall
    rw [← hout] at hquiet
    refine ⟨⟨b, hb, hall.1 b ?_⟩, ?_⟩
    · exact hb
    · have hperm := (step_perm rt (.evaluateSustained now conds) e).filter fun ev => ev.alert.key = k
      exact perm_nil.mp (hquiet ▸ hperm)
  · exact absurd hfound hn

end

section

/-- The note stands on the detail at most once, at its end. -/
def NotedOnce (detail : String) : Prop :=
  hasSuffix detail probeUnavailableNote = true →
    ∃ clean, detail = clean ++ probeUnavailableNote ∧ hasSuffix clean probeUnavailableNote = false

def Alert.Proper (a : Alert) : Prop := a.severity = "warn" ∧ NotedOnce a.detail

def ProperAlerts (e : Engine) : Prop := ∀ a ∈ sustainedAlerts e, a.Proper

def ProperRows (t : AlertTable) : Prop :=
  ∀ (id : String) (r : AlertRow), t[id]? = some r →
    hasPrefix r.key sustainedKeyPrefix = true → (fromRow r).Proper

/-- The states of a daemon that started with an empty store: after ticks of the sustained probe,
evaluations of the other scopes, acknowledgements, writes of other alerts, and restarts. An id
belongs to one alert, so the row it is written to has the alert's key. -/
inductive Service.Reachable (text : DetailText) : Service → Prop where
  | start (opts : ServiceOptions) : Reachable text (Service.new opts ∅)
  | tick {s : Service} (x : Tick) : Reachable text s → Reachable text (s.tick text x).1
  | slow {s : Service} (rt : Runtime) (now : ℤ) (conds : List Condition) :
      Reachable text s → Reachable text { s with engine := (s.engine.evaluateSlow rt now conds).1 }
  | spawn {s : Service} (rt : Runtime) (now : ℤ) (conds : List Condition) (topPID : List ℤ) :
      Reachable text s →
      Reachable text { s with engine := (s.engine.evaluateSpawn rt now conds topPID).1 }
  | ack {s : Service} (rt : Runtime) (id : String) (now : ℤ) : Reachable text s →
      Reachable text { s with engine := (s.engine.ack rt id now).1 }
  | write {s : Service} (a : Alert) : hasPrefix a.key sustainedKeyPrefix = false →
      (∀ r, s.store[a.id]? = some r → r.key = a.key) → Reachable text s →
      Reachable text { s with store := s.store.upsertAlert (toRow a) }
  | ackRow {s : Service} (id : String) (now : ℤ) : Reachable text s →
      Reachable text { s with store := (s.store.ackAlert id now).1 }
  | prune {s : Service} (now keepDays : ℤ) : Reachable text s →
      Reachable text { s with store := s.store.pruneResolvedAlerts now keepDays }
  | restart {s : Service} (opts : ServiceOptions) (now : ℤ) (rows : List AlertRow) :
      (∀ r ∈ rows, ∃ id : String, s.store[id]? = some r) → Reachable text s →
      Reachable text ((Service.new opts s.store).restore text now rows)

theorem Service.Reachable.run {text : DetailText} {s : Service} (h : s.Reachable text)
    (ticks : List Tick) : (s.runTicks text ticks).1.Reachable text := by
  induction ticks generalizing s with
  | nil => exact h
  | cons x ticks ih => exact ih (h.tick x)

theorem NotedOnce.of_not_suffix {d : String} (h : hasSuffix d probeUnavailableNote = false) : NotedOnce d := by
  intro hsuffix
  rw [h] at hsuffix
  cases hsuffix

theorem Alert.Proper.noted {a : Alert} (h : a.Proper) : a.noted.Proper := by
  cases hnote : hasSuffix a.detail probeUnavailableNote with
  | true => rwa [Alert.noted_of_suffix hnote]
  | false =>
    rw [Alert.noted_of_not_suffix hnote]
    exact ⟨h.1, fun _ => ⟨a.detail, rfl, hnote⟩⟩

section
variable {t : AlertTable} {a : Alert}

private theorem properRows_upsert (h : ProperRows t) (ha : a.Proper) : ProperRows (t.upsertAlert (toRow a)) := by
  intro id r hr hkey
  rw [getElem?_upsertAlert] at hr
  split at hr
  · cases hr
    cases t[id]? with
    | none | some r => exact ha
  · exact h id r hr hkey

private theorem properRows_other (h : ProperRows t) (hother : hasPrefix a.key sustainedKeyPrefix = false)
    (hid : ∀ r, t[a.id]? = some r → r.key = a.key) : ProperRows (t.upsertAlert (toRow a)) := by
  intro id r hr hkey
  rw [getElem?_upsertAlert] at hr
  split at hr
  · rename_i heq
    have hsame : r.key = a.key := by
      rw [← Option.some.inj hr, ← heq]
      cases hrow : t[(toRow a).id]? with
      | none => rfl
      | some r => exact hid r hrow
    rw [hsame, hother] at hkey
    cases hkey
  · exact h id r hr hkey

theorem properRows_write {w : Writes} (h : ProperRows w.store) (ha : a.Proper) :
    ProperRows (w.write a).1.store := by
  rw [Writes.write]
  split
  · exact properRows_upsert h ha
  · exact h

theorem properRows_persistSustained (now : ℤ) (outcomes : Stream' Bool) {events : List Event}
    {alerts : List Alert} {s : Service} (h : ProperRows s.store)
    (hevents : ∀ ev ∈ events, ev.alert.Proper) (halerts : ∀ a ∈ alerts, a.Proper) :
    ProperRows (s.persistSustained now outcomes events alerts).store :=
  Writes.persistActive_induct (P := (ProperRows ·.2.store)) now
    (Writes.persistEvents_induct (P := (ProperRows ·.2.store)) now h fun _ ev hev hrows =>
      properRows_write hrows (hevents ev hev))
    fun _ a ha hrows => properRows_write hrows (halerts a ha)

end

section
variable {e e' : Engine} (h : ProperAlerts e)
include h

private theorem properAlerts_of_same
    (hsame : ∀ k, hasPrefix k sustainedKeyPrefix = true → e'.active[k]? = e.active[k]?) : ProperAlerts e' := by
  intro a ha
  obtain ⟨hactive, hkey⟩ := mem_sustainedAlerts.mp ha
  rw [hsame _ hkey] at hactive
  exact h a (mem_sustainedAlerts.mpr ⟨hactive, hkey⟩)

theorem properAlerts_emit (rt : Runtime) (now : ℤ)
    (conds : List Condition) {scope : Scope} (clearAfter topPID : ℤ) (hscope : scope ≠ .sustained) :
    ProperAlerts (emit rt now conds scope clearAfter topPID e).1 := by
  refine properAlerts_of_same h fun k hk => ?_
  have hout : withinScope scope k = false := by
    rw [← Bool.not_eq_true, withinScope_iff, scopeOf_eq_sustained hk]
    exact hscope
  have hview := ((emit_key rt now conds scope clearAfter topPID e k).1 hout).1
  exact congrArg alert hview

private theorem properAlerts_ack (rt : Runtime) (id : String) (now : ℤ) :
    ProperAlerts (e.ack rt id now).1 := by
  rw [Engine.ack]
  cases hf : (rt.range.order e.active).find? fun entry => entry.2.id = id with
  | none => exact h
  | some entry =>
    have hentry := rt.range.mem_order.mp (mem_of_find?_eq_some hf)
    have hkey := e.keyed hentry
    intro a ha
    obtain ⟨hactive, hstarts⟩ := mem_sustainedAlerts.mp ha
    change (e.active.insert entry.2.key { entry.2 with ackedAt := some now })[a.key]? = some a
      at hactive
    rw [getElem?_insert_eq] at hactive
    split at hactive
    · rename_i heq
      have hold : entry.2.Proper := by
        refine h _ (mem_sustainedAlerts.mpr ⟨?_, heq ▸ hstarts⟩)
        rw [hkey]
        exact hentry
      cases hactive
      exact hold
    · exact h a (mem_sustainedAlerts.mpr ⟨hactive, hstarts⟩)

private theorem properAlerts_flagged (hflag : Flagged e e') : ProperAlerts e' := by
  intro a ha
  obtain ⟨hactive, hkey⟩ := mem_sustainedAlerts.mp ha
  rw [hflag.active] at hactive
  obtain ⟨b, hb, rfl⟩ := Option.map_eq_some_iff.mp hactive
  rw [b.flagged_key] at hkey hb
  rw [Alert.flagged, if_pos hkey]
  exact (h b (mem_sustainedAlerts.mpr ⟨hb, hkey⟩)).noted

end

variable {other : Text → Option ℤ} {s : Service} {x : Tick}

theorem sustainedConditions_clean {probe : ProbeInput} {now : ℤ} {st st' : SustainedState} {conds : List Condition}
    (h : st.sustainedConditions (detailText other) probe now = (st', some conds)) :
    ∀ c ∈ conds, c.severity = "warn" ∧ hasSuffix c.detail probeUnavailableNote = false := by
  cases hps : probe.ps with
  | none =>
    rw [sustainedConditions, hps] at h
    cases h
  | some procs =>
    rw [sustainedConditions_eq hps] at h
    obtain ⟨-, hconds⟩ := Prod.mk.inj h
    intro c hc
    rw [← Option.some.inj hconds] at hc
    obtain ⟨hseverity, f, chain, summary, hdetail⟩ := renderConditions_all _ _ _ _ _ _ _ c hc
    refine ⟨hseverity, ?_⟩
    rw [hdetail]
    exact sustainedDetail_not_noted f _ chain _ summary

private theorem proper_of_condition {c : Condition}
    (h : c.severity = "warn" ∧ hasSuffix c.detail probeUnavailableNote = false) :
    (∀ a : Alert, (a.refresh c).Proper) ∧ ∀ id now, (fire c id now).Proper :=
  ⟨fun _ => ⟨h.1, .of_not_suffix h.2⟩, fun _ _ => ⟨h.1, .of_not_suffix h.2⟩⟩

private theorem proper_tick (x : Tick) (halerts : ProperAlerts s.engine) (hrows : ProperRows s.store) :
    ProperAlerts (s.tick (detailText other) x).1.engine ∧ ProperRows (s.tick (detailText other) x).1.store := by
  rw [tick, tickSustained]
  cases hst : s.sustained.sustainedConditions (detailText other) x.probe x.now with
  | mk st conds =>
    cases conds with
    | none =>
      dsimp only
      split
      · obtain ⟨hflag, hevents, hnoted⟩ := flagged_flagAlerts s.engine
        refine ⟨properAlerts_flagged halerts hflag,
          properRows_persistSustained _ _ hrows (fun ev hev => ?_) fun a ha => ?_⟩
        · rw [hevents] at hev
          obtain ⟨a, ha, rfl⟩ := mem_map.mp hev
          dsimp only
          exact (halerts a (mem_of_mem_filter ha)).noted
        · rw [hnoted] at ha
          obtain ⟨b, hb, rfl⟩ := mem_map.mp ha
          exact (halerts b hb).noted
      · exact ⟨halerts, hrows⟩
    | some conds =>
      have hconds := fun c hc => proper_of_condition (sustainedConditions_clean hst c hc)
      have hall : ∀ k, scopeOf k = .sustained →
          (∀ a ∈ (s.engine.step x.rt (.evaluateSustained x.now conds)).1.active[k]?, a.Proper) ∧
          ∀ ev ∈ (s.engine.step x.rt (.evaluateSustained x.now conds)).2,
            ev.alert.key = k → ev.alert.Proper := by
        intro k hk
        refine evaluateSustained_all x.rt x.now hk hconds (fun a now ha => ha) fun a ha => ?_
        have hkey := s.engine.keyed ha
        refine halerts a (mem_sustainedAlerts.mpr ⟨hkey ▸ ha, ?_⟩)
        rw [hkey]
        exact withinScope_iff.mpr hk.symm
      have halerts' : ProperAlerts (s.engine.step x.rt (.evaluateSustained x.now conds)).1 := by
        intro a ha
        obtain ⟨hactive, hkey⟩ := mem_sustainedAlerts.mp ha
        exact (hall a.key (scopeOf_eq_sustained hkey)).1 a hactive
      refine ⟨halerts', properRows_persistSustained _ _ hrows (fun ev hev => ?_) halerts'⟩
      rcases mem_append.mp hev with hev | hev
      · have hkey := withinScope_event (.evaluateSustained x.now conds) rfl hev
        exact (hall _ (scopeOf_eq_sustained hkey)).2 ev hev rfl
      · obtain ⟨a, ha, rfl⟩ := mem_map.mp hev
        obtain ⟨hactive, hstale⟩ := mem_filter.mp ha
        rw [Bool.and_eq_true, decide_eq_true_eq] at hstale
        obtain ⟨b, hb, hkey⟩ := mem_map.mp hstale.1
        have hstarts := (Bool.and_eq_true_iff.mp (mem_filter.mp hb).2).1
        rw [hkey] at hstarts
        exact halerts' a (mem_filter.mpr ⟨hactive, hstarts⟩)

/-- In every state that is reached the sustained alerts are proper, and so are their rows. -/
theorem proper_of_reachable (h : s.Reachable (detailText other)) : ProperAlerts s.engine ∧ ProperRows s.store := by
  induction h with
  | start opts =>
    refine ⟨fun a ha => ?_, fun id r hr => ?_⟩
    · have hactive := (mem_sustainedAlerts.mp ha).1
      simp [Service.new, Engine.new] at hactive
    · simp [Service.new] at hr
  | tick x _ ih => exact proper_tick x ih.1 ih.2
  | slow rt now conds _ ih =>
    exact ⟨properAlerts_emit ih.1 rt now conds 2 0 (by decide), ih.2⟩
  | spawn rt now conds topPID _ ih =>
    exact ⟨properAlerts_emit ih.1 rt now conds 3 _ (by decide), ih.2⟩
  | ack rt id now _ ih => exact ⟨properAlerts_ack ih.1 rt id now, ih.2⟩
  | write a hother hid _ ih => exact ⟨ih.1, properRows_other ih.2 hother hid⟩
  | ackRow id now _ ih =>
    refine ⟨ih.1, fun id' r hr hkey => ?_⟩
    rw [getElem?_ackAlert] at hr
    split at hr
    · obtain ⟨r', hr', rfl⟩ := Option.map_eq_some_iff.mp hr
      exact ih.2 _ r' hr' hkey
    · exact ih.2 id' r hr hkey
  | prune now keepDays _ ih =>
    exact ⟨ih.1, fun id r hr => ih.2 id r (getElem?_pruneResolvedAlerts hr)⟩
  | restart opts now rows hrows _ ih =>
    refine ⟨fun a ha => ?_, ih.2⟩
    obtain ⟨hactive, hkey⟩ := mem_sustainedAlerts.mp ha
    rcases restore_active hactive with hactive | ⟨hmem, -⟩
    · simp [Service.new, Engine.new] at hactive
    · obtain ⟨r, hr, rfl⟩ := mem_map.mp hmem
      obtain ⟨id, hid⟩ := hrows r hr
      exact ih.2 id r hid hkey

end

variable {other : Text → Option ℤ} {s : Service} {x : Tick} {procs : List ProcObs} {a : Alert}

/-- The keys of what the tracker finds on a tick whose `ps` succeeds. -/
def Service.foundKeys (x : Tick) (procs : List ProcObs) (s : Service) : List String :=
  (s.sustained.tracker.observe x.now (s.observed x procs)).2.map sustainedKey

private theorem eventsOf_clearedNoteEvents {e : Engine} {stale : List String}
    (ha : e.active[a.key]? = some a) (hstale : a.key ∈ stale)
    (hclean : hasSuffix a.detail probeUnavailableNote = false) :
    eventsOf a.key (clearedNoteEvents stale e.activeAlerts) = [⟨.updated, a⟩] := by
  have hown := filter_key_eq_singleton Alert.key (activeAlerts_nodup e) (mem_activeAlerts.mpr ha)
  rw [eventsOf, clearedNoteEvents, filter_map, filter_comm, Function.comp_def, hown]
  simp [hstale, hclean]

/-- A stale alert whose condition is found again has one event, and its detail is new. -/
theorem tick_recovers (hproper : ProperAlerts s.engine) (hps : x.probe.ps = some procs)
    (ha : a ∈ sustainedAlerts s.engine) (hnote : hasSuffix a.detail probeUnavailableNote = true)
    (hfound : a.key ∈ s.foundKeys x procs) :
    ∃ b, (s.tick (detailText other) x).1.engine.active[a.key]? = some b ∧
      hasSuffix b.detail probeUnavailableNote = false ∧
      eventsOf a.key (s.tick (detailText other) x).2 = [⟨.updated, b⟩] := by
  obtain ⟨st, conds, hst, hkeys, -⟩ :=
    sustainedConditions_spec (detailText other) hps s
  obtain ⟨hactive, hstarts⟩ := mem_sustainedAlerts.mp ha
  have hclean := sustainedConditions_clean hst
  have hseverity := (hproper a ha).1
  have hmem : a.key ∈ conds.map Condition.key := by
    rw [hkeys]
    exact hfound
  obtain ⟨⟨b, hb, hbclean⟩, hquiet⟩ := evaluateSustained_found
    (P := fun b => hasSuffix b.detail probeUnavailableNote = false) x.rt x.now
    (scopeOf_eq_sustained hstarts) hactive hmem
    (fun c hc => (hclean c hc).1.trans hseverity.symm)
    fun c hc => ⟨fun _ => (hclean c hc).2, fun _ _ => (hclean c hc).2⟩
  have hbkey : b.key = a.key := keyed _ hb
  have hstale : a.key ∈ staleKeys s.engine.activeAlerts := by
    refine mem_map.mpr ⟨a, mem_filter.mpr ⟨mem_activeAlerts.mpr hactive, ?_⟩, rfl⟩
    rw [hstarts, hnote]
    rfl
  rw [tick, tickSustained, hst]
  refine ⟨b, hb, hbclean, ?_⟩
  have hcleared := eventsOf_clearedNoteEvents (hbkey.symm ▸ hb) (hbkey.symm ▸ hstale) hbclean
  rw [hbkey] at hcleared
  change eventsOf a.key ((s.engine.step x.rt (.evaluateSustained x.now conds)).2 ++ _) = _
  rw [eventsOf_append, hquiet]
  exact hcleared

private theorem failures_tick (hps : x.probe.ps = some procs) (text : DetailText) (s : Service) :
    (s.tick text x).1.sustained.failures = 0 := by
  rw [tick, tickSustained, sustainedConditions_eq hps]
  change ({ s.sustained with failures := 0 }.cpuObservations x.probe.stat procs x.now).1.failures = 0
  rw [cpuObservations]
  split <;> rfl

/-- Any run of ticks whose `ps` fails, from any state that is reached. The tracker, the CPU
snapshots and the counters stay, and no alert is fired or resolved; below the limit the engine
stays as it is, and from there on every sustained alert carries the note once. The first tick
whose `ps` succeeds takes the note off each alert whose condition it finds, with one event. -/
theorem failed_probes_no_evidence (other : Text → Option ℤ) {s : Service}
    (hs : s.Reachable (detailText other)) (ticks : List Tick) (hfail : ∀ x ∈ ticks, x.probe.ps = none) :
    let r := s.runTicks (detailText other) ticks
    (r.1.sustained.tracker = s.sustained.tracker ∧ r.1.sustained.prev = s.sustained.prev ∧
      r.1.engine.clears = s.engine.clears ∧ r.1.engine.parents = s.engine.parents ∧
      r.1.engine.ids = s.engine.ids ∧ ∀ ev ∈ r.2.flatten, ev.type = .updated) ∧
    r.1.sustained.failures = s.sustained.failures + ticks.length ∧
    (s.LimitReached ticks.length →
      (∀ k : String, r.1.engine.active[k]? = s.engine.active[k]?.map Alert.flagged) ∧
      r.2.flatten = freshNotes s.engine ∧
      ∀ a ∈ sustainedAlerts r.1.engine, ∃ clean, a.detail = clean ++ probeUnavailableNote ∧
        hasSuffix clean probeUnavailableNote = false) ∧
    (¬ s.LimitReached ticks.length → r.1.engine = s.engine ∧ r.2.flatten = []) ∧
    ∀ (x : Tick) (procs : List ProcObs), x.probe.ps = some procs →
      (r.1.tick (detailText other) x).1.sustained.failures = 0 ∧
      ∀ a ∈ sustainedAlerts r.1.engine, hasSuffix a.detail probeUnavailableNote = true →
        a.key ∈ r.1.foundKeys x procs →
        ∃ b, (r.1.tick (detailText other) x).1.engine.active[a.key]? = some b ∧
          hasSuffix b.detail probeUnavailableNote = false ∧
          eventsOf a.key (r.1.tick (detailText other) x).2 = [⟨.updated, b⟩] := by
  intro r
  have hrun : s.Unobserved ticks.length r.1 r.2.flatten := unobserved_run _ hfail s
  have hproper : ProperAlerts r.1.engine := (proper_of_reachable (hs.run ticks)).1
  have htables : r.1.engine.clears = s.engine.clears ∧ r.1.engine.parents = s.engine.parents ∧
      r.1.engine.ids = s.engine.ids ∧ ∀ ev ∈ r.2.flatten, ev.type = .updated := by
    by_cases hlimit : s.LimitReached ticks.length
    · obtain ⟨hflag, hevents⟩ := hrun.flagged hlimit
      refine ⟨hflag.clears, hflag.parents, hflag.ids, fun ev hev => ?_⟩
      rw [hevents] at hev
      obtain ⟨a, -, rfl⟩ := mem_map.mp hev
      rfl
    · obtain ⟨hengine, hevents⟩ := hrun.quiet hlimit
      rw [hengine, hevents]
      exact ⟨rfl, rfl, rfl, by simp⟩
  refine ⟨⟨hrun.tracker, hrun.prev, htables⟩, hrun.failures, fun hlimit => ?_, hrun.quiet,
    fun x procs hps => ⟨failures_tick hps _ _, fun a ha hnote hfound => ?_⟩⟩
  · obtain ⟨hflag, hevents⟩ := hrun.flagged hlimit
    exact ⟨hflag.active, hevents, fun a ha => (hproper a ha).2 (hflag.suffix ha)⟩
  · exact tick_recovers hproper hps ha hnote hfound

def failedTick : Tick :=
  ⟨default, 400 * second, ⟨none, fun _ => none, fun _ => ("", true)⟩, Stream'.const true⟩

def busyDaemon : Service :=
  ((Service.new shortOptions ∅).runTicks (detailText fun _ => none) [shortTick true true 0,
    shortTick true true 1, shortTick true true 2, shortTick true true 3]).1

theorem failed_probes_no_evidence_five :
    ActiveId "x" busyDaemon.engine ∧
      ∀ a ∈ sustainedAlerts (busyDaemon.runTicks (detailText fun _ => none)
        (List.replicate 5 failedTick)).1.engine, ∃ clean, a.detail = clean ++ probeUnavailableNote ∧
          hasSuffix clean probeUnavailableNote = false := by
  have hactive : ActiveId "x" busyDaemon.engine := by
    rw [ActiveId]
    decide +kernel
  have hreach : busyDaemon.Reachable (detailText fun _ => none) :=
    (Service.Reachable.start shortOptions).run _
  have hlimit : busyDaemon.LimitReached 5 := ⟨by decide, Nat.le_add_left 5 _⟩
  have hrun := failed_probes_no_evidence (fun _ => none) hreach (replicate 5 failedTick)
    (by simp [failedTick])
  exact ⟨hactive, (hrun.2.2.1 hlimit).2.2⟩

end Spectra.Hostwatch
