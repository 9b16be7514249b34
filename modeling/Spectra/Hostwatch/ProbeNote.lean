import Spectra.Hostwatch.Persistence

/-! Ticks whose `ps` fails. -/
namespace Spectra.Hostwatch
open Library List Alert

private theorem append_note_ne (s : String) : s ≠ s ++ probeUnavailableNote := by
  intro h
  have hlist := congrArg String.toList h
  rw [String.toList_append, self_eq_append_right, probeUnavailableNote, String.toList_ofList] at hlist
  cases hlist

section

def Alert.noted (a : Alert) : Alert :=
  if hasSuffix a.detail probeUnavailableNote then a
  else { a with detail := a.detail ++ probeUnavailableNote }

def Alert.flagged (a : Alert) : Alert :=
  if hasPrefix a.key sustainedKeyPrefix then a.noted else a

variable {a : Alert}

theorem Alert.noted_of_suffix (h : hasSuffix a.detail probeUnavailableNote = true) : a.noted = a :=
  if_pos h

theorem Alert.noted_of_not_suffix (h : hasSuffix a.detail probeUnavailableNote = false) :
    a.noted = { a with detail := a.detail ++ probeUnavailableNote } :=
  if_neg (by simp [h])

variable (a : Alert)

theorem Alert.noted_key : a.noted.key = a.key := by
  rw [noted]
  split <;> rfl

theorem Alert.noted_suffix : hasSuffix a.noted.detail probeUnavailableNote = true := by
  rw [noted]
  split
  · assumption
  · simp [hasSuffix]

theorem Alert.flagged_key : a.flagged.key = a.key := by
  rw [flagged]
  split
  · exact a.noted_key
  · rfl

theorem Alert.flagged_flagged : a.flagged.flagged = a.flagged := by
  rw [flagged, a.flagged_key]
  split
  · rename_i h
    rw [flagged, if_pos h, noted_of_suffix a.noted_suffix]
  · rfl

/-- The events of the alerts that do not carry the note yet. -/
def freshNotes (e : Engine) : List Event :=
  ((sustainedAlerts e).filter fun a => !hasSuffix a.detail probeUnavailableNote).map
    fun a => ⟨.updated, a.noted⟩

/-- The engine after its sustained alerts got the note. -/
structure Engine.Flagged (e e' : Engine) : Prop where
  active : ∀ k : String, e'.active[k]? = e.active[k]?.map Alert.flagged
  clears : e'.clears = e.clears
  parents : e'.parents = e.parents
  ids : e'.ids = e.ids

end

section
variable {e e' : Engine} {a : Alert}

private theorem activeAlerts_keys (e : Engine) : e.activeAlerts.map key = e.active.keys := by
  rw [Engine.activeAlerts, map_map, ← Std.ExtTreeMap.map_fst_toList_eq_keys]
  refine map_congr_left fun entry hmem => ?_
  exact e.keyed (Std.ExtTreeMap.mem_toList_iff_getElem?_eq_some.mp hmem)

theorem activeAlerts_nodup (e : Engine) : (e.activeAlerts.map key).Nodup := by
  rw [activeAlerts_keys]
  exact Std.ExtTreeMap.nodup_keys

theorem mem_sustainedAlerts :
    a ∈ sustainedAlerts e ↔ e.active[a.key]? = some a ∧ hasPrefix a.key sustainedKeyPrefix = true := by
  rw [sustainedAlerts, mem_filter, mem_activeAlerts]

private theorem setDetail_note (ha : e.active[a.key]? = some a) (h : hasSuffix a.detail probeUnavailableNote = false) :
    e.setDetail a.key (a.detail ++ probeUnavailableNote) = (e.setActive a.noted, some a.noted) := by
  rw [Engine.setDetail, ha]
  dsimp only
  rw [if_neg (append_note_ne _), noted_of_not_suffix h]

/-- The loop of `flagProbeUnavailable` over alerts of different keys. -/
theorem flagAlerts_spec {alerts : List Alert} (hactive : ∀ a ∈ alerts, e.active[a.key]? = some a)
    (hnodup : (alerts.map key).Nodup) :
    let r := flagAlerts alerts e
    (∀ k : String, r.1.active[k]? =
      if k ∈ alerts.map key then e.active[k]?.map noted else e.active[k]?) ∧
    (r.1.clears = e.clears ∧ r.1.parents = e.parents ∧ r.1.ids = e.ids) ∧
    r.2.1 = (alerts.filter fun a => !hasSuffix a.detail probeUnavailableNote).map
      (fun a => ⟨.updated, a.noted⟩) ∧
    r.2.2 = alerts.map noted := by
  induction alerts generalizing e with
  | nil => exact ⟨fun k => by simp [flagAlerts], ⟨rfl, rfl, rfl⟩, rfl, rfl⟩
  | cons a alerts ih =>
    obtain ⟨hfresh, hnodup⟩ := nodup_cons.mp hnodup
    have ha := hactive a mem_cons_self
    have hrest : ∀ b ∈ alerts, e.active[b.key]? = some b :=
      fun b hb => hactive b (.tail _ hb)
    cases hnote : hasSuffix a.detail probeUnavailableNote with
    | true =>
      obtain ⟨halerts, htables, hevents, hnoted⟩ := ih hrest hnodup
      rw [flagAlerts, if_pos hnote, filter_cons_of_neg (by simp [hnote]),
        map_cons (f := noted), noted_of_suffix hnote]
      dsimp only
      rw [hnoted]
      refine ⟨fun k => (halerts k).trans ?_, htables, hevents, rfl⟩
      by_cases hk : k = a.key
      · rw [hk, if_neg hfresh, map_cons, if_pos mem_cons_self, ha, Option.map_some, noted_of_suffix hnote]
      · simp [hk]
    | false =>
      have hset : ∀ k : String, (e.setActive a.noted).active[k]? =
          if a.key = k then some a.noted else e.active[k]? := by
        intro k
        rw [Engine.setActive, getElem?_insert_eq, a.noted_key]
      have hrest' : ∀ b ∈ alerts, (e.setActive a.noted).active[b.key]? = some b := by
        intro b hb
        have hne : a.key ≠ b.key := fun heq => hfresh (heq ▸ mem_map_of_mem hb)
        rw [hset, if_neg hne, hrest b hb]
      obtain ⟨halerts, htables, hevents, hnoted⟩ := ih hrest' hnodup
      rw [flagAlerts, if_neg (by simp [hnote]), setDetail_note ha hnote, filter_cons_of_pos (by simp [hnote]),
        map_cons]
      dsimp only
      rw [hevents, hnoted]
      refine ⟨fun k => (halerts k).trans ?_, htables, rfl, rfl⟩
      rw [hset]
      by_cases hk : k = a.key
      · rw [hk, if_neg hfresh, if_pos rfl, if_pos mem_cons_self, ha, Option.map_some]
      · simp [hk, Ne.symm hk]

theorem flagged_flagAlerts (e : Engine) :
    Engine.Flagged e (flagAlerts (sustainedAlerts e) e).1 ∧
      (flagAlerts (sustainedAlerts e) e).2.1 = freshNotes e ∧
      (flagAlerts (sustainedAlerts e) e).2.2 = (sustainedAlerts e).map noted := by
  obtain ⟨halerts, ⟨hclears, hparents, hids⟩, hevents⟩ :=
    flagAlerts_spec (fun a ha => (mem_sustainedAlerts.mp ha).1) ((activeAlerts_nodup e).sublist (filter_sublist.map _))
  refine ⟨⟨fun k => (halerts k).trans ?_, hclears, hparents, hids⟩, hevents⟩
  cases hk : e.active[k]? with
  | none => simp
  | some a =>
    have hkey := e.keyed hk
    have hmem : k ∈ (sustainedAlerts e).map key ↔
        hasPrefix a.key sustainedKeyPrefix = true := by
      rw [mem_map]
      constructor
      · rintro ⟨b, hb, hbk⟩
        rw [hkey, ← hbk]
        exact (mem_sustainedAlerts.mp hb).2
      · intro h
        exact ⟨a, mem_sustainedAlerts.mpr ⟨hkey ▸ hk, h⟩, hkey⟩
    rw [Option.map_some, Option.map_some, flagged]
    by_cases h : hasPrefix a.key sustainedKeyPrefix = true
    · rw [if_pos (hmem.mpr h), if_pos h]
    · rw [if_neg (fun hk => h (hmem.mp hk)), if_neg h]

theorem Engine.Flagged.trans {e'' : Engine} (h : Flagged e e') (h' : Flagged e' e'') : Flagged e e'' := by
  refine ⟨fun k => ?_, h'.clears.trans h.clears, h'.parents.trans h.parents, h'.ids.trans h.ids⟩
  rw [h'.active, h.active, Option.map_map]
  exact congrArg (Option.map · _) (funext flagged_flagged)

theorem Engine.Flagged.suffix (h : Flagged e e') (ha : a ∈ sustainedAlerts e') :
    hasSuffix a.detail probeUnavailableNote = true := by
  obtain ⟨hactive, hkey⟩ := mem_sustainedAlerts.mp ha
  rw [h.active] at hactive
  obtain ⟨b, -, rfl⟩ := Option.map_eq_some_iff.mp hactive
  rw [b.flagged_key] at hkey
  rw [flagged, if_pos hkey]
  exact b.noted_suffix

theorem Engine.Flagged.freshNotes (h : Flagged e e') : freshNotes e' = [] := by
  rw [Hostwatch.freshNotes, map_eq_nil_iff, filter_eq_nil_iff]
  intro a ha
  simp [h.suffix ha]

end

/-- The limit is reached within `n` more ticks that fail. -/
def Service.LimitReached (s : Service) (n : ℕ) : Prop :=
  0 < n ∧ sustainedProbeFailLimit ≤ s.sustained.failures + n

instance (s : Service) (n : ℕ) : Decidable (s.LimitReached n) := inferInstanceAs (Decidable (_ ∧ _))

/-- What `n` ticks in a row that fail do, with the events they publish. -/
structure Service.Unobserved (s : Service) (n : ℕ) (s' : Service) (events : List Event) : Prop where
  tracker : s'.sustained.tracker = s.sustained.tracker
  prev : s'.sustained.prev = s.sustained.prev
  failures : s'.sustained.failures = s.sustained.failures + n
  flagged : s.LimitReached n → Engine.Flagged s.engine s'.engine ∧ events = freshNotes s.engine
  quiet : ¬ s.LimitReached n → s'.engine = s.engine ∧ events = []

namespace Service
variable {s s' s'' : Service} {text : DetailText} {x : Tick}

theorem unobserved_tick (text : DetailText) (hps : x.probe.ps = none) (s : Service) :
    s.Unobserved 1 (s.tick text x).1 (s.tick text x).2 := by
  have hconds : s.sustained.sustainedConditions text x.probe x.now =
      ({ s.sustained with failures := s.sustained.failures + 1 }, none) := by
    rw [SustainedState.sustainedConditions, hps]
  rw [tick, tickSustained, hconds]
  dsimp only
  by_cases hlimit : sustainedProbeFailLimit ≤ s.sustained.failures + 1
  · obtain ⟨hflagged, hevents, -⟩ := flagged_flagAlerts s.engine
    rw [if_pos hlimit]
    exact ⟨rfl, rfl, rfl, fun _ => ⟨hflagged, hevents⟩, fun h => absurd ⟨Nat.one_pos, hlimit⟩ h⟩
  · rw [if_neg hlimit]
    exact ⟨rfl, rfl, rfl, fun h => absurd h.2 hlimit, fun _ => ⟨rfl, rfl⟩⟩

theorem Unobserved.trans {n : ℕ} {events events' : List Event} (h : s.Unobserved 1 s' events)
    (h' : s'.Unobserved n s'' events') : s.Unobserved (n + 1) s'' (events ++ events') := by
  have hfailures := h.failures
  refine ⟨h'.tracker.trans h.tracker, h'.prev.trans h.prev, ?_, fun hlimit => ?_, fun hlimit => ?_⟩
  · rw [h'.failures]
    omega
  · by_cases hone : s.LimitReached 1
    · obtain ⟨hflag, rfl⟩ := h.flagged hone
      by_cases hrest : s'.LimitReached n
      · obtain ⟨hflag', rfl⟩ := h'.flagged hrest
        rw [hflag.freshNotes, append_nil]
        exact ⟨hflag.trans hflag', rfl⟩
      · obtain ⟨hengine, rfl⟩ := h'.quiet hrest
        rw [hengine, append_nil]
        exact ⟨hflag, rfl⟩
    · obtain ⟨hengine, rfl⟩ := h.quiet hone
      have hrest : s'.LimitReached n := by
        unfold LimitReached at hone hlimit ⊢
        omega
      obtain ⟨hflag, rfl⟩ := h'.flagged hrest
      rw [hengine] at hflag
      rw [hengine]
      exact ⟨hflag, rfl⟩
  · have hone : ¬ s.LimitReached 1 := by
      unfold LimitReached at hlimit ⊢
      omega
    have hrest : ¬ s'.LimitReached n := by
      unfold LimitReached at hlimit ⊢
      omega
    obtain ⟨hengine, rfl⟩ := h.quiet hone
    obtain ⟨hengine', rfl⟩ := h'.quiet hrest
    exact ⟨hengine'.trans hengine, rfl⟩

theorem unobserved_run {ticks : List Tick} (text : DetailText) (hfail : ∀ x ∈ ticks, x.probe.ps = none) (s : Service) :
    s.Unobserved ticks.length (s.runTicks text ticks).1 (s.runTicks text ticks).2.flatten := by
  induction ticks generalizing s with
  | nil => exact ⟨rfl, rfl, rfl, fun h => absurd h.1 (Nat.lt_irrefl 0), fun _ => ⟨rfl, rfl⟩⟩
  | cons x ticks ih =>
    have htick := unobserved_tick text (hfail x (.head _)) s
    have hrest := ih (fun y hy => hfail y (.tail _ hy)) (s.tick text x).1
    exact htick.trans hrest

end Service

end Spectra.Hostwatch
