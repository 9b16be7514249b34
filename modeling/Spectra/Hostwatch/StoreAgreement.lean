import Spectra.Hostwatch.Persistence

/-! Engine and store agree on the sustained alerts of every run. -/
namespace Spectra.Hostwatch
open Library Engine List Writes

/-- What holds of the rows and the engine between ticks, as to the id `i`. -/
structure Agrees (i : String) (s : Service) : Prop where
  firing : AllFiring s.engine
  own : OwnId i s.engine
  future : ∀ n, s.engine.ids.get n = i → s.store[i]? = none
  remembered : Remembered s.engine [] s.sustained.persisted s.store
  rows : RowAgrees i s.engine s.store

def FiringRow (i : String) (t : AlertTable) : Prop :=
  ∃ r, t[i]? = some r ∧ r.state = .firing ∧ hasPrefix r.key sustainedKeyPrefix = true

/-- The row of id `i` is firing, and no alert will ever be written to it again. -/
structure Lost (i : String) (s : Service) : Prop where
  firing : AllFiring s.engine
  own : OwnId i s.engine
  past : ∀ n, s.engine.ids.get n ≠ i
  gone : NoAlert i s.engine
  row : FiringRow i s.store

/-- Where the tick resolves the alert with id `i`, the write of that event succeeds, unless
the alert has no row. -/
def Settles (text : DetailText) (i : String) (x : Tick) (s : Service) : Prop :=
  ∀ n ev, (s.tick text x).2[n]? = some ev → ev.type = .resolved → ev.alert.id = i →
    x.outcomes.get n = true ∨ s.store[i]? = none

theorem settles_of_ok {i : String} {x : Tick} {s : Service} (text : DetailText)
    (hok : ∀ n, x.outcomes.get n = true) : Settles text i x s := fun n _ _ _ _ => .inl (hok n)

section
variable {i : String} {e e' : Engine} {events : List Event} {ev : Event}

/-- The id of an alert that a tick resolves is in no other event, and no longer active. -/
theorem Told.resolved_only (h : Told e e' events) (hown : OwnId i e) (hev : ev ∈ events)
    (ht : ev.type = .resolved) (hid : ev.alert.id = i) :
    (∀ n, e.ids.get n ≠ i) ∧
    NoAlert i e' ∧ ∃ before after, events = before ++ ev :: after ∧
      (∀ ev' ∈ before, ev'.alert.id ≠ i) ∧ ∀ ev' ∈ after, ev'.alert.id ≠ i := by
  obtain ⟨⟨a, ha, haid⟩, hafter, -, -, honly⟩ := h.resolved ev hev ht
  have hai : a.id = i := haid.trans hid
  have hpast : ∀ n, e.ids.get n ≠ i := fun n hn => hown.fresh n hn _ a ha hai
  have hgone : NoAlert i e' := by
    intro k b hb hbi
    rcases h.origin k b hb with ⟨c, hc, hbc, -⟩ | ⟨-, n, hn⟩
    · rw [hown.unique k _ c a hc ha (hbc ▸ hbi) hai, hafter] at hb
      cases hb
    · exact hpast n (hn ▸ hbi)
  have hkey : ∀ ev' ∈ events, ev'.alert.id = i → ev'.alert.key = ev.alert.key := by
    intro ev' hev' hid'
    by_cases ht' : ev'.type = .resolved
    · obtain ⟨⟨c, hc, hcid⟩, -⟩ := h.resolved ev' hev' ht'
      exact hown.unique _ _ c a hc ha (hcid.trans hid') hai
    · obtain ⟨-, b, hb, hbid⟩ := h.live ev' hev' ht'
      exact absurd (hbid.trans hid') (hgone _ b hb)
  obtain ⟨before, after, rfl⟩ := append_of_mem hev
  have hnil : eventsOf ev.alert.key before = [] ∧ eventsOf ev.alert.key after = [] := by
    have hlen := congrArg length honly
    rw [eventsOf_append] at hlen
    simp only [eventsOf, decide_true, filter_cons_of_pos, length_append, length_cons, length_nil] at hlen
    constructor <;> refine length_eq_zero_iff.mp ?_ <;> simp only [eventsOf] <;> omega
  refine ⟨hpast, hgone, before, after, rfl, fun ev' hev' hid' => ?_, fun ev' hev' hid' => ?_⟩
  · have hmem := mem_eventsOf hev'
    rw [hkey ev' (by simp [hev']) hid', hnil.1] at hmem
    cases hmem
  · have hmem := mem_eventsOf hev'
    rw [hkey ev' (by simp [hev']) hid', hnil.2] at hmem
    cases hmem

private theorem index_of_only {before after : List Event} {ev' : Event} {n : ℕ}
    (hbefore : ∀ ev' ∈ before, ev'.alert.id ≠ i) (hafter : ∀ ev' ∈ after, ev'.alert.id ≠ i)
    (h : (before ++ ev :: after)[n]? = some ev') (hid : ev'.alert.id = i) : n = before.length := by
  rcases lt_trichotomy n before.length with hlt | heq | hgt
  · rw [getElem?_append_left hlt] at h
    exact absurd hid (hbefore ev' (mem_of_getElem? h))
  · exact heq
  · obtain ⟨m, rfl⟩ := Nat.exists_eq_add_of_lt hgt
    rw [getElem?_append_right (by omega), show before.length + m + 1 - before.length = m + 1 by omega] at h
    exact absurd hid (hafter ev' (mem_of_getElem? h))

variable {text : DetailText} {x : Tick} {s : Service} {persisted : KeyMap ℤ} {alerts : List Alert}

section
variable (h : s.Persisting text x persisted alerts)
include h

theorem Service.Persisting.remembered_events (hr : Remembered s.engine [] s.sustained.persisted s.store) :
    let w := persistEvents x.now (s.tick text x).2 (persisted, ⟨s.store, x.outcomes⟩)
    Remembered (s.tick text x).1.engine [] w.1 w.2.store := by
  apply remembered_persistEvents x.now h.told.live
  intro k hk
  obtain ⟨a, ha, hrow⟩ := (hr k (h.fewer k hk)).resolve_right (by simp)
  rcases h.told.kept k a ha with ⟨b, hb, hid⟩ | ⟨ev, hev, -, hkey, -⟩
  · exact .inl ⟨b, hb, hid ▸ hrow⟩
  · exact .inr (mem_map.mpr ⟨ev, hev, hkey⟩)

theorem Service.Persisting.remembered_after (hr : Remembered s.engine [] s.sustained.persisted s.store) :
    Remembered (s.tick text x).1.engine [] (s.tick text x).1.sustained.persisted (s.tick text x).1.store := by
  rw [h.remembered, h.store]
  exact remembered_persistActive x.now h.live (h.remembered_events hr)

theorem Service.Persisting.frame
    (hgone : NoAlert i (s.tick text x).1.engine)
    (hev : ∀ n ev, (s.tick text x).2[n]? = some ev → ev.alert.id = i → x.outcomes.get n = false) :
    (s.tick text x).1.store[i]? = s.store[i]? := by
  rw [h.store, persistActive_frame, persistEvents_frame x.now hev]
  intro a ha hid
  obtain ⟨-, b, hb, hbid⟩ := h.live a ha
  exact hgone _ b hb (hbid.trans hid)

/-- The row of an alert that the tick resolves: written as resolved, or left alone. -/
theorem Service.Persisting.resolved_row {n : ℕ} (hown : OwnId i s.engine)
    (hn : (s.tick text x).2[n]? = some ev) (ht : ev.type = .resolved) (hid : ev.alert.id = i) :
    if x.outcomes.get n then ∃ r, (s.tick text x).1.store[i]? = some r ∧ r.state = .resolved
    else (s.tick text x).1.store[i]? = s.store[i]? := by
  have hev := mem_of_getElem? hn
  obtain ⟨-, hgone, before, after, hsplit, hbefore, hafter⟩ := h.told.resolved_only hown hev ht hid
  have hindex {m : ℕ} {ev' : Event} (hm : (s.tick text x).2[m]? = some ev')
      (hid' : ev'.alert.id = i) : m = before.length := by
    rw [hsplit] at hm
    exact index_of_only hbefore hafter hm hid'
  split
  · rename_i hok
    rw [hindex hn hid] at hok
    have halerts : ∀ a ∈ alerts, a.id ≠ i := by
      intro a ha haid
      obtain ⟨-, b, hb, hbid⟩ := h.live a ha
      exact hgone _ b hb (hbid.trans haid)
    rw [h.store, persistActive_frame x.now halerts, hsplit]
    obtain ⟨r, hr, hs⟩ := persistEvents_written (s := (persisted, ⟨s.store, x.outcomes⟩))
      x.now before hid hok hafter
    exact ⟨r, hr, hs.trans (h.told.resolved ev hev ht).state⟩
  · rename_i hok
    refine h.frame hgone fun m ev' hm hid' => ?_
    rw [hindex hm hid', ← hindex hn hid]
    simpa using hok

end

theorem Agrees.rowAgrees (h : Agrees i s) (hp : s.Persisting text x persisted alerts)
    (hno : ∀ ev ∈ (s.tick text x).2, ev.type = .resolved → ev.alert.id ≠ i) :
    RowAgrees i (s.tick text x).1.engine (s.tick text x).1.store := by
  have hown := hp.told.own i h.own
  rw [hp.store]
  apply rowAgrees_persistActive x.now hown hp.live
  apply rowAgrees_persistEvents x.now hown
  · exact fun ev hev hid => hp.told.live ev hev fun ht => hno ev hev ht hid
  · refine ⟨fun k b r hb hid hr => ?_, fun r hr hs hk => ?_⟩
    · rcases hp.told.origin k b hb with ⟨a, ha, hba, -⟩ | ⟨-, n, hn⟩
      · exact h.rows.row k a r ha (hba ▸ hid) hr
      · have hnone : s.store[i]? = none := h.future n (hn ▸ hid)
        rw [show s.store[i]? = some r from hr] at hnone
        cases hnone
    · obtain ⟨a, ha, hid⟩ := h.rows.held r hr hs hk
      rcases hp.told.kept _ a ha with ⟨b, hb, hba⟩ | ⟨ev, hev, ht, -, hid'⟩
      · exact ⟨b, hb, hba.trans hid⟩
      · exact absurd (hid'.trans hid) (hno ev hev ht)

/-- A tick that writes what it resolves keeps the rows in agreement with the engine. -/
theorem Agrees.tick (h : Agrees i s) (hs : Settles text i x s) : Agrees i (s.tick text x).1 := by
  obtain ⟨persisted, alerts, hp⟩ := s.persisting_tick text x h.firing
  have hown := hp.told.own i h.own
  have hrem := hp.remembered_after h.remembered
  by_cases hres : ∃ ev ∈ (s.tick text x).2, ev.type = .resolved ∧ ev.alert.id = i
  · obtain ⟨ev, hev, ht, hid⟩ := hres
    obtain ⟨hpast, hgone, -⟩ := hp.told.resolved_only h.own hev ht hid
    obtain ⟨n, hn⟩ := mem_iff_getElem?.mp hev
    have hrow := hp.resolved_row h.own hn ht hid
    have hnot : ∀ r, (s.tick text x).1.store[i]? = some r → r.state ≠ .firing := by
      intro r hr hfiring
      split at hrow
      · obtain ⟨r', hr', hs'⟩ := hrow
        obtain rfl := Option.mem_unique hr hr'
        rw [hs'] at hfiring
        cases hfiring
      · rename_i hok
        rw [hrow, (hs n ev hn ht hid).resolve_left hok] at hr
        cases hr
    refine ⟨hp.told.firing, hown, fun m hm => absurd hm (hp.told.later.past hpast m), hrem, ?_⟩
    exact ⟨fun k b r hb hbi _ => absurd hbi (hgone k b hb), fun r hr hf _ => absurd hf (hnot r hr)⟩
  · have hno : ∀ ev ∈ (s.tick text x).2, ev.type = .resolved → ev.alert.id ≠ i :=
      fun ev hev ht hid => hres ⟨ev, hev, ht, hid⟩
    refine ⟨hp.told.firing, hown, fun n hn => ?_, hrem, h.rowAgrees hp hno⟩
    obtain ⟨m, hm⟩ := hp.told.later n
    rw [hp.frame (hown.fresh n hn), h.future m (hm.symm.trans hn)]
    intro l ev hl hid
    have hev := mem_of_getElem? hl
    obtain ⟨-, b, hb, hbid⟩ := hp.told.live ev hev fun ht => hno ev hev ht hid
    exact absurd (hbid.trans hid) (hown.fresh n hn _ b hb)

/-- A tick that fails to write what it resolves leaves the row firing. -/
theorem Agrees.lost (h : Agrees i s) (hs : ¬ Settles text i x s) : Lost i (s.tick text x).1 := by
  obtain ⟨persisted, alerts, hp⟩ := s.persisting_tick text x h.firing
  have hown := hp.told.own i h.own
  simp only [Settles, not_forall, not_or] at hs
  obtain ⟨n, ev, hn, ht, hid, hfail, hsome⟩ := hs
  have hev := mem_of_getElem? hn
  obtain ⟨hpast, hgone, -⟩ := hp.told.resolved_only h.own hev ht hid
  obtain ⟨⟨a, ha, haid⟩, -, -, hkey, -⟩ := hp.told.resolved ev hev ht
  have hrow := hp.resolved_row h.own hn ht hid
  rw [if_neg hfail] at hrow
  obtain ⟨r, hr⟩ := Option.ne_none_iff_exists'.mp hsome
  obtain ⟨hrkey, hrstate⟩ := h.rows.row _ a r ha (haid.trans hid) hr
  exact ⟨hp.told.firing, hown, hp.told.later.past hpast, hgone, r, hrow.trans hr, hrstate,
    hrkey ▸ hkey⟩

theorem Lost.tick (h : Lost i s) (text : DetailText) (x : Tick) : Lost i (s.tick text x).1 := by
  obtain ⟨persisted, alerts, hp⟩ := s.persisting_tick text x h.firing
  have hown := hp.told.own i h.own
  have hgone : NoAlert i (s.tick text x).1.engine := by
    intro k b hb hbi
    rcases hp.told.origin k b hb with ⟨a, ha, hba, -⟩ | ⟨-, n, hn⟩
    · exact h.gone k a ha (hba ▸ hbi)
    · exact h.past n (hn ▸ hbi)
  refine ⟨hp.told.firing, hown, hp.told.later.past h.past, hgone, ?_⟩
  rw [FiringRow, hp.frame hgone]
  · exact h.row
  · intro n ev hn hid
    have hev := mem_of_getElem? hn
    by_cases ht : ev.type = .resolved
    · obtain ⟨⟨a, ha, haid⟩, -⟩ := hp.told.resolved ev hev ht
      exact absurd (haid.trans hid) (h.gone _ a ha)
    · obtain ⟨-, b, hb, hbid⟩ := hp.told.live ev hev ht
      exact absurd (hbid.trans hid) (hgone _ b hb)

theorem Agrees.stored (h : Agrees i s) (text : DetailText) (hps : x.probe.ps.isSome)
    (hok : ∀ n, x.outcomes.get n = true) :
    ∀ a ∈ sustainedAlerts (s.tick text x).1.engine, (s.tick text x).1.store[a.id]?.isSome := by
  obtain ⟨persisted, alerts, hp⟩ := s.persisting_tick text x h.firing
  rw [hp.store, ← hp.all hps]
  refine persistActive_stores x.now hp.live (hp.remembered_events h.remembered) fun n => ?_
  rw [persistEvents_outcomes]
  exact hok _

end

/-- Every tick of a run settles the alert with id `i`. -/
def Settled (text : DetailText) (i : String) : List Tick → Service → Prop
  | [], _ => True
  | x :: ticks, s => Settles text i x s ∧ Settled text i ticks (s.tick text x).1

def ActiveId (i : String) (e : Engine) : Prop := ∃ a ∈ sustainedAlerts e, a.id = i

section
variable {text : DetailText} {i : String} {s : Service} {x : Tick}

theorem Lost.run {ticks : List Tick} (h : Lost i s) : Lost i (s.runTicks text ticks).1 := by
  induction ticks generalizing s with
  | nil => exact h
  | cons x ticks ih => exact ih (h.tick text x)

theorem Agrees.run {ticks : List Tick} (h : Agrees i s) :
    (Settled text i ticks s → Agrees i (s.runTicks text ticks).1) ∧
      (¬ Settled text i ticks s → Lost i (s.runTicks text ticks).1) := by
  induction ticks generalizing s with
  | nil => exact ⟨fun _ => h, fun hn => absurd trivial hn⟩
  | cons x ticks ih =>
    refine ⟨fun hs => (ih (h.tick hs.1)).1 hs.2, fun hn => ?_⟩
    by_cases hx : Settles text i x s
    · exact (ih (h.tick hx)).2 fun hs => hn ⟨hx, hs⟩
    · exact (h.lost hx).run

private theorem runTicks_concat (ticks : List Tick) :
    (s.runTicks text (ticks ++ [x])).1 = ((s.runTicks text ticks).1.tick text x).1 := by
  induction ticks generalizing s with
  | nil => rfl
  | cons y ticks ih => exact ih

theorem Lost.not_iff (h : Lost i s) : ¬ (FiringRow i s.store ↔ ActiveId i s.engine) := by
  intro hiff
  obtain ⟨a, ha, hid⟩ := hiff.mp h.row
  exact h.gone _ a (mem_activeAlerts.mp (mem_of_mem_filter ha)) hid

theorem Agrees.iff_of_stored (h : Agrees i s) (hstored : ∀ a ∈ sustainedAlerts s.engine, s.store[a.id]?.isSome) :
    FiringRow i s.store ↔ ActiveId i s.engine := by
  constructor
  · rintro ⟨r, hr, hs, hk⟩
    obtain ⟨a, ha, hid⟩ := h.rows.held r hr hs hk
    have hkey := s.engine.keyed ha
    refine ⟨a, mem_filter.mpr ⟨mem_activeAlerts.mpr (hkey ▸ ha), ?_⟩, hid⟩
    rw [hkey]
    exact hk
  · rintro ⟨a, ha, rfl⟩
    obtain ⟨r, hr⟩ := Option.isSome_iff_exists.mp (hstored a ha)
    obtain ⟨hmem, hk⟩ := mem_filter.mp ha
    obtain ⟨hrkey, hrs⟩ := h.rows.row _ a r (mem_activeAlerts.mp hmem) rfl hr
    exact ⟨r, hr, hrs, hrkey ▸ hk⟩

/-- Where the active alerts of a run come from. -/
theorem origin_run (text : DetailText) (ticks : List Tick) (hf : AllFiring s.engine) :
    (∀ n, ∃ m, (s.runTicks text ticks).1.engine.ids.get n = s.engine.ids.get m) ∧
      ∀ (k : String) (b : Alert), (s.runTicks text ticks).1.engine.active[k]? = some b →
        (∃ a, s.engine.active[k]? = some a ∧ b.id = a.id) ∨ ∃ n, b.id = s.engine.ids.get n := by
  induction ticks generalizing s with
  | nil => exact ⟨fun n => ⟨n, rfl⟩, fun k b hb => .inl ⟨b, hb, rfl⟩⟩
  | cons x ticks ih =>
    obtain ⟨persisted, alerts, hp⟩ := s.persisting_tick text x hf
    obtain ⟨hids, hactive⟩ := ih hp.told.firing
    refine ⟨fun n => ?_, fun k b hb => ?_⟩
    · obtain ⟨m, hm⟩ := hids n
      obtain ⟨l, hl⟩ := hp.told.later m
      exact ⟨l, hm.trans hl⟩
    · rcases hactive k b hb with ⟨a, ha, hid⟩ | ⟨n, hn⟩
      · rcases hp.told.origin k a ha with ⟨c, hc, hid', -⟩ | ⟨-, n, hn⟩
        · exact .inl ⟨c, hc, hid.trans hid'⟩
        · exact .inr ⟨n, hid.trans hn⟩
      · obtain ⟨m, hm⟩ := hp.told.later n
        exact .inr ⟨m, hn.trans hm⟩

end

section
variable {e : Engine}

theorem ids_restore (alerts : List Alert) (e : Engine) : (e.restore alerts).ids = e.ids := by
  induction alerts generalizing e with
  | nil => rfl
  | cons a alerts ih =>
    rw [restore, ih]
    split <;> rfl

theorem restore_active {alerts : List Alert} {k : String} {a : Alert} (h : (e.restore alerts).active[k]? = some a) :
    e.active[k]? = some a ∨ a ∈ alerts ∧ a.state = .firing := by
  induction alerts generalizing e with
  | nil => exact .inl h
  | cons b alerts ih =>
    rcases ih h with h | ⟨hmem, hs⟩
    · split at h
      · rename_i hs
        change (e.active.insert b.key b)[k]? = some a at h
        rw [getElem?_insert_eq] at h
        split at h
        · cases h
          exact .inr ⟨mem_cons_self, hs⟩
        · exact .inl h
      · exact .inl h
    · exact .inr ⟨.tail _ hmem, hs⟩

variable {opts : ServiceOptions} {store : AlertTable} {rows : List AlertRow}

theorem active_restored {text : DetailText} {now : ℤ} {k : String} {a : Alert}
    (h : ((Service.new opts store).restore text now rows).engine.active[k]? = some a) :
    a.state = .firing ∧ ∃ r ∈ rows, a.id = r.id := by
  rcases restore_active h with h | ⟨hmem, hs⟩
  · exact absurd h (by simp [Service.new, Engine.new])
  · obtain ⟨r, hr, rfl⟩ := mem_map.mp hmem
    exact ⟨hs, r, hr, rfl⟩

private theorem agrees_restored (text : DetailText) (now : ℤ) (hinj : Function.Injective opts.ids.get)
    (hnew : ∀ n, store[opts.ids.get n]? = none) (hrows : ∀ r ∈ rows, store[r.id]? = some r) (n : ℕ) :
    Agrees (opts.ids.get n) ((Service.new opts store).restore text now rows) := by
  have hids : ((Service.new opts store).restore text now rows).engine.ids = opts.ids :=
    ids_restore _ _
  have hother : NoAlert (opts.ids.get n) ((Service.new opts store).restore text now rows).engine := by
    intro k a ha hid
    obtain ⟨-, r, hr, har⟩ := active_restored ha
    have hrow := hrows r hr
    rw [← har, hid, hnew n] at hrow
    cases hrow
  refine ⟨fun k a ha => (active_restored ha).1, ⟨hids ▸ hinj, fun _ _ => hother, ?_⟩, fun _ _ => hnew n, ?_, ?_⟩
  · exact fun k k' a a' ha _ hid _ => absurd hid (hother k a ha)
  · intro k hk
    change ((∅ : KeyMap ℤ)[k]?).isSome at hk
    simp at hk
  · refine ⟨fun k a r ha hid _ => absurd hid (hother k a ha), fun r hr _ _ => ?_⟩
    have hrow : store[opts.ids.get n]? = some r := hr
    rw [hnew n] at hrow
    cases hrow

/-- Over every run of ticks, with any pattern of failing writes, that ends in a tick whose
`ps` and writes succeed: the firing rows of the sustained alerts that the service created are
those of its active alerts, exactly if no write of a resolved alert failed that had a row. -/
theorem store_agrees_iff_settled (text : DetailText) (opts : ServiceOptions) (store : AlertTable)
    (now : ℤ) (rows : List AlertRow) (ticks : List Tick) (x : Tick)
    (hinj : Function.Injective opts.ids.get) (hnew : ∀ n, store[opts.ids.get n]? = none)
    (hrows : ∀ r ∈ rows, store[r.id]? = some r) (hps : x.probe.ps.isSome) (hok : ∀ n, x.outcomes.get n = true) :
    let s₀ := (Service.new opts store).restore text now rows
    let s := (s₀.runTicks text (ticks ++ [x])).1
    (∀ i, ActiveId i s.engine → (∃ n, i = opts.ids.get n) ∨ ∃ r ∈ rows, i = r.id) ∧
    ((∀ n, FiringRow (opts.ids.get n) s.store ↔ ActiveId (opts.ids.get n) s.engine) ↔
      ∀ n, Settled text (opts.ids.get n) ticks s₀) := by
  intro s₀ s
  have hstart := agrees_restored text now hinj hnew hrows
  have hids : s₀.engine.ids = opts.ids := ids_restore _ _
  have hlast : s = ((s₀.runTicks text ticks).1.tick text x).1 := runTicks_concat ticks
  refine ⟨?_, fun h n => ?_, fun h n => ?_⟩
  · rintro i ⟨a, ha, rfl⟩
    obtain ⟨-, hactive⟩ := origin_run text (ticks ++ [x]) (hstart 0).firing
    rcases hactive _ a (mem_activeAlerts.mp (mem_of_mem_filter ha)) with ⟨b, hb, hid⟩ | ⟨n, hn⟩
    · obtain ⟨-, r, hr, hbr⟩ := active_restored hb
      exact .inr ⟨r, hr, hid.trans hbr⟩
    · exact .inl ⟨n, hids ▸ hn⟩
  · by_contra hn
    have hlost := ((hstart n).run.2 hn).tick text x
    rw [← hlast] at hlost
    exact hlost.not_iff (h n)
  · have hagrees := (hstart n).run.1 (h n)
    have hstored := hagrees.stored text hps hok
    have hlater := hagrees.tick (settles_of_ok text hok)
    rw [← hlast] at hstored hlater
    exact hlater.iff_of_stored hstored

end

/-- A window of four minutes and ids that are all different. -/
def shortOptions : ServiceOptions where
  sustained := { defaultSustainedConfig with window := 240 * second }
  interval := 15 * second
  os := .darwin
  ids := fun n => String.ofList (List.replicate (n + 1) 'x')

theorem shortOptions_ids : Function.Injective shortOptions.ids.get := by
  intro n m h
  have hlen := congrArg String.length h
  simpa [shortOptions, Stream'.get] using hlen

/-- A tick every 90 seconds that lists a busy process or none, and whose writes all succeed or all
fail. -/
def shortTick (busy ok : Bool) (i : ℤ) : Tick :=
  ⟨default, 90 * i * second,
    ⟨some (if busy then [⟨42, 1, "yes", 100, 0, false⟩] else []), fun _ => none, fun _ => ("", true)⟩,
    Stream'.const ok⟩

def shortService : Service := (Service.new shortOptions ∅).restore plainText 0 []

/-- The write that fails when the alert fires is made up for. -/
theorem store_agrees_after_failed_write :
    let s := (shortService.runTicks plainText ([shortTick true true 0, shortTick true true 1,
      shortTick true true 2, shortTick true false 3] ++ [shortTick true true 4])).1
    FiringRow "x" s.store ∧ ActiveId "x" s.engine := by
  intro s
  have hnone : ∀ ev ∈ ((shortService.runTicks plainText [shortTick true true 0, shortTick true true 1,
      shortTick true true 2]).1.tick plainText (shortTick true false 3)).2, ev.type ≠ .resolved := by
    decide +kernel
  have hactive : ActiveId "x" s.engine := by
    rw [ActiveId]
    decide +kernel
  have hagree := (store_agrees_iff_settled plainText shortOptions ∅ 0 [] [shortTick true true 0,
    shortTick true true 1, shortTick true true 2, shortTick true false 3] (shortTick true true 4)
    shortOptions_ids (by simp) (by simp) rfl (fun _ => rfl)).2.mpr fun n =>
      ⟨settles_of_ok _ fun _ => rfl, settles_of_ok _ fun _ => rfl, settles_of_ok _ fun _ => rfl,
        fun _ ev hev ht => absurd ht (hnone ev (mem_of_getElem? hev)), trivial⟩
  exact ⟨(hagree 0).mpr hactive, hactive⟩

def failedTicks : List Tick :=
  [shortTick true true 0, shortTick true true 1, shortTick true true 2, shortTick true true 3,
    shortTick false true 4, shortTick false false 5]

/-- An alert is resolved, the write of that fails, and the next tick, although all its writes
succeed, leaves the row firing. -/
theorem store_keeps_resolved_alert :
    ¬ ∀ (text : DetailText) (opts : ServiceOptions) (store : AlertTable) (now : ℤ)
      (rows : List AlertRow) (ticks : List Tick) (x : Tick),
      Function.Injective opts.ids.get → (∀ n, store[opts.ids.get n]? = none) →
      (∀ r ∈ rows, store[r.id]? = some r) → x.probe.ps.isSome →
      (∀ n, x.outcomes.get n = true) →
      let s := (((Service.new opts store).restore text now rows).runTicks text (ticks ++ [x])).1
      ∀ n, FiringRow (opts.ids.get n) s.store ↔ ActiveId (opts.ids.get n) s.engine := by
  intro h
  have hagree := h plainText shortOptions ∅ 0 [] failedTicks (shortTick false true 6)
    shortOptions_ids (by simp) (by simp) rfl (fun _ => rfl) 0
  have hrun : (shortService.runTicks plainText (failedTicks ++ [shortTick false true 6])).1.store["x"]? =
      some ⟨"x", "cpu.sustained:yes:42", "warn", "yes sustained high CPU", "busy", .firing, 270 * second, none, none⟩ ∧
      ¬ ActiveId "x" (shortService.runTicks plainText (failedTicks ++ [shortTick false true 6])).1.engine := by
    rw [ActiveId]
    decide +kernel
  exact hrun.2 (hagree.mp ⟨_, hrun.1, rfl, by decide +kernel⟩)

end Spectra.Hostwatch
