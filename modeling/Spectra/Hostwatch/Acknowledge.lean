import Spectra.Hostwatch.Writers
import Spectra.Hostwatch.StoreAgreement

/-! What becomes of an acknowledgement when other goroutines write the alert's row. -/
namespace Spectra.Hostwatch
open Library Engine List List.Subset AlertTable Watch

/-- An alert computed while the engine went from `e` to `e'`: an active one kept, or one that
fired. -/
def Captured (e e' : Engine) (a : Alert) : Prop :=
  (∃ (k : String) (b : Alert), e.active[k]? = some b ∧ b.Keeps a) ∨
    (∃ n, a.id = e.ids.get n) ∧ ∃ (k : String) (b : Alert), e'.active[k]? = some b ∧ b.id = a.id

section
variable {e e' : Engine} {rt : Runtime} {op : Op} {a : Alert}

theorem Captured.of_origin {k : String} {b : Alert} (ha : e.Origin k a)
    (hb : e'.active[k]? = some b) (hid : b.id = a.id) : Captured e e' a := by
  rcases ha with ⟨c, hc, hkeep⟩ | ⟨-, hn⟩
  · exact .inl ⟨k, c, hc, hkeep⟩
  · exact .inr ⟨hn, k, b, hb, hid⟩

theorem captured_active {k : String} (ha : (e.step rt op).1.active[k]? = some a) : Captured e (e.step rt op).1 a :=
  .of_origin (origin_step ha) ha rfl

theorem captured_event {ev : Event} (hev : ev ∈ (e.step rt op).2) : Captured e (e.step rt op).1 ev.alert := by
  have hmem := mem_eventsOf hev
  cases outcome_step rt op e ev.alert.key with
  | quiet _ hout =>
    rw [hout] at hmem
    cases hmem
  | hit b halert _ hout =>
    obtain ⟨-, hid, horigin⟩ := hout ev hmem
    exact .of_origin horigin halert hid.symm
  | resolved b now hb _ hout =>
    rw [hout, mem_singleton] at hmem
    rw [hmem]
    exact .inl ⟨_, b, hb, .refl b⟩

theorem KeptFrom.captured (h : KeptFrom e a) : Captured e e' a := by
  obtain ⟨b, hb, hkeep, -⟩ := h
  exact .inl ⟨_, b, hb, hkeep⟩

end

theorem Watch.getElem?_upsert {ok : Bool} {a : Alert} {t : AlertTable} {i : String} {r : AlertRow}
    (h : (upsert ok a t)[i]? = some r) :
    (∃ r', t[i]? = some r' ∧ r.ackedAt = r'.ackedAt) ∨ a.id = i ∧ r.ackedAt = a.ackedAt := by
  rw [upsert] at h
  split at h
  · rw [getElem?_upsertAlert] at h
    split at h
    · rename_i hid
      refine .inr ⟨hid, ?_⟩
      cases h
      cases t[i]? <;> rfl
    · exact .inl ⟨r, h, rfl⟩
  · exact .inl ⟨r, h, rfl⟩

/-- A row of `m'` keeps its acknowledgement, gets one, or is the write of a pending alert. -/
def Rewrites (m m' : Watch) : Prop :=
  ∀ (i : String) r, m'.store[i]? = some r →
    (∃ r', m.store[i]? = some r' ∧ (r.ackedAt = r'.ackedAt ∨ r.ackedAt.isSome)) ∨
      ∃ a ∈ m.pending, a.id = i ∧ r.ackedAt = a.ackedAt

/-- What a step does, as to ids and acknowledgements: it captures alerts of the engine, and
writes what was captured. -/
structure Advances (m m' : Watch) : Prop where
  pending : ∀ a ∈ m'.pending, a ∈ m.pending ∨ Captured m.engine m'.engine a
  active : ∀ (k : String) (a : Alert), m'.engine.active[k]? = some a → Captured m.engine m'.engine a
  later : Later m.engine m'.engine
  own : ∀ i, OwnId i m.engine → OwnId i m'.engine
  store : Rewrites m m'

namespace Advances
variable {m m' : Watch}

theorem of_engine (he : m'.engine = m.engine) (hp : m'.pending ⊆ m.pending) (hs : Rewrites m m') : Advances m m' := by
  refine ⟨fun a ha => .inl (hp ha), fun k a ha => ?_, Later.of_eq (by rw [he]), fun i h => he ▸ h, hs⟩
  rw [he] at ha
  exact .inl ⟨_, _, ha, .refl _⟩

theorem of_store (rt : Runtime) (op : Op) (hs : m'.store = m.store) (he : m'.engine = (m.engine.step rt op).1)
    (hp : ∀ a ∈ m'.pending, a ∈ m.pending ∨ Captured m.engine (m.engine.step rt op).1 a) : Advances m m' := by
  refine ⟨he ▸ hp, fun k a ha => ?_, ?_, fun i h => ?_, fun i r hr => .inl ⟨r, hs ▸ hr, .inl rfl⟩⟩
  · rw [he] at ha ⊢
    exact captured_active ha
  · rw [he]
    exact later_step rt op _
  · rw [he]
    exact ownId_step rt op h

theorem of_write (ok : Bool) {a : Alert} (he : m'.engine = m.engine) (hp : m'.pending ⊆ m.pending) (ha : a ∈ m.pending)
    (hs : m'.store = upsert ok a m.store) : Advances m m' := by
  refine of_engine he hp fun i r hr => ?_
  rw [hs] at hr
  rcases getElem?_upsert hr with ⟨r', hr', hack⟩ | ⟨hid, hack⟩
  · exact .inl ⟨r', hr', .inl hack⟩
  · exact .inr ⟨a, ha, hid, hack⟩

theorem refl (m : Watch) : Advances m m :=
  of_engine rfl (List.Subset.refl _) fun _ r hr => .inl ⟨r, hr, .inl rfl⟩

end Advances

section
variable {now : ℤ} {previous : String → String} {a : Alert} {persisted : KeyMap SpawnPersistRecord}

theorem mem_spawnItemEvents {events : List Event}
    (h : a ∈ (spawnItemEvents now previous events persisted).1) : ∃ ev ∈ events, ev.alert = a := by
  induction events generalizing persisted with
  | nil => simp [spawnItemEvents] at h
  | cons ev events ih =>
    have hcons {persisted : KeyMap SpawnPersistRecord}
        (h : a ∈ ev.alert :: (spawnItemEvents now previous events persisted).1) :
        ∃ ev' ∈ ev :: events, ev'.alert = a := by
      rcases mem_cons.mp h with rfl | h
      · exact ⟨ev, mem_cons_self, rfl⟩
      · obtain ⟨ev', hev, rfl⟩ := ih h
        exact ⟨ev', .tail _ hev, rfl⟩
    rw [spawnItemEvents] at h
    split at h
    · exact hcons h
    · split at h
      · obtain ⟨ev', hev, rfl⟩ := ih h
        exact ⟨ev', .tail _ hev, rfl⟩
      · exact hcons h

theorem mem_spawnItemActive {alerts : List Alert} (h : a ∈ (spawnItemActive now alerts persisted).1) : a ∈ alerts := by
  induction alerts generalizing persisted with
  | nil => simp [spawnItemActive] at h
  | cons b alerts ih =>
    rw [spawnItemActive] at h
    split at h
    · exact .tail _ (ih h)
    · rcases mem_cons.mp h with rfl | h
      · exact .head _
      · exact .tail _ (ih h)

end

section
variable {m : Watch}

theorem mem_pending {a : Alert} : a ∈ m.pending ↔ a ∈ m.slow ∨
    (∃ ev ∈ m.sustained.events, ev.alert = a) ∨ a ∈ m.sustained.active ∨
    a ∈ m.published.getD [] ∨ (∃ item ∈ m.queue, a ∈ item) ∨ a ∈ m.writing := by
  simp [pending]

theorem pending_subset {m' : Watch} (hslow : m'.slow ⊆ m.slow) (hevents : m'.sustained.events ⊆ m.sustained.events)
    (hactive : m'.sustained.active ⊆ m.sustained.active)
    (hpublished : m'.published = m.published) (hqueue : m'.queue = m.queue)
    (hwriting : m'.writing ⊆ m.writing) : m'.pending ⊆ m.pending := by
  intro a ha
  rw [mem_pending, hpublished, hqueue] at ha
  rw [mem_pending]
  refine Or.imp (@hslow a) (Or.imp ?_ (Or.imp (@hactive a) (Or.imp_right (Or.imp_right (@hwriting a))))) ha
  rintro ⟨ev, hev, rfl⟩
  exact ⟨ev, hevents hev, rfl⟩

private theorem persistActive_store (now : ℤ) (a : Alert) (p : KeyMap ℤ) (t : AlertTable) (ok : Bool) :
    (Writes.persistActive now [a] (p, ⟨t, Stream'.const ok⟩)).2.store =
      if Writes.Recent now p a.key then t else upsert ok a t := by
  rw [Writes.persistActive_cons]
  split <;> rfl

variable (ok : Bool) (m : Watch)

private theorem advances_writeSustained : Advances m (m.writeSustained ok) := by
  rw [writeSustained]
  split
  · rename_i ev events hev
    refine .of_write ok (a := ev.alert) rfl (pending_subset ?_ ?_ ?_ rfl rfl ?_) ?_ rfl
    · exact refl _
    · rw [hev]
      exact subset_cons_self _ _
    · exact refl _
    · exact refl _
    · exact mem_pending.mpr (.inr (.inl ⟨ev, hev ▸ mem_cons_self, rfl⟩))
  · rename_i a active _ hactive
    have hsub : active ⊆ m.sustained.active := hactive ▸ subset_cons_self _ _
    have hmem : a ∈ m.pending := mem_pending.mpr (.inr (.inr (.inl (hactive ▸ (.head _)))))
    have hstore := persistActive_store m.sustained.now a m.persisted m.store ok
    split at hstore
    · refine .of_engine rfl (pending_subset ?_ ?_ hsub rfl rfl ?_) fun i r hr =>
        .inl ⟨r, hstore ▸ hr, .inl rfl⟩
      all_goals exact refl _
    · refine .of_write ok (a := a) rfl (pending_subset ?_ ?_ hsub rfl rfl ?_) hmem hstore
      all_goals exact refl _
  · exact .refl m

variable (rt : Runtime) (now : ℤ) (conds : List Condition) (m : Watch)

private theorem advances_tick : Advances m (m.step (.tick rt now conds)) := by
  rw [Watch.step]
  split
  · refine .of_store rt (.evaluateSlow now conds) rfl rfl fun a ha => ?_
    rcases mem_pending.mp ha with ha | ha
    · obtain ⟨ev, hev, rfl⟩ := mem_map.mp ha
      exact .inr (captured_event hev)
    · exact .inl (mem_pending.mpr (.inr ha))
  · exact .refl m

private theorem advances_tickSustained : Advances m (m.step (.tickSustained rt now conds)) := by
  rw [Watch.step]
  split
  · refine .of_store rt (.evaluateSustained now conds) rfl rfl fun a ha => ?_
    rcases mem_pending.mp ha with ha | ⟨ev, hev, rfl⟩ | ha | ha
    · exact .inl (mem_pending.mpr (.inl ha))
    · rcases mem_append.mp hev with hev | hev
      · exact .inr (captured_event hev)
      · exact .inr (captured_active (mem_clearedNoteEvents hev).2)
    · exact .inr (captured_active (mem_activeAlerts.mp (mem_of_mem_filter ha)))
    · exact .inl (mem_pending.mpr (.inr (.inr (.inr ha))))
  · exact .refl m

private theorem advances_flagProbeUnavailable (now : ℤ) (m : Watch) :
    Advances m (m.step (.flagProbeUnavailable now)) := by
  rw [Watch.step]
  split
  · obtain ⟨hsame, hev, hnoted⟩ := flagAlerts_kept (.refl m.engine) fun a ha =>
      mem_activeAlerts.mp (mem_of_mem_filter ha)
    refine ⟨fun a ha => ?_, fun k a ha => ?_, Later.of_eq hsame.ids, fun i h => hsame.ownId h,
      fun i r hr => .inl ⟨r, hr, .inl rfl⟩⟩
    · rcases mem_pending.mp ha with ha | ⟨ev, hmem, rfl⟩ | ha | ha
      · exact .inl (mem_pending.mpr (.inl ha))
      · exact .inr (hev ev hmem).2.captured
      · exact .inr (hnoted a ha).captured
      · exact .inl (mem_pending.mpr (.inr (.inr (.inr ha))))
    · obtain ⟨b, hb, hkeep, -⟩ := hsame.alert k a ha
      exact .inl ⟨k, b, hb, hkeep⟩
  · exact .refl m

private theorem advances_publishSpawn (parentPID : ℤ) (m : Watch) :
    Advances m (m.step (.publishSpawn rt now conds parentPID)) := by
  rw [Watch.step]
  split
  · refine .of_store rt (.evaluateSpawn now conds [parentPID]) rfl rfl fun a ha => ?_
    rcases mem_pending.mp ha with ha | ha | ha | ha | ha
    · exact .inl (mem_pending.mpr (.inl ha))
    · exact .inl (mem_pending.mpr (.inr (.inl ha)))
    · exact .inl (mem_pending.mpr (.inr (.inr (.inl ha))))
    · rcases (mem_append.mp ha).imp mem_spawnItemEvents mem_spawnItemActive with ⟨ev, hev, rfl⟩ | ha
      · exact .inr (captured_event hev)
      · exact .inr (captured_active (mem_activeAlerts.mp ha))
    · exact .inl (mem_pending.mpr (.inr (.inr (.inr (.inr ha)))))
  · exact .refl m

private theorem advances_enqueueSpawn : Advances m (m.step .enqueueSpawn) := by
  unfold Watch.step
  dsimp only
  split
  · exact .refl m
  · rename_i item hitem
    refine .of_engine rfl (fun a ha => ?_) fun i r hr => .inl ⟨r, hr, .inl rfl⟩
    refine mem_pending.mpr ((mem_pending.mp ha).imp_right (.imp_right (.imp_right fun ha => ?_)))
    rcases ha with ha | ⟨item', hmem, hin⟩ | ha
    · cases ha
    · have hcases : item' ∈ m.queue ∨ item' = item := by
        split at hmem
        · simpa using hmem
        · exact .inl hmem
      rcases hcases with hmem | rfl
      · exact .inr (.inl ⟨item', hmem, hin⟩)
      · exact .inl (by simpa [hitem] using hin)
    · exact .inr (.inr ha)

private theorem advances_receiveSpawn : Advances m (m.step .receiveSpawn) := by
  unfold Watch.step
  dsimp only
  split
  · rename_i item queue hwriting hqueue
    refine .of_engine rfl (fun a ha => ?_) fun i r hr => .inl ⟨r, hr, .inl rfl⟩
    refine mem_pending.mpr ((mem_pending.mp ha).imp_right
      (.imp_right (.imp_right (.imp_right fun ha => .inl ?_))))
    rcases ha with ⟨item', hmem, ha⟩ | ha
    · exact ⟨item', hqueue ▸ mem_cons_of_mem _ hmem, ha⟩
    · exact ⟨item, hqueue ▸ mem_cons_self, ha⟩
  · exact .refl m

private theorem advances_writeSlow : Advances m (m.step (.writeSlow ok)) := by
  unfold Watch.step
  dsimp only
  split
  · exact .refl m
  · rename_i a slow hslow
    refine .of_write ok (a := a) rfl (pending_subset ?_ (refl _) (refl _) rfl rfl (refl _)) ?_ rfl
    · exact hslow ▸ subset_cons_self _ _
    · exact mem_pending.mpr (.inl (hslow ▸ mem_cons_self))

private theorem advances_writeSpawn : Advances m (m.step (.writeSpawn ok)) := by
  unfold Watch.step
  dsimp only
  split
  · exact .refl m
  · rename_i a writing hwriting
    refine .of_write ok (a := a) rfl (pending_subset (refl _) (refl _) (refl _) rfl rfl ?_) ?_ rfl
    · exact hwriting ▸ subset_cons_self _ _
    · exact mem_pending.mpr (.inr (.inr (.inr (.inr (.inr (hwriting ▸ mem_cons_self))))))

/-- Every step captures alerts of the engine or writes captured ones, and takes no
acknowledgement away otherwise. -/
theorem advances_step (op : WatchOp) (m : Watch) : Advances m (m.step op) := by
  cases op with
  | tick rt now conds => exact advances_tick rt now conds m
  | writeSlow ok => exact advances_writeSlow ok m
  | tickSustained rt now conds => exact advances_tickSustained rt now conds m
  | flagProbeUnavailable now => exact advances_flagProbeUnavailable now m
  | writeSustained ok => exact advances_writeSustained ok m
  | publishSpawn rt now conds parentPID => exact advances_publishSpawn rt now conds parentPID m
  | enqueueSpawn => exact advances_enqueueSpawn m
  | receiveSpawn => exact advances_receiveSpawn m
  | writeSpawn ok => exact advances_writeSpawn ok m
  | ackStore id now =>
    refine .of_engine rfl (refl _) fun i r hr => .inl ?_
    change (m.store.ackAlert id now).1[i]? = some r at hr
    rw [getElem?_ackAlert] at hr
    split at hr
    · rename_i hid
      obtain ⟨r', hr', rfl⟩ := Option.map_eq_some_iff.mp hr
      exact ⟨r', hid ▸ hr', .inr rfl⟩
    · exact ⟨r, hr, .inl rfl⟩
  | ackEngine rt id now => exact .of_store rt (.ack id now) rfl rfl fun a ha => .inl ha
  | prune now keepDays =>
    exact .of_engine rfl (refl _) fun i r hr =>
      .inl ⟨r, getElem?_pruneResolvedAlerts hr, .inl rfl⟩

end

namespace Watch

/-- No captured alert of the id is without its acknowledgement. -/
def Clear (id : String) (m : Watch) : Prop := ∀ a ∈ m.pending, a.id = id → a.ackedAt.isSome

/-- In no state of the run does a goroutine hold an alert of the id that is not
acknowledged. -/
def ClearDuring (id : String) : List WatchOp → Watch → Prop
  | [], m => m.Clear id
  | op :: ops, m => m.Clear id ∧ ClearDuring id ops (m.step op)

/-- Ids to come are not in use. -/
structure Sane (m : Watch) : Prop where
  own : ∀ i, OwnId i m.engine
  store : ∀ n, m.store[m.engine.ids.get n]? = none
  pending : ∀ n, ∀ a ∈ m.pending, a.id ≠ m.engine.ids.get n

/-- The alert with the id is acknowledged wherever it is. -/
structure Acked (id : String) (m : Watch) : Prop where
  past : ∀ n, m.engine.ids.get n ≠ id
  row : ∀ r, m.store[id]? = some r → r.ackedAt.isSome
  pending : m.Clear id
  active : ∀ (k : String) (a : Alert), m.engine.active[k]? = some a → a.id = id → a.ackedAt.isSome

variable {m m' : Watch} {id : String}

theorem Sane.advances (h : m.Sane) (hm : Advances m m') : m'.Sane := by
  refine ⟨fun i => hm.own i (h.own i), fun n => ?_, fun n a ha hid => ?_⟩
  · obtain ⟨l, hl⟩ := hm.later n
    rw [hl]
    by_contra hne
    obtain ⟨r, hr⟩ := Option.ne_none_iff_exists'.mp hne
    rcases hm.store _ r hr with ⟨r', hr', -⟩ | ⟨a, ha, hid, -⟩
    · rw [h.store l] at hr'
      cases hr'
    · exact h.pending l a ha hid
  · obtain ⟨l, hl⟩ := hm.later n
    rcases hm.pending a ha with ha | ⟨k, b, hb, hkeep⟩ | ⟨-, k, b, hb, hba⟩
    · exact h.pending l a ha (hid.trans hl)
    · exact (h.own _).fresh l rfl k b hb (hkeep.1.symm.trans (hid.trans hl))
    · exact (hm.own _ (h.own _)).fresh n rfl k b hb (hba.trans hid)

theorem row_advances (hclear : m.Clear id) (h : ∀ r, m.store[id]? = some r → r.ackedAt.isSome)
    (hm : Advances m m') : ∀ r, m'.store[id]? = some r → r.ackedAt.isSome := by
  intro r hr
  rcases hm.store id r hr with ⟨r', hr', hack | hack⟩ | ⟨a, ha, hid, hack⟩
  · rw [hack]
    exact h r' hr'
  · exact hack
  · rw [hack]
    exact hclear a ha hid

theorem Acked.captured {a : Alert} (h : m.Acked id) (ha : Captured m.engine m'.engine a)
    (hid : a.id = id) : a.ackedAt.isSome := by
  rcases ha with ⟨k, b, hb, hkeep⟩ | ⟨⟨n, hn⟩, -⟩
  · exact hkeep.2.2 (h.active k b hb (hkeep.1.symm.trans hid))
  · exact absurd (hn.symm.trans hid) (h.past n)

theorem Acked.advances (h : m.Acked id) (hm : Advances m m') : m'.Acked id where
  past := hm.later.past h.past
  row := row_advances h.pending h.row hm
  pending := fun a ha hid => (hm.pending a ha).elim (fun ha => h.pending a ha hid)
    fun ha => h.captured ha hid
  active := fun k a ha hid => h.captured (hm.active k a ha) hid

theorem Sane.run (h : m.Sane) (ops : List WatchOp) : (m.run ops).Sane := by
  induction ops generalizing m with
  | nil => exact h
  | cons op ops ih => exact ih (h.advances (advances_step op m))

theorem Acked.run {ops : List WatchOp} (h : m.Acked id) : (m.run ops).Acked id := by
  induction ops generalizing m with
  | nil => exact h
  | cons op ops ih => exact ih (h.advances (advances_step op m))

theorem ClearDuring.run {ops : List WatchOp} (hclear : ClearDuring id ops m)
    (hpast : ∀ n, m.engine.ids.get n ≠ id) (hrow : ∀ r, m.store[id]? = some r → r.ackedAt.isSome) :
    (m.run ops).Clear id ∧ (∀ n, (m.run ops).engine.ids.get n ≠ id) ∧
      ∀ r, (m.run ops).store[id]? = some r → r.ackedAt.isSome := by
  induction ops generalizing m with
  | nil => exact ⟨hclear, hpast, hrow⟩
  | cons op ops ih =>
    have hm := advances_step op m
    exact ih hclear.2 (hm.later.past hpast) (row_advances hclear.1 hrow hm)

theorem engine_ack_acked {e : Engine} (hown : OwnId id e) (rt : Runtime) (now : ℤ) (k : String)
    (a : Alert) (ha : (e.ack rt id now).1.active[k]? = some a) (hid : a.id = id) : a.ackedAt.isSome := by
  rw [Engine.ack] at ha
  split at ha
  · rename_i hfind
    have hnone := find?_eq_none.mp hfind (k, a) (rt.range.mem_order.mpr ha)
    exact absurd hid (by simpa using hnone)
  · rename_i k' b hfind
    have hb := rt.range.mem_order.mp (mem_of_find?_eq_some hfind)
    have hbid : b.id = id := by simpa using find?_some hfind
    change (e.active.insert b.key { b with ackedAt := some now })[k]? = some a at ha
    rw [getElem?_insert_eq] at ha
    split at ha
    · cases ha
      rfl
    · rename_i hne
      exact absurd ((e.keyed hb).trans (hown.unique k' k b a hb ha hbid hid)) hne

theorem sane_start {ids : Stream' String} {store : AlertTable} {rows : List AlertRow}
    (hinj : Function.Injective ids.get) (hnew : ∀ n, store[ids.get n]? = none)
    (hrows : ∀ r ∈ rows, store[r.id]? = some r) : (start ids store rows).Sane := by
  have hids : (start ids store rows).engine.ids = ids := ids_restore _ _
  have hrestored {k : String} {a : Alert} (ha : (start ids store rows).engine.active[k]? = some a) :
      ∃ r ∈ rows, fromRow r = a := by
    rcases restore_active ha with h | ⟨hmem, -⟩
    · exact absurd h (by simp [Engine.new])
    · exact mem_map.mp hmem
  refine ⟨fun i => ⟨by rw [hids]; exact hinj, fun n hn k a ha hid => ?_, fun k k' a a' ha ha' hid hid' => ?_⟩,
    fun n => ?_, fun n a ha => ?_⟩
  · obtain ⟨r, hr, rfl⟩ := hrestored ha
    have hrow := hrows r hr
    rw [show r.id = ids.get n from hid.trans (hids ▸ hn.symm), hnew n] at hrow
    cases hrow
  · obtain ⟨r, hr, rfl⟩ := hrestored ha
    obtain ⟨r', hr', rfl⟩ := hrestored ha'
    have hsame : r.id = r'.id := hid.trans hid'.symm
    have hrow := hrows r hr
    rw [hsame, hrows r' hr', Option.some.injEq] at hrow
    rw [← (start ids store rows).engine.keyed ha, ← (start ids store rows).engine.keyed ha', hrow]
  · rw [hids]
    exact hnew n
  · simp [start, pending] at ha

end Watch

/-- In every interleaving of an `Ack` with the writers: if no goroutine holds the alert without
its acknowledgement when `AckAlert` runs, or captures it so before the engine is told, then the
row keeps `acked_at` from the return of `Ack` on. -/
theorem ack_kept (ids : Stream' String) (store : AlertTable) (rows : List AlertRow)
    (hinj : Function.Injective ids.get) (hnew : ∀ n, store[ids.get n]? = none)
    (hrows : ∀ r ∈ rows, store[r.id]? = some r) (before during after : List WatchOp) (id : String)
    (now : ℤ) (rt : Runtime) (hfound : (((Watch.start ids store rows).run before).store.ackAlert id now).2.isSome)
    (hclear : Watch.ClearDuring id during
      (((Watch.start ids store rows).run before).step (.ackStore id now))) :
    ∀ r, ((((((Watch.start ids store rows).run before).step (.ackStore id now)).run during).step
      (.ackEngine rt id now)).run after).store[id]? = some r → r.ackedAt.isSome := by
  have hsane := (sane_start hinj hnew hrows).run before
  generalize (start ids store rows).run before = m at *
  have hpast : ∀ n, (m.step (.ackStore id now)).engine.ids.get n ≠ id := by
    intro n hn
    have hnone := hsane.store n
    rw [show m.engine.ids.get n = id from hn] at hnone
    simp [ackAlert, hnone] at hfound
  have hrow : ∀ r, (m.step (.ackStore id now)).store[id]? = some r → r.ackedAt.isSome := by
    intro r hr
    change (m.store.ackAlert id now).1[id]? = some r at hr
    rw [getElem?_ackAlert, if_pos rfl] at hr
    obtain ⟨r', -, rfl⟩ := Option.map_eq_some_iff.mp hr
    rfl
  have hsane' := (hsane.advances (advances_step (.ackStore id now) m)).run during
  obtain ⟨hclear', hpast', hrow'⟩ := hclear.run hpast hrow
  generalize (m.step (.ackStore id now)).run during = m' at *
  have hacked : (m'.step (.ackEngine rt id now)).Acked id :=
    ⟨(advances_step (.ackEngine rt id now) m').later.past hpast', hrow', hclear',
      engine_ack_acked (hsane'.own id) rt now⟩
  exact hacked.run.row

def diskFull (severity : String) : List Condition := [⟨"disk.full", severity, "Disk almost full", ""⟩]

/-- An alert that fires and is stored, is acknowledged, and changes its severity later. -/
theorem ack_kept_after_update :
    ∃ r, ((((((Watch.start shortOptions.ids ∅ []).run [.tick default 1 (diskFull "warn"),
      .writeSlow true]).step (.ackStore "x" 2)).run []).step (.ackEngine default "x" 2)).run
      [.tick default 3 (diskFull "critical"), .writeSlow true]).store["x"]? = some r ∧
      r.severity = "critical" ∧ r.ackedAt.isSome := by
  refine ⟨⟨"x", "disk.full", "critical", "Disk almost full", "", .firing, 1, none, some 2⟩, by decide +kernel, rfl, ?_⟩
  apply ack_kept shortOptions.ids ∅ [] shortOptions_ids (by simp) (by simp)
    [.tick default 1 (diskFull "warn"), .writeSlow true] []
    [.tick default 3 (diskFull "critical"), .writeSlow true] "x" 2 default (by decide +kernel)
  · unfold ClearDuring Clear
    decide +kernel
  · decide +kernel

/-- `Tick` has captured a change of severity; `Ack` runs and returns; the row that `Tick` then
writes has no `acked_at`. -/
theorem ack_lost_to_captured_row :
    ¬ ∀ (ids : Stream' String) (store : AlertTable) (rows : List AlertRow),
      Function.Injective ids.get → (∀ n, store[ids.get n]? = none) →
      (∀ r ∈ rows, store[r.id]? = some r) →
      ∀ (before during after : List WatchOp) (id : String) (now : ℤ) (rt : Runtime),
      (((Watch.start ids store rows).run before).store.ackAlert id now).2.isSome →
      ∀ r, ((((((Watch.start ids store rows).run before).step (.ackStore id now)).run during).step
        (.ackEngine rt id now)).run after).store[id]? = some r → r.ackedAt.isSome := by
  intro h
  have hacked := h shortOptions.ids ∅ [] shortOptions_ids (by simp) (by simp)
    [.tick default 1 (diskFull "warn"), .writeSlow true, .tick default 2 (diskFull "critical")] []
    [.writeSlow true] "x" 3 default (by decide +kernel)
    ⟨"x", "disk.full", "critical", "Disk almost full", "", .firing, 1, none, none⟩ (by decide +kernel)
  cases hacked

end Spectra.Hostwatch
