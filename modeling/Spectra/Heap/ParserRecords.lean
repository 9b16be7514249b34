import Spectra.Heap.HprofRecords

/-! Both parsers read the records of the stream and fold them into their state. -/
namespace Spectra.Heap
open Library Reader GoText List Follows HprofState GraphState

/-- The field data of an instance are within the cap of the graph parser. -/
def SubRecord.FieldsFit : SubRecord → Prop
  | .instanceDump _ _ fields => fields.length ≤ maxInstanceFieldBytes
  | _ => True

section
variable (lim : GraphLimits) (w : IdSize) (st : GraphState)

theorem twins_root (kind : RootKind) (n : ℕ) :
    Twins (fun st' r => st' = st.apply lim w r ∧ r.FieldsFit) (st.readRoot w kind n) (decodeRoot w kind n) := by
  refine .bind_same fun objID => ?_
  apply Twins.ite
  · intro _
    refine .bind_same fun serial => .bind_same fun _ => ?_
    exact .pure ⟨rfl, trivial⟩
  · intro _
    refine .bind_same fun _ => ?_
    exact .pure ⟨rfl, trivial⟩

theorem twins_classDump :
    Twins (fun st' r => st' = st.apply lim w r ∧ r.FieldsFit) (st.readClassDump lim w) (decodeClassDump w) := by
  refine .bind_same fun classObjID => .bind_same fun _ => ?_
  refine .bind_same fun hdr => .bind_same fun instSize => ?_
  refine .bind_same fun _ => .bind_same fun refs => .bind_same fun types => ?_
  exact .pure ⟨rfl, trivial⟩

private theorem decode_instanceDump (missing : ℕ) :
    Follows (fun st' r => st' = st.apply lim w r ∧ r.FieldsFit) (st.readInstanceDump lim w missing)
      (decodeInstanceDump w) := by
  refine .bind_same fun objID => .bind_same fun _ => ?_
  refine .bind_same fun classID => .bind_same fun nbytes => ?_
  refine .remaining fun left => ?_
  split
  · exact .fail
  · intro bs x rest h
    obtain ⟨fields, mid, hfields, h⟩ := run_bind_ok.mp h
    obtain ⟨_, rfl, hlen, -⟩ := (takes_readFull nbytes).mapError bs fields mid hfields
    cases h
    refine ⟨_, run_bind_ok.mpr ⟨fields, _, hfields, rfl⟩, rfl, ?_⟩
    change fields.length ≤ _
    omega

theorem twins_objectArrayDump :
    Twins (fun st' r => st' = st.apply lim w r ∧ r.FieldsFit) (st.readObjectArray lim w) (decodeObjectArrayDump w) := by
  refine .bind_same fun objID => .bind_same fun _ => ?_
  refine .bind_same fun numElems => .bind_same fun arrayClassID => ?_
  refine .bind_same fun elems => ?_
  exact .pure ⟨rfl, trivial⟩

theorem twins_primArrayDump :
    Twins (fun st' r => st' = st.apply lim w r ∧ r.FieldsFit) (st.readPrimArray lim w) (decodePrimArrayDump w) := by
  refine .bind_same fun objID => .bind_same fun _ => ?_
  refine .bind_same fun numElems => .bind_same fun elemType => ?_
  refine .bind_same fun _ => ?_
  exact .pure ⟨rfl, trivial⟩

private theorem decode_readHeapSub (missing : ℕ) (tag : UInt8) :
    Follows (fun st' r => st' = st.apply lim w r ∧ r.FieldsFit) (st.readHeapSub lim w missing tag)
      (decodeSubRecord w tag) := by
  unfold readHeapSub decodeSubRecord
  cases rootRecordLayout w tag with
  | some l => exact (twins_root lim w st l.1 l.2).1
  | none =>
    apply ite (fun _ => (twins_classDump lim w st).1) fun _ => ?_
    apply ite (fun _ => decode_instanceDump lim w st missing) fun _ => ?_
    apply ite (fun _ => (twins_objectArrayDump lim w st).1) fun _ => ?_
    apply ite (fun _ => (twins_primArrayDump lim w st).1) fun _ => ?_
    apply Follows.ite (fun _ => ?_) fun _ => .fail
    exact .bind_same fun _ => .pure ⟨rfl, trivial⟩

theorem check_follows {α : Type} {R : GraphState → α → Prop} {x : α}
    (h : st.b.err = none → R st x) : Follows R st.check (pure x : HprofReader α) := by
  rw [check]
  split
  · exact .fail
  · rename_i herr
    exact .pure (h herr)

/-- The state after some sub-records, and that all of them fit. -/
def ReadSubs (st st' : GraphState) (subs : List SubRecord) : Prop :=
  st' = subs.foldl (GraphState.apply lim w) st ∧ (∀ r ∈ subs, r.FieldsFit) ∧ st'.b.err = none

/-- A heap dump changes the graph as its sub-records say, one after the other, and none of
them breaks a limit. -/
theorem decode_heapDump (herr : st.b.err = none) (length : ℕ) :
    Follows (ReadSubs lim w st) (st.readHeapDump lim w length) (decodeHeapDump w length) := by
  refine .limited (.untilEof ?_ ⟨rfl, by simp, herr⟩)
  rintro tag _ subs ⟨rfl, hfit, _⟩
  apply (decode_readHeapSub lim w _ 0 tag).bind
  rintro _ sub ⟨rfl, hsub⟩
  refine check_follows _ fun herr => ⟨?_, ?_, herr⟩
  · rw [foldl_append]
    rfl
  · rintro r hr
    rcases mem_append.mp hr with hr | hr
    · exact hfit r hr
    · rw [mem_singleton.mp hr]
      exact hsub

theorem twins_string (length : ℕ) :
    Twins (fun st' r => st' = st.applyRecord lim w r ∧ ∀ s ∈ r.subRecords, s.FieldsFit)
      (st.readString w length) (decodeString w length) := by
  apply (Twins.refl w.id).mapError.bind
  rintro id _ rfl
  split
  · rw [if_pos (by omega)]
    exact .fail
  · rw [if_neg (by omega), show ((length : ℤ) - w.bytes).toNat = length - w.bytes by omega]
    apply (Twins.refl (readFull (length - w.bytes))).mapError.bind
    rintro body _ rfl
    exact .pure ⟨rfl, by simp [Record.subRecords]⟩

private theorem decode_readRecord (herr : st.b.err = none) (tag : UInt8) (length : ℕ) :
    Follows (fun st' r => st' = st.applyRecord lim w r ∧ ∀ s ∈ r.subRecords, s.FieldsFit)
      (st.readRecord lim w tag length) (decodeRecord w tag length) := by
  apply ite (fun _ => (twins_string lim w st length).1) fun _ => ?_
  apply Follows.ite (fun _ => ?_) fun _ => ?_
  · refine .bind_same fun _ => .bind_same fun _ => ?_
    refine .bind_same fun _ => .bind_same fun _ => ?_
    exact .pure ⟨rfl, by simp [Record.subRecords]⟩
  · apply Follows.ite (fun _ => ?_) fun _ => ?_
    · exact (decode_heapDump lim w st herr length).map_right fun _ _ h => ⟨h.1, h.2.1⟩
    · exact .bind_same fun _ => .pure ⟨rfl, by simp [Record.subRecords]⟩

def Dump.graphState (d : Dump) : GraphState :=
  d.records.foldl (GraphState.applyRecord lim d.idSize) (GraphState.new d.idSize)

/-- What the graph parser asks of the records of a stream. -/
structure Dump.Accepted (d : Dump) : Prop where
  err : (d.graphState lim).b.err = none
  fields : ∀ r ∈ d.subRecords, r.FieldsFit

/-- The graph of an accepted stream is what its records say, and no limit is broken. -/
theorem decode_readGraph :
    Follows (fun r d => r.1 = d.idSize ∧ r.2 = d.graphState lim ∧ d.Accepted lim) (readGraph lim) decodeDump := by
  refine .bind_same fun w => ?_
  apply bind (R := fun st records => st = (Dump.mk w records).graphState lim ∧ (Dump.mk w records).Accepted lim)
  · refine .untilEof ?_ ⟨rfl, rfl, by simp [Dump.subRecords]⟩
    rintro tag _ records ⟨rfl, hacc⟩
    refine .bind_same fun _ => .bind_same fun length => ?_
    apply (decode_readRecord lim w _ hacc.err tag length).bind
    rintro _ record ⟨rfl, hfit⟩
    have hstate : (Dump.mk w (records ++ [record])).graphState lim =
        applyRecord lim w ((Dump.mk w records).graphState lim) record := by
      unfold Dump.graphState
      rw [foldl_append]
      rfl
    refine check_follows _ fun herr => ⟨hstate.symm, hstate ▸ herr, ?_⟩
    intro r hr
    simp only [Dump.subRecords, flatMap_append, mem_append, flatMap_singleton] at hr
    exact hr.elim (hacc.fields r) (hfit r)
  · rintro st records ⟨rfl, hacc⟩
    exact .pure ⟨rfl, rfl, hacc⟩

theorem parseObjectGraph_ok {lim : GraphLimits} {sort : SliceSort RawObject.id}
    {bs : List UInt8} {g : ObjectGraph} (h : parseObjectGraph lim sort bs = .ok g) :
    ∃ d rest, decodeDump.run bs = .ok (d, rest) ∧ d.Accepted lim ∧
      g = (d.graphState lim).finalize lim d.idSize sort := by
  rw [parseObjectGraph] at h
  cases hr : (readGraph lim).run bs with
  | error e => simp [hr, Except.map] at h
  | ok r =>
    obtain ⟨⟨w, st⟩, rest⟩ := r
    rw [hr] at h
    obtain ⟨d, hdec, rfl, rfl, hacc⟩ := decode_readGraph lim bs _ rest hr
    cases h
    exact ⟨d, rest, hdec, hacc, rfl⟩

end

variable (w : IdSize) (st : HprofState) (tag : UInt8)

/-- The switch of one parser and the table of the other give every sub-record the same size. -/
theorem hprofRootSkipBytes_eq :
    hprofRootSkipBytes w tag =
      if tag = hprofHeapDumpInfo then some (4 + w.bytes) else (rootRecordLayout w tag).map Prod.snd := by
  by_cases hknown : tag ∈ hprofHeapDumpInfo :: rootLayouts.map Prod.fst
  · have hall : ∀ t ∈ hprofHeapDumpInfo :: rootLayouts.map Prod.fst, hprofRootSkipBytes w t =
        if t = hprofHeapDumpInfo then some (4 + w.bytes)
        else (rootRecordLayout w t).map Prod.snd := by
      cases w <;> decide +kernel
    exact hall tag hknown
  · have hlayout : rootLayouts.lookup tag = none := by
      rw [lookup_eq_none_iff]
      intro p hp
      simp only [mem_cons, mem_map, not_or, not_exists, not_and] at hknown
      simpa using fun heq => hknown.2 p hp heq.symm
    simp only [rootLayouts, map_cons, mem_cons, not_or] at hknown
    simp [hprofRootSkipBytes, rootRecordLayout, hlayout, hknown]

private theorem le_of_rootRecordLayout {tag : UInt8} {l : RootKind × ℕ} (h : rootRecordLayout w tag = some l) :
    w.bytes + (if hasThreadSerial l.1 then 4 else 0) ≤ l.2 := by
  have hall : ∀ p ∈ rootLayouts, w.bytes + (if hasThreadSerial p.2.1 then 4 else 0) ≤
      w.bytes * (1 + p.2.2.1) + 4 * p.2.2.2 := by
    cases w <;> decide
  obtain ⟨x, hx, rfl⟩ := Option.map_eq_some_iff.mp h
  obtain ⟨before, after, hsplit, _⟩ := lookup_eq_some_iff.mp hx
  exact hall (tag, x) (by simp [hsplit])

theorem takes_id : Takes w.bytes (fun _ => True) (liftM w.id : HprofReader ℕ) :=
  (takes_uint w.bytes).mapError

theorem skip_follows {α : Type} {n : ℕ} {Q : α → Prop} {p : HprofReader α}
    (h : Takes n Q p) : Follows (fun x _ => Q x) p (liftM (skip n) : HprofReader Unit) :=
  h.follows_skip.mapError_right

private theorem takes_root {kind : RootKind} {n : ℕ} (h : w.bytes + (if hasThreadSerial kind then 4 else 0) ≤ n) :
    Takes n (fun r => st = st.apply w r) (decodeRoot w kind n) := by
  rw [decodeRoot]
  split
  · rename_i hs
    rw [if_pos hs] at h
    obtain ⟨k, rfl⟩ := Nat.exists_eq_add_of_le h
    rw [show w.bytes + 4 + k - w.bytes - 4 = k by omega, Nat.add_assoc]
    refine (takes_id w).bind fun objID _ => (takes_uint 4).mapError.bind fun serial _ => ?_
    refine .bind (n := 0) (takes_skip k).mapError fun _ _ => ?_
    exact .pure rfl
  · rename_i hs
    rw [if_neg hs] at h
    obtain ⟨k, rfl⟩ := Nat.exists_eq_add_of_le h
    rw [show w.bytes + 0 + k - w.bytes = k by omega]
    refine (takes_id w).bind fun objID _ => ?_
    refine .bind (n := 0) (takes_skip k).mapError fun _ _ => ?_
    exact .pure rfl

private theorem skipStaticFields_follows : Follows (fun _ _ => True) (readStaticRefs w) (skipStaticFields w) := by
  refine .bind_same fun count => ?_
  refine .bind (R := fun _ _ => True) ?_ fun _ _ _ => .pure trivial
  refine (collect (R := fun _ _ => True) ?_ count).mono fun _ _ _ => trivial
  refine .bind_same fun _ => bind_same fun typ => ?_
  apply skip_follows
  split
  · exact .bind (n := 0) (takes_skip _).mapError fun _ _ => .pure trivial
  · rename_i htyp
    rw [not_not.mp htyp]
    exact .bind (n := 0) (takes_id w) fun _ _ => .pure trivial

private theorem skipInstanceFields_follows :
    Follows (fun _ _ => True) (readInstanceFieldTypes w) (skipInstanceFields w) := by
  refine .bind_same fun count => ?_
  exact (refl _).map_right fun _ _ _ => trivial

private theorem readClassDump_follows :
    Follows (fun r st' => st' = st.apply w r) (decodeClassDump w) (st.readClassDump w) := by
  refine .bind_same fun classObjID => .bind_same fun _ => ?_
  refine .bind_same fun hdr => .bind_same fun instSize => ?_
  refine .bind_same fun _ => ?_
  refine (skipStaticFields_follows w).bind fun refs _ _ => ?_
  refine (skipInstanceFields_follows w).bind fun types _ _ => ?_
  exact .pure rfl

private theorem readInstanceDump_follows :
    Follows (fun r st' => st' = st.apply w r) (decodeInstanceDump w) (st.readInstanceDump w) := by
  refine .bind_same fun objID => .bind_same fun _ => ?_
  refine .bind_same fun classID => .bind_same fun nbytes => ?_
  refine (skip_follows (takes_readFull nbytes).mapError).bind fun fields _ _ => ?_
  exact .pure rfl

private theorem readObjectArrayDump_follows :
    Follows (fun r st' => st' = st.apply w r) (decodeObjectArrayDump w) (st.readObjectArrayDump w) := by
  refine .bind_same fun objID => .bind_same fun _ => ?_
  refine .bind_same fun numElems => .bind_same fun arrayClassID => ?_
  refine (skip_follows ((takes_id w).collect numElems)).bind fun elems _ hlen => ?_
  subst hlen
  exact .pure rfl

private theorem readPrimArrayDump_follows :
    Follows (fun r st' => st' = st.apply w r) (decodePrimArrayDump w) (st.readPrimArrayDump w) := by
  refine .bind_same fun objID => .bind_same fun _ => ?_
  refine .bind_same fun numElems => .bind_same fun elemType => ?_
  refine .bind_same fun _ => ?_
  exact .pure rfl

/-- A sub-record changes the histogram as it says. -/
theorem readHeapSubRecord_follows :
    Follows (fun r st' => st' = st.apply w r) (decodeSubRecord w tag) (st.readHeapSubRecord w tag) := by
  have hskip := hprofRootSkipBytes_eq w tag
  unfold readHeapSubRecord decodeSubRecord
  by_cases htag : tag = hprofHeapDumpInfo
  · subst htag
    exact .bind_same fun _ => .pure rfl
  · rw [if_neg htag] at hskip
    rw [hskip]
    cases h : rootRecordLayout w tag with
    | some l =>
      apply (skip_follows (takes_root w st (le_of_rootRecordLayout w h))).map_right
      exact fun _ _ h => h
    | none =>
      apply ite (fun _ => readClassDump_follows w st) fun _ => ?_
      apply ite (fun _ => readInstanceDump_follows w st) fun _ => ?_
      apply ite (fun _ => readObjectArrayDump_follows w st) fun _ => ?_
      apply ite (fun _ => readPrimArrayDump_follows w st) fun _ => ?_
      rw [if_neg htag]
      exact .fail

private theorem readStringRecord_follows (length : ℕ) :
    Follows (fun r st' => st' = st.applyRecord w r) (decodeString w length) (st.readStringRecord w length) := by
  apply (refl w.id).mapError.bind
  rintro id _ rfl
  split
  · exact .fail
  · rw [if_neg (by omega), if_neg (by omega),
      show ((length : ℤ) - w.bytes).toNat = length - w.bytes by omega]
    apply (refl (readFull (length - w.bytes))).mapError.bind
    rintro body _ rfl
    exact .pure rfl

private theorem readHPROFRecord_follows (length : ℕ) :
    Follows (fun r st' => st' = st.applyRecord w r) (decodeRecord w tag length) (st.readHPROFRecord w tag length) := by
  apply ite (fun _ => readStringRecord_follows w st length) fun _ => ?_
  apply Follows.ite (fun _ => ?_) fun _ => ?_
  · refine .bind_same fun _ => .bind_same fun _ => ?_
    refine .bind_same fun _ => .bind_same fun _ => ?_
    exact .pure rfl
  · apply Follows.ite (fun _ => ?_) fun _ => ?_
    · refine .map_left (R := fun subs st' => st' = subs.foldl (apply w) st) (.limited (.untilEof ?_ rfl)) fun _ _ h => h
      rintro tag subs _ rfl
      apply (readHeapSubRecord_follows w _ tag).map_left
      rintro sub _ rfl
      rw [foldl_append]
      rfl
    · exact .bind_same fun _ => .pure rfl

theorem readHPROF_follows :
    Follows (fun d st => st = d.records.foldl (applyRecord d.idSize) newHPROFState) decodeDump readHPROF := by
  refine .bind_same fun w => ?_
  refine .map_left (R := fun records st => st = records.foldl (.applyRecord w) newHPROFState) ?_ fun _ _ h => h
  refine .untilEof ?_ rfl
  rintro tag records _ rfl
  refine .bind_same fun _ => .bind_same fun length => ?_
  apply (readHPROFRecord_follows w _ tag length).map_left
  rintro record _ rfl
  rw [foldl_append]
  rfl

end Spectra.Heap
