import Spectra.Heap.GraphReading
import Spectra.Heap.ParserRecords

/-! The graph parser accepts every stream that decodes and whose records stay within its limits. -/
namespace Spectra.Heap
open Library Reader GoText GraphState Dump List

section
variable (lim : GraphLimits) (w : IdSize) (st : GraphState)

private theorem read_instanceDump (missing : ℕ) :
    FollowsIf SubRecord.FieldsFit (fun r st' => st' = st.apply lim w r) (decodeInstanceDump w)
      (st.readInstanceDump lim w missing) := by
  refine .bind_same fun objID => .bind_same fun _ => ?_
  refine .bind_same fun classID => .bind_same fun nbytes => ?_
  intro bs r rest h hfit
  obtain ⟨fields, mid, hfields, h⟩ := run_bind_ok.mp h
  obtain ⟨hlen, rfl, hn, -⟩ := (takes_readFull nbytes).mapError bs fields mid hfields
  cases h
  change fields.length ≤ maxInstanceFieldBytes at hfit
  refine ⟨_, run_bind_ok.mpr ⟨bs.length, bs, rfl, ?_⟩, rfl⟩
  rw [if_neg (by omega)]
  exact run_bind_ok.mpr ⟨fields, _, hfields, rfl⟩

private theorem read_heapSub (missing : ℕ) (tag : UInt8) :
    FollowsIf SubRecord.FieldsFit (fun r st' => st' = st.apply lim w r) (decodeSubRecord w tag)
      (st.readHeapSub lim w missing tag) := by
  unfold readHeapSub decodeSubRecord
  cases rootRecordLayout w tag with
  | some l => exact ((twins_root lim w st l.1 l.2).2.mono fun _ _ h => h.1).followsIf
  | none =>
    refine .ite ((twins_classDump lim w st).2.mono fun _ _ h => h.1).followsIf ?_
    refine .ite (read_instanceDump lim w st missing) ?_
    refine .ite ((twins_objectArrayDump lim w st).2.mono fun _ _ h => h.1).followsIf ?_
    refine .ite ((twins_primArrayDump lim w st).2.mono fun _ _ h => h.1).followsIf ?_
    refine .ite ?_ Follows.fail.followsIf
    exact .bind_same fun _ => .pure rfl

variable {st}

theorem check_pure {α : Type} {R : α → GraphState → Prop} {x : α} (herr : st.b.err = none)
    (h : R x st) : Follows R (pure x : HprofReader α) st.check := by
  rw [check, herr]
  exact .pure h

/-- The sub-records are within the limits. -/
structure Within (st : GraphState) (subs : List SubRecord) : Prop where
  err : (subs.foldl (GraphState.apply lim w) st).b.err = none
  fields : ∀ r ∈ subs, r.FieldsFit

variable {lim w}

theorem Within.init {subs : List SubRecord} {r : SubRecord}
    (h : Within lim w st (subs ++ [r])) : Within lim w st subs where
  err := by
    have := h.err
    rw [foldl_append] at this
    exact err_of_apply this
  fields s hs := h.fields s (mem_append_left _ hs)

private theorem err_of_foldl {subs : List SubRecord}
    (h : (subs.foldl (apply lim w) st).b.err = none) : st.b.err = none := by
  induction subs generalizing st with
  | nil => exact h
  | cons r subs ih => exact err_of_apply (ih h)

variable (lim w st)

private theorem read_heapDump (length : ℕ) :
    FollowsIf (Within lim w st) (fun subs st' => st' = subs.foldl (apply lim w) st)
      (decodeHeapDump w length) (st.readHeapDump lim w length) := by
  refine .limited (.untilEof ?_ ?_ rfl)
  · intro tag subs bs subs' rest h hC
    obtain ⟨sub, mid, _, h⟩ := run_bind_ok.mp h
    cases h
    exact hC.init
  · rintro tag subs _ rfl
    refine .map_left (read_heapSub lim w _ 0 tag)
      (fun r h => h.fields r (mem_append_right _ (mem_singleton_self r))) ?_
    rintro r _ rfl h
    have hfold : (subs ++ [r]).foldl (.apply lim w) st =
        (subs.foldl (.apply lim w) st).apply lim w r := foldl_concat ..
    exact check_pure (hfold ▸ h.err) hfold.symm

/-- A record that leaves the state without an error, and whose instances are within the cap. -/
def WithinRecord (st : GraphState) (r : Record) : Prop :=
  (st.applyRecord lim w r).b.err = none ∧ ∀ s ∈ r.subRecords, s.FieldsFit

private theorem read_record (tag : UInt8) (length : ℕ) :
    FollowsIf (WithinRecord lim w st) (fun r st' => st' = st.applyRecord lim w r)
      (decodeRecord w tag length) (st.readRecord lim w tag length) := by
  refine .ite ((twins_string lim w st length).2.mono fun _ _ h => h.1).followsIf ?_
  refine .ite ?_ (.ite ?_ ?_)
  · refine .bind_same fun _ => .bind_same fun _ => ?_
    refine .bind_same fun _ => .bind_same fun _ => ?_
    exact .pure rfl
  · intro bs r rest h hr
    obtain ⟨subs, mid, hsubs, h⟩ := run_bind_ok.mp h
    cases h
    exact read_heapDump lim w st length bs subs _ hsubs ⟨hr.1, hr.2⟩
  · exact .bind_same fun _ => .pure rfl

end

variable {lim : GraphLimits}

theorem graphState_concat (w : IdSize) (records : List Record) (r : Record) :
    (mk w (records ++ [r])).graphState lim = applyRecord lim w ((mk w records).graphState lim) r :=
  foldl_concat ..

section
variable {w : IdSize} {records : List Record} {r : Record} (h : (Dump.mk w (records ++ [r])).Accepted lim)
include h

theorem Dump.Accepted.last : WithinRecord lim w ((Dump.mk w records).graphState lim) r := by
  refine ⟨graphState_concat w records r ▸ h.err, fun s hs => h.fields s ?_⟩
  simp [subRecords, hs]

theorem Dump.Accepted.init : (Dump.mk w records).Accepted lim where
  err := by
    have := h.last.1
    cases r with
    | string id body | loadClass id name | other => exact this
    | heapDump subs => exact err_of_foldl this
  fields s hs := by
    apply h.fields
    rw [subRecords, flatMap_append]
    exact mem_append_left _ hs

end

private theorem read_graph :
    FollowsIf (Dump.Accepted lim) (fun d r => r = (d.idSize, d.graphState lim)) decodeDump (readGraph lim) := by
  refine .bind_same fun w => ?_
  apply FollowsIf.map_left (C := fun records => (mk w records).Accepted lim)
    (R := fun records st => st = (mk w records).graphState lim)
  · refine .untilEof ?_ ?_ rfl
    · intro tag records bs records' rest h hC
      obtain ⟨_, mid, _, h⟩ := run_bind_ok.mp h
      obtain ⟨_, mid, _, h⟩ := run_bind_ok.mp h
      obtain ⟨_, mid, _, h⟩ := run_bind_ok.mp h
      cases h
      exact hC.init
    · rintro tag records _ rfl
      refine .bind_same fun _ => .bind_same fun length => ?_
      refine .map_left (read_record lim w _ tag length) (fun r h => h.last) ?_
      rintro r _ rfl h
      exact check_pure (graphState_concat w records r ▸ h.err) (graphState_concat w records r).symm
  · exact fun _ h => h
  · rintro records _ rfl _
    exact .pure rfl

theorem parseObjectGraph_accepted {sort : SliceSort RawObject.id} {bs : List UInt8} {d : Dump}
    (hd : Dump.ofBytes bs = .ok d) (hacc : d.Accepted lim) :
    parseObjectGraph lim sort bs = .ok ((d.graphState lim).finalize lim d.idSize sort) := by
  rw [Dump.ofBytes] at hd
  cases hdec : decodeDump.run bs with
  | error e =>
    rw [hdec] at hd
    cases hd
  | ok r =>
    obtain ⟨d', rest⟩ := r
    rw [hdec] at hd
    cases hd
    obtain ⟨_, hrun, rfl⟩ := read_graph bs d' rest hdec hacc
    rw [parseObjectGraph, hrun]
    rfl

end Spectra.Heap
