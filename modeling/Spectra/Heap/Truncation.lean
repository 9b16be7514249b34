import Spectra.Heap.ParserRecords

/-! Where a dump may be cut. -/
namespace Spectra.Heap
open Library Reader List Takes Nat

section

/-- The length that the header of the first record declares for its body. -/
def bodyLength (bs : List UInt8) : ℕ := bigEndian ((bs.drop 5).take 4)

/-- The length of the first record: a tag, a time, a length and the body. -/
def recordLength (bs : List UInt8) : ℕ := 9 + bodyLength bs

/-- How much of a body is read: of a LOAD_CLASS record two `u4` and two identifiers, whatever it
declares. -/
def readSize (idSize : ℕ) (tag : UInt8) (length : ℕ) : ℕ :=
  if tag = hprofTagLoadClass then 8 + 2 * idSize else length

/-- The length of the first record as it is read. -/
def readLength (idSize : ℕ) (bs : List UInt8) : ℕ := 9 + readSize idSize (bs.headD 0) (bodyLength bs)

/-- Offsets at which a stream of records is cut by the lengths of its records. -/
inductive Boundary (size : List UInt8 → ℕ) : List UInt8 → ℕ → Prop
  | start {bs : List UInt8} : Boundary size bs 0
  | next {bs : List UInt8} {n : ℕ} : bs ≠ [] → size bs ≤ bs.length →
      Boundary size (bs.drop (size bs)) n → Boundary size bs (size bs + n)

/-- The length of the file header: the name with its end, the identifier size and the time. -/
def headerLength (bs : List UInt8) : ℕ := (bs.takeWhile (· ≠ 0)).length + 13

def headerIdSize (bs : List UInt8) : ℕ :=
  bigEndian ((bs.drop ((bs.takeWhile (· ≠ 0)).length + 1)).take 4)

/-- A top-level record boundary of a dump: the end of its header or of a record. -/
def IsRecordBoundary (bs : List UInt8) (n : ℕ) : Prop :=
  ∃ m, n = headerLength bs + m ∧ Boundary recordLength (bs.drop (headerLength bs)) m

/-- A place between two records as they are read. -/
def IsReadBoundary (bs : List UInt8) (n : ℕ) : Prop :=
  ∃ m, n = headerLength bs + m ∧ Boundary (readLength (headerIdSize bs)) (bs.drop (headerLength bs)) m

end

variable {bs : List UInt8} {rest : List UInt8}

section

private theorem readHeaderName_ok {room : ℕ} {name name' : List UInt8}
    (h : (readHeaderName room name).run bs = .ok (name', rest)) :
    (bs.takeWhile (· ≠ 0)).length + 1 ≤ bs.length ∧ rest = bs.drop ((bs.takeWhile (· ≠ 0)).length + 1) ∧
      ∀ k, (readHeaderName room name).run (bs.take ((bs.takeWhile (· ≠ 0)).length + 1 + k)) =
        .ok (name', rest.take k) := by
  induction bs generalizing room name with
  | nil =>
    rw [readHeaderName] at h
    obtain ⟨_, _, hc, _⟩ := run_bind_ok.mp h
    cases hc
  | cons b bs ih =>
    rw [readHeaderName] at h ⊢
    obtain ⟨c, mid, hc, hrun⟩ := run_bind_ok.mp h
    obtain ⟨rfl, rfl⟩ : b = c ∧ bs = mid := by
      cases hc
      exact ⟨rfl, rfl⟩
    by_cases hb : b = 0
    · simp only [if_pos hb] at hrun
      cases hrun
      rw [takeWhile_cons_of_neg (by simpa using hb), length_nil, zero_add]
      refine ⟨succ_pos _, rfl, fun k => run_bind_ok.mpr ⟨b, rest.take k, ?_, ?_⟩⟩
      · rw [add_comm, take_succ_cons]
        rfl
      · rw [if_pos hb]
        rfl
    · simp only [if_neg hb] at hrun
      rw [takeWhile_cons_of_pos (by simpa using hb), length_cons, length_cons]
      cases room with
      | zero => cases hrun
      | succ room =>
        obtain ⟨hle, hrest, htake⟩ := ih hrun
        refine ⟨by omega, hrest, fun k => run_bind_ok.mpr
          ⟨b, bs.take ((bs.takeWhile (· ≠ 0)).length + 1 + k), ?_, ?_⟩⟩
        · rw [add_right_comm, take_succ_cons]
          rfl
        · rw [if_neg hb]
          exact htake k

/-- After the name come twelve bytes: the identifier size and the time. -/
theorem readHPROFHeader_eq : ∃ afterName : List UInt8 → HprofReader IdSize,
    readHPROFHeader = readHeaderName maxHPROFHeaderName [] >>= afterName ∧
      ∀ name, Takes 12 (fun _ => True) (afterName name) ∧
        ∀ bs w rest, (afterName name).run bs = .ok (w, rest) → bigEndian (bs.take 4) = w.bytes := by
  refine ⟨_, rfl, fun name => ?_⟩
  have htime (w : IdSize) : Takes 8 (· = w)
      (do
        let w ← (Pure.pure w : HprofReader IdSize)
        let _ ← u8.mapError (HprofError.wrap "hprof: read timestamp")
        return w : HprofReader IdSize) :=
    .bind (m := 0) (n := 8) (Q := (· = w)) (.pure rfl) fun _ hw =>
      .bind (m := 8) (n := 0) (takes_uint 8).mapError fun _ _ => .pure hw
  refine ⟨?_, fun bs w rest h => ?_⟩
  · apply Takes.ite (fun _ => .bind (m := 12) (n := 0) (Q := fun _ => False) .fail fun _ h => h.elim) fun _ => ?_
    refine .bind (m := 4) (n := 8) (takes_uint 4).mapError fun idSize _ => ?_
    apply Takes.ite (fun _ => (htime .four).congr fun _ _ => rfl) fun _ => ?_
    apply Takes.ite (fun _ => (htime .eight).congr fun _ _ => rfl) fun _ => ?_
    exact .bind (m := 8) (n := 0) (Q := fun _ => False) .fail fun _ h => h.elim
  · split at h
    · obtain ⟨_, _, hfail, _⟩ := run_bind_ok.mp h
      cases hfail
    · obtain ⟨idSize, r₂, hid, h⟩ := run_bind_ok.mp h
      obtain ⟨-, rfl, -⟩ := run_uint_ok.mp (run_mapError_ok.mp hid)
      split at h
      · rename_i h4
        rwa [(htime .four _ _ _ h).2.2.1]
      · split at h
        · rename_i h8
          rwa [(htime .eight _ _ _ h).2.2.1]
        · obtain ⟨_, _, hfail, _⟩ := run_bind_ok.mp h
          cases hfail

theorem readHPROFHeader_ok {w : IdSize} (h : readHPROFHeader.run bs = .ok (w, rest)) :
    headerLength bs ≤ bs.length ∧ rest = bs.drop (headerLength bs) ∧ headerIdSize bs = w.bytes ∧
      ∀ k, readHPROFHeader.run (bs.take (headerLength bs + k)) = .ok (w, rest.take k) := by
  obtain ⟨afterName, heq, hafter⟩ := readHPROFHeader_eq
  rw [heq] at h ⊢
  obtain ⟨name, r₁, hname, h₁⟩ := run_bind_ok.mp h
  obtain ⟨hlen, rfl, hname'⟩ := readHeaderName_ok hname
  obtain ⟨hle, rfl, -, htake⟩ := (hafter name).1 _ _ _ h₁
  rw [length_drop] at hle
  refine ⟨by unfold headerLength; omega, drop_drop, (hafter name).2 _ _ _ h₁, fun k => ?_⟩
  rw [headerLength, add_assoc]
  have hrun := hname' (12 + k)
  rw [add_assoc, ← add_assoc 1] at hrun
  exact run_bind_ok.mpr ⟨name, _, hrun, htake k⟩

end

section
variable {σ : Type} {w : IdSize} {readRecord : UInt8 → ℕ → σ → HprofReader σ}
  (htakes : ∀ tag length st,
    Takes (readSize w.bytes tag length) (fun _ => True) (readRecord tag length st))
include htakes

/-- The first record is read off the front, also where the stream ends after it. -/
theorem run_readRecords_cons {b : UInt8} {st : σ} {r : σ × List UInt8}
    (h : (readRecords readRecord st).run (b :: bs) = .ok r) :
    readLength w.bytes (b :: bs) ≤ (b :: bs).length ∧ ∃ st₁,
      (readRecords readRecord st₁).run ((b :: bs).drop (readLength w.bytes (b :: bs))) = .ok r ∧
      ∀ k, (readRecords readRecord st).run ((b :: bs).take (readLength w.bytes (b :: bs) + k)) =
        (readRecords readRecord st₁).run (((b :: bs).drop (readLength w.bytes (b :: bs))).take k) := by
  rw [readRecords, run_untilEof_cons] at h
  obtain ⟨st₁, rest, hrec, h⟩ := run_bind_ok.mp h
  obtain ⟨_, r₁, htime, hrec⟩ := run_bind_ok.mp hrec
  obtain ⟨length, r₂, hlength, hrec⟩ := run_bind_ok.mp hrec
  obtain ⟨-, hval, -⟩ := run_uint_ok.mp (run_mapError_ok.mp hlength)
  obtain ⟨h4, rfl, -, htime⟩ := (takes_uint 4).mapError _ _ _ htime
  obtain ⟨h8, rfl, -, hlength⟩ := (takes_uint 4).mapError _ _ _ hlength
  obtain ⟨hle, rfl, -, hrec⟩ := htakes b length st _ _ _ hrec
  rw [drop_drop, drop_drop] at h
  rw [length_drop] at h8
  rw [length_drop, length_drop] at hle
  have hread : readLength w.bytes (b :: bs) = 4 + (4 + readSize w.bytes b length) + 1 := by
    rw [readLength, bodyLength, drop_succ_cons, ← hval, headD_cons]
    omega
  rw [hread, drop_succ_cons, length_cons]
  refine ⟨by omega, st₁, h, fun k => ?_⟩
  rw [add_right_comm, take_succ_cons, readRecords, run_untilEof_cons, add_assoc,
    add_assoc, ← drop_drop, ← drop_drop]
  exact run_bind_of_ok <| run_bind_ok.mpr
    ⟨_, _, htime _, run_bind_ok.mpr ⟨length, _, hlength _, hrec k⟩⟩

/-- A beginning of a stream that is read ends where a record of the stream was read. -/
theorem readRecords_take_iff {st : σ} {r : σ × List UInt8}
    (h : (readRecords readRecord st).run bs = .ok r) {m : ℕ} (hm : m ≤ bs.length) :
    (∃ r, (readRecords readRecord st).run (bs.take m) = .ok r) ↔
      Boundary (readLength w.bytes) bs m := by
  induction hn : bs.length using Nat.strong_induction_on generalizing bs st m with
  | _ n ih =>
    cases bs with
    | nil =>
      obtain rfl : m = 0 := le_zero.mp hm
      exact ⟨fun _ => .start, fun _ => ⟨_, rfl⟩⟩
    | cons b bs =>
      obtain ⟨hle, st₁, hrest, htake⟩ := run_readRecords_cons htakes h
      have hpos : 9 ≤ readLength w.bytes (b :: bs) := le_add_right 9 _
      have hnext (k : ℕ) (hk : readLength w.bytes (b :: bs) + k ≤ (b :: bs).length) :=
        ih _ (by rw [← hn, length_drop]; omega) hrest (by rw [length_drop]; omega : k ≤ _) rfl
      constructor
      · rintro ⟨r', hr'⟩
        cases m with
        | zero => exact .start
        | succ m =>
          rw [take_succ_cons] at hr'
          obtain ⟨hfits, -⟩ := run_readRecords_cons htakes hr'
          have hsame : readLength w.bytes (b :: bs.take m) = readLength w.bytes (b :: bs) := by
            have hm : 8 ≤ m := by
              have := length_take_le m bs
              rw [readLength, length_cons] at hfits
              omega
            rw [readLength, readLength, bodyLength, bodyLength, drop_succ_cons, drop_succ_cons,
              drop_take, take_take, min_eq_left (by omega)]
            rfl
          obtain ⟨k, hk⟩ : ∃ k, m + 1 = readLength w.bytes (b :: bs) + k := by
            refine Nat.exists_eq_add_of_le (hsame ▸ hfits.trans ?_)
            exact succ_le_succ (length_take_le m bs)
          rw [← take_succ_cons, hk, htake] at hr'
          rw [hk]
          exact .next nofun hle ((hnext k (hk ▸ hm)).mp ⟨r', hr'⟩)
      · intro hb
        cases hb with
        | start => exact ⟨_, rfl⟩
        | next _ _ hb =>
          rw [htake]
          exact (hnext _ hm).mpr hb

end

section

variable {w : IdSize} {σ : Type} (length : ℕ)

theorem takes_skipped (st : σ) :
    Takes length (fun _ => True) (do skip length return st : HprofReader σ) :=
  (takes_skip length).mapError.bind fun _ _ => pure trivial

theorem takes_stringBody {length : ℕ} (h : 0 ≤ (length : ℤ) - w.bytes) (f : List UInt8 → σ) :
    Takes (length - w.bytes) (fun _ => w.bytes ≤ length) (do
      let body ← (readFull ((length : ℤ) - w.bytes).toNat).mapError (.wrap "hprof: string body")
      return f body : HprofReader σ) := by
  rw [show ((length : ℤ) - w.bytes).toNat = length - w.bytes by omega]
  exact (takes_readFull _).mapError.bind fun _ _ => .pure (by omega)

private theorem takes_stringRecord (st : HprofState) : Takes length (fun _ => True) (st.readStringRecord w length) := by
  have h : Takes (w.bytes + (length - w.bytes)) (fun _ => w.bytes ≤ length)
      (st.readStringRecord w length) := by
    refine (takes_uint w.bytes).mapError.bind fun id _ => ?_
    apply Takes.ite (fun _ => .fail) fun hneg => ?_
    exact .ite (fun _ => .fail) fun _ => takes_stringBody (not_lt.mp hneg) _
  exact h.congr fun _ hle => by omega

private theorem takes_graphString (st : GraphState) : Takes length (fun _ => True) (st.readString w length) := by
  have h : Takes (w.bytes + (length - w.bytes)) (fun _ => w.bytes ≤ length)
      (st.readString w length) := by
    refine (takes_uint w.bytes).mapError.bind fun id _ => ?_
    apply Takes.ite (fun _ => .fail) fun hneg => ?_
    exact takes_stringBody (not_lt.mp fun hlt => hneg (.inl hlt)) _
  exact h.congr fun _ hle => by omega

theorem takes_loadClass (f : ℕ → ℕ → σ) :
    Takes (8 + 2 * w.bytes) (fun _ => True) (do
      let _ ← u4
      let classObjID ← w.id
      let _ ← u4
      let nameID ← w.id
      return f classObjID nameID : HprofReader σ) := by
  rw [show 8 + 2 * w.bytes = 4 + (w.bytes + (4 + (w.bytes + 0))) by omega]
  refine (takes_uint 4).mapError.bind fun _ _ => (takes_id w).bind fun classObjID _ => ?_
  exact (takes_uint 4).mapError.bind fun _ _ => (takes_id w).bind fun nameID _ => .pure trivial

/-- A reader that dispatches on the tag as both parsers do takes what is read of a record. -/
theorem takes_tagged {tag : UInt8} {string load dump skipped : HprofReader σ}
    (hstring : Takes length (fun _ => True) string)
    (hload : Takes (8 + 2 * w.bytes) (fun _ => True) load)
    (hdump : Takes length (fun _ => True) dump) (hskipped : Takes length (fun _ => True) skipped) :
    Takes (readSize w.bytes tag length) (fun _ => True)
      (if tag = hprofTagString then string
      else if tag = hprofTagLoadClass then load
      else if tag = hprofTagHeapDump ∨ tag = hprofTagHeapDumpSegment then dump
      else skipped) := by
  unfold readSize
  by_cases hload' : tag = hprofTagLoadClass
  · rw [if_pos hload', if_neg (by rw [hload']; decide), if_pos hload']
    exact hload
  · rw [if_neg hload', if_neg hload']
    exact .ite (fun _ => hstring) fun _ => .ite (fun _ => hdump) fun _ => hskipped

private theorem takes_hprofRecord (w : IdSize) (tag : UInt8) (length : ℕ) (st : HprofState) :
    Takes (readSize w.bytes tag length) (fun _ => True) (st.readHPROFRecord w tag length) :=
  takes_tagged length (takes_stringRecord length st) (takes_loadClass _) takes_limited
    (takes_skipped length st)

private theorem takes_graphRecord (lim : GraphLimits) (w : IdSize) (tag : UInt8) (length : ℕ)
    (st : GraphState) :
    Takes (readSize w.bytes tag length) (fun _ => True) (do
      let st ← GraphState.readRecord lim w tag length st
      st.check) := by
  have hcheck (st : GraphState) : Takes 0 (fun _ => True) st.check := by
    unfold GraphState.check
    split
    · exact .fail
    · exact .pure trivial
  exact (takes_tagged length (takes_graphString length st) (takes_loadClass _) takes_limited
    (takes_skipped length st)).bind fun st _ => hcheck st

end

theorem readHPROFHeader_take_iff {w : IdSize} (h : readHPROFHeader.run bs = .ok (w, rest)) {n : ℕ}
    {r : IdSize × List UInt8} (hn : n ≤ bs.length) :
    readHPROFHeader.run (bs.take n) = .ok r ↔ ∃ m, n = headerLength bs + m ∧ r = (w, rest.take m) := by
  obtain ⟨-, -, -, htake⟩ := readHPROFHeader_ok h
  constructor
  · intro hr
    obtain ⟨hle, -⟩ := readHPROFHeader_ok hr
    have hname : bs.takeWhile (· ≠ 0) = (bs.take n).takeWhile (· ≠ 0) := by
      conv_lhs => rw [← take_append_drop n bs]
      rw [takeWhile_append, if_neg]
      rw [headerLength] at hle
      omega
    rw [headerLength, ← hname, length_take_of_le hn] at hle
    obtain ⟨m, rfl⟩ := Nat.exists_eq_add_of_le hle
    exact ⟨m, rfl, Except.ok.inj (hr.symm.trans (htake m))⟩
  · rintro ⟨m, rfl, rfl⟩
    exact htake m

section
variable {σ α : Type} {readRecord : IdSize → UInt8 → ℕ → σ → HprofReader σ} {st : IdSize → σ}

/-- A header and then records up to the end of the stream. -/
def Reads (readRecord : IdSize → UInt8 → ℕ → σ → HprofReader σ) (st : IdSize → σ)
    (bs : List UInt8) : Prop :=
  ∃ w rest, readHPROFHeader.run bs = .ok (w, rest) ∧
    ∃ r, (readRecords (readRecord w) (st w)).run rest = .ok r

variable (htakes : ∀ w tag length st,
  Takes (readSize w.bytes tag length) (fun _ => True) (readRecord w tag length st))
include htakes

theorem Reads.take_iff (h : Reads readRecord st bs) {n : ℕ} (hn : n ≤ bs.length) :
    Reads readRecord st (bs.take n) ↔ IsReadBoundary bs n := by
  obtain ⟨w, rest, hheader, r, hrecords⟩ := h
  obtain ⟨-, hrest, hid, -⟩ := readHPROFHeader_ok hheader
  have hcut (m : ℕ) (hm : n = headerLength bs + m) :
      (∃ r, (readRecords (readRecord w) (st w)).run (rest.take m) = .ok r) ↔
        Boundary (readLength w.bytes) rest m := by
    refine readRecords_take_iff (htakes w) hrecords ?_
    rw [hrest, length_drop]
    omega
  rw [IsReadBoundary, hid, ← hrest]
  constructor
  · rintro ⟨w', rest', hheader', hrecords'⟩
    obtain ⟨m, hm, ⟨rfl, rfl⟩⟩ := (readHPROFHeader_take_iff hheader hn).mp hheader'
    exact ⟨m, hm, (hcut m hm).mp hrecords'⟩
  · rintro ⟨m, hm, hb⟩
    exact ⟨w, _, (readHPROFHeader_take_iff hheader hn).mpr ⟨m, hm, rfl⟩, (hcut m hm).mpr hb⟩

theorem Reads.detected_iff {parse : List UInt8 → Except HprofError α}
    (hparse : ∀ bs, (∃ x, parse bs = .ok x) ↔ Reads readRecord st bs) {x : α}
    (h : parse bs = .ok x) :
    (∀ n < bs.length, IsRecordBoundary bs n ∨ ∃ e, parse (bs.take n) = .error e) ↔
      ∀ n < bs.length, IsReadBoundary bs n → IsRecordBoundary bs n := by
  have hrejected (n : ℕ) (hn : n < bs.length) :
      (∃ e, parse (bs.take n) = .error e) ↔ ¬ IsReadBoundary bs n := by
    rw [← ((hparse bs).mp ⟨x, h⟩).take_iff htakes hn.le, ← hparse]
    cases parse (bs.take n) <;> simp
  refine forall₂_congr fun n hn => ?_
  rw [hrejected n hn, or_comm, ← imp_iff_not_or]

end

theorem exists_map_ok {ε α β : Type} {x : Except ε α} {f : α → β} :
    (∃ y, x.map f = .ok y) ↔ ∃ r, x = .ok r := by
  cases x <;> simp [Except.map]

private theorem parseHPROF_reads (rt : HistogramRuntime) (bs : List UInt8) :
    (∃ h, parseHPROF rt bs = .ok h) ↔
      Reads HprofState.readHPROFRecord (fun _ => newHPROFState) bs := by
  rw [parseHPROF, exists_map_ok]
  constructor
  · rintro ⟨r, h⟩
    obtain ⟨w, rest, hheader, hrecords⟩ := run_bind_ok.mp h
    exact ⟨w, rest, hheader, r, hrecords⟩
  · rintro ⟨w, rest, hheader, r, hrecords⟩
    exact ⟨r, run_bind_ok.mpr ⟨w, rest, hheader, hrecords⟩⟩

private theorem parseObjectGraph_reads (lim : GraphLimits) (sort : SliceSort RawObject.id)
    (bs : List UInt8) :
    (∃ g, parseObjectGraph lim sort bs = .ok g) ↔
      Reads (fun w tag length st => do
        let st ← GraphState.readRecord lim w tag length st
        st.check) GraphState.new bs := by
  rw [parseObjectGraph, exists_map_ok]
  constructor
  · rintro ⟨r, h⟩
    obtain ⟨w, rest, hheader, hgraph⟩ := run_bind_ok.mp h
    obtain ⟨st, left, hrecords, -⟩ := run_bind_ok.mp hgraph
    exact ⟨w, rest, hheader, (st, left), hrecords⟩
  · rintro ⟨w, rest, hheader, r, hrecords⟩
    refine ⟨((w, r.1), r.2), run_bind_ok.mpr ⟨w, rest, hheader, ?_⟩⟩
    exact run_bind_ok.mpr ⟨r.1, r.2, hrecords, rfl⟩

/-- Both parsers reject every beginning of a dump that does not end where a record does, exactly
if the dump has no place between records as they are read but between records as they declare
their lengths. -/
theorem truncation_detected (rt : HistogramRuntime) (lim : GraphLimits)
    (sort : SliceSort RawObject.id) (bs : List UInt8) :
    (∀ h, parseHPROF rt bs = .ok h →
      ((∀ n < bs.length, IsRecordBoundary bs n ∨ ∃ e, parseHPROF rt (bs.take n) = .error e) ↔
        ∀ n < bs.length, IsReadBoundary bs n → IsRecordBoundary bs n)) ∧
    (∀ g, parseObjectGraph lim sort bs = .ok g →
      ((∀ n < bs.length,
          IsRecordBoundary bs n ∨ ∃ e, parseObjectGraph lim sort (bs.take n) = .error e) ↔
        ∀ n < bs.length, IsReadBoundary bs n → IsRecordBoundary bs n)) :=
  ⟨fun _ => Reads.detected_iff takes_hprofRecord (parseHPROF_reads rt),
    fun _ => Reads.detected_iff (takes_graphRecord lim) (parseObjectGraph_reads lim sort)⟩

theorem Boundary.of_single {n : ℕ} (h : Boundary recordLength bs n)
    (hone : recordLength bs = bs.length) : n = 0 ∨ n = bs.length := by
  cases h with
  | start => exact .inl rfl
  | @next _ m _ _ hrest =>
    rw [hone, drop_length] at hrest
    cases hrest with
    | start => exact .inr (by rw [hone, add_zero])
    | next hne _ _ => exact absurd rfl hne

/-- A dump of one LOAD_CLASS record that declares a length, and of what follows its body. -/
def loadClassDump (length : UInt8) (rest : List UInt8) : List UInt8 :=
  emptyDump ++ [0x02, 0, 0, 0, 0, 0, 0, 0, length, 0, 0, 0, 1, 0, 0, 0, 1, 0, 0, 0, 0, 0, 0, 0, 100] ++ rest

private theorem loadClassDump_boundary {length : UInt8} {n : ℕ}
    (hlength : length.toNat = 16 + rest.length) (h : IsRecordBoundary (loadClassDump length rest) n) :
    n = 25 ∨ n = 50 + rest.length := by
  obtain ⟨m, rfl, hm⟩ := h
  have hheader : headerLength (loadClassDump length rest) = 25 := rfl
  have hbody : bodyLength ((loadClassDump length rest).drop 25) = length.toNat := by
    change 256 * 0 + length.toNat = length.toNat
    omega
  have hlen : ((loadClassDump length rest).drop 25).length = 25 + rest.length := by
    simp [loadClassDump, emptyDump]
    omega
  rw [hheader] at hm
  rcases hm.of_single (by rw [recordLength]; omega) with rfl | rfl
  · exact .inl rfl
  · exact .inr (by rw [hlen]; omega)

/-- A LOAD_CLASS record of 25 bytes, of which the last 9 look like a record of their own. -/
def longLoadClassDump : List UInt8 := loadClassDump 25 [0x2C, 0, 0, 0, 0, 0, 0, 0, 0]

/-- Cut after the 16 bytes that are read of the record, the dump is accepted. -/
theorem truncation_undetected :
    ((parseHPROF default longLoadClassDump).isOk = true ∧
      (parseHPROF default (longLoadClassDump.take 50)).isOk = true) ∧
    ((parseObjectGraph defaultLimits default longLoadClassDump).isOk = true ∧
      (parseObjectGraph defaultLimits default (longLoadClassDump.take 50)).isOk = true) ∧
    50 < longLoadClassDump.length ∧ ¬ IsRecordBoundary longLoadClassDump 50 := by
  refine ⟨⟨by decide +kernel, by decide +kernel⟩, ⟨by decide +kernel, by decide +kernel⟩, by decide, ?_⟩
  intro h
  have := loadClassDump_boundary rfl h
  simp at this

end Spectra.Heap
