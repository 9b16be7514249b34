import Spectra.Library.ByteReader

/-! The messages of the helper's socket. -/
namespace Spectra.Helper
open List Library Reader

abbrev Bytes := List UInt8

/-- 4 MiB. -/
def maxMessageSize : ℕ := 4 * 1024 * 1024

inductive MessageError
  | tooLarge (size : ℕ)
  | readHeader (err : IoError)
  | readPayload (err : IoError)

def frame (payload : Bytes) : Bytes := bigEndianBytes 8 payload.length ++ payload

def writeMessage (payload : Bytes) : Except MessageError Bytes :=
  if maxMessageSize < payload.length then .error (.tooLarge payload.length) else .ok (frame payload)

/-- `io.ReadFull` on the reads that a connection still answers, `got` bytes of a buffer in. -/
def readFullFrom (got n : ℕ) : List Bytes → Except IoError (Bytes × List Bytes)
  | [] => if n = 0 then .ok ([], []) else .error (if got = 0 then .eof else .unexpectedEof)
  | chunk :: chunks =>
    if n ≤ chunk.length then .ok (chunk.take n, chunk.drop n :: chunks)
    else (readFullFrom (got + chunk.length) (n - chunk.length) chunks).map fun r =>
      (chunk ++ r.1, r.2)

/-- `ReadMessage`, with the sizes of the buffers that it makes. -/
def readMessage (chunks : List Bytes) : Except MessageError (Bytes × List Bytes) × List ℕ :=
  match readFullFrom 0 8 chunks with
  | .error e => (.error (.readHeader e), [])
  | .ok (header, chunks) =>
    if maxMessageSize < bigEndian header then (.error (.tooLarge (bigEndian header)), [])
    else ((readFullFrom 0 (bigEndian header) chunks).mapError .readPayload, [bigEndian header])

/-- At most `calls` calls of `ReadMessage`, up to the first that fails: the payloads and the error. -/
def readMessages : ℕ → List Bytes → List Bytes × Option MessageError
  | 0, _ => ([], none)
  | calls + 1, chunks =>
    match (readMessage chunks).1 with
    | .error e => ([], some e)
    | .ok (payload, chunks) =>
      let rest := readMessages calls chunks
      (payload :: rest.1, rest.2)

/-- The payloads whose frames lie within a number of bytes. -/
def received : ℕ → List Bytes → List Bytes
  | _, [] => []
  | n, p :: ps => if 8 + p.length ≤ n then p :: received (n - (8 + p.length)) ps else []

variable {got n : ℕ} {chunks : List Bytes}

theorem readFullFrom_ok (h : n ≤ chunks.flatten.length) :
    ∃ rest, readFullFrom got n chunks = .ok (chunks.flatten.take n, rest) ∧ rest.flatten = chunks.flatten.drop n := by
  induction chunks generalizing got n with
  | nil =>
    obtain rfl : n = 0 := by simpa using h
    exact ⟨[], rfl, rfl⟩
  | cons chunk chunks ih =>
    rw [readFullFrom, flatten_cons]
    rw [flatten_cons, length_append] at h
    by_cases hn : n ≤ chunk.length
    · refine ⟨chunk.drop n :: chunks, ?_, ?_⟩
      · rw [if_pos hn, take_append_of_le_length hn]
      · rw [flatten_cons, drop_append_of_le_length hn]
    · obtain ⟨rest, hread, hrest⟩ := @ih (got + chunk.length) (n - chunk.length) (by omega)
      have hle := Nat.le_of_not_le hn
      refine ⟨rest, ?_, ?_⟩
      · rw [if_neg hn, hread, take_append, take_of_length_le hle]
        rfl
      · rw [hrest, drop_append, drop_of_length_le hle, nil_append]

theorem readFullFrom_error (h : chunks.flatten.length < n) :
    ∃ e, readFullFrom got n chunks = .error e := by
  induction chunks generalizing got n with
  | nil => exact ⟨_, if_neg (Nat.ne_of_gt h)⟩
  | cons chunk chunks ih =>
    rw [flatten_cons, length_append] at h
    obtain ⟨e, he⟩ := @ih (got + chunk.length) (n - chunk.length) (by omega)
    exact ⟨e, by rw [readFullFrom, if_neg (by omega), he]; rfl⟩

/-- Enough bytes for the header and for the payload that it announces make a message. -/
theorem readMessage_frame {chunks : List Bytes} {p rest : Bytes}
    (hmax : p.length ≤ maxMessageSize) (hpre : chunks.flatten <+: frame p ++ rest) :
    if 8 + p.length ≤ chunks.flatten.length then
      ∃ chunks', (readMessage chunks).1 = .ok (p, chunks') ∧
        chunks'.flatten = chunks.flatten.drop (8 + p.length) else ∃ e, (readMessage chunks).1 = .error e := by
  obtain ⟨cut, hcut⟩ := hpre
  rw [readMessage]
  by_cases hheader : 8 ≤ chunks.flatten.length
  · obtain ⟨mid, hread, hmid⟩ := @readFullFrom_ok 0 8 chunks hheader
    have htake : chunks.flatten.take 8 = bigEndianBytes 8 p.length := by
      have htake := congrArg (take 8) hcut
      rwa [take_append_of_le_length hheader, frame, append_assoc, take_left' (length_bigEndianBytes 8 _)] at htake
    have hdrop : mid.flatten ++ cut = p ++ rest := by
      have hdrop := congrArg (drop 8) hcut
      rwa [drop_append_of_le_length hheader, ← hmid, frame, append_assoc,
        drop_left' (length_bigEndianBytes 8 _)] at hdrop
    have hlength : mid.flatten.length = chunks.flatten.length - 8 := by rw [hmid, length_drop]
    have hsize : bigEndian (bigEndianBytes 8 p.length) = p.length :=
      bigEndian_bigEndianBytes (hmax.trans_lt (by decide))
    simp only [hread, htake, hsize, if_neg (Nat.not_lt.mpr hmax)]
    by_cases hpayload : p.length ≤ mid.flatten.length
    · obtain ⟨chunks', hread, hrest⟩ := @readFullFrom_ok 0 _ mid hpayload
      have htake := congrArg (take p.length) hdrop
      rw [take_append_of_le_length hpayload, take_left] at htake
      rw [if_pos (by omega), hread, htake]
      exact ⟨chunks', rfl, by rw [hrest, hmid, drop_drop]⟩
    · obtain ⟨e, he⟩ := @readFullFrom_error 0 _ mid (Nat.not_le.mp hpayload)
      rw [if_neg (by omega), he]
      exact ⟨_, rfl⟩
  · obtain ⟨e, he⟩ := @readFullFrom_error 0 8 chunks (by omega)
    rw [if_neg (by omega), he]
    exact ⟨_, rfl⟩

private theorem readMessages_received {payloads chunks : List Bytes} {calls : ℕ}
    (hmax : ∀ p ∈ payloads, p.length ≤ maxMessageSize) (hpre : chunks.flatten <+: payloads.flatMap frame)
    (hcalls : (received chunks.flatten.length payloads).length ≤ calls) :
    ∃ e, readMessages (calls + 1) chunks = (received chunks.flatten.length payloads, some e) := by
  induction payloads generalizing chunks calls with
  | nil =>
    obtain ⟨e, he⟩ := @readFullFrom_error 0 8 chunks (by simp [prefix_nil.mp hpre])
    exact ⟨.readHeader e, by simp [readMessages, readMessage, he, received]⟩
  | cons p payloads ih =>
    have hread := readMessage_frame (hmax p mem_cons_self) hpre
    rw [received] at hcalls ⊢
    rw [readMessages]
    split at hread
    · rename_i hfits
      obtain ⟨chunks', hread, hrest⟩ := hread
      rw [if_pos hfits] at hcalls ⊢
      obtain ⟨calls, rfl⟩ := Nat.exists_eq_add_one_of_ne_zero (Nat.ne_zero_of_lt hcalls)
      have hlength : chunks'.flatten.length = chunks.flatten.length - (8 + p.length) := by
        rw [hrest, length_drop]
      have hpre' : chunks'.flatten <+: payloads.flatMap frame := by
        have hdrop := hpre.drop (8 + p.length)
        rwa [flatMap_cons, drop_left' (by simp [frame]), ← hrest] at hdrop
      obtain ⟨e, he⟩ := ih (fun q hq => hmax q (.tail _ hq)) hpre'
        (hlength ▸ Nat.le_of_succ_le_succ hcalls)
      exact ⟨e, by rw [hread]; simp only [he, hlength]⟩
    · rename_i hcut
      obtain ⟨e, he⟩ := hread
      exact ⟨e, by rw [he, if_neg hcut]⟩

/-- However the bytes of some frames are cut off and split into reads, the payloads of the frames
that have arrived come back, and then an error; and no header makes a buffer beyond the limit. -/
theorem readMessages_frames (payloads chunks : List Bytes) (hmax : ∀ p ∈ payloads, p.length ≤ maxMessageSize)
    (hpre : chunks.flatten <+: payloads.flatMap frame) :
    (∀ p ∈ payloads, writeMessage p = .ok (frame p)) ∧
    (∀ calls, (received chunks.flatten.length payloads).length ≤ calls → ∃ e,
      readMessages (calls + 1) chunks = (received chunks.flatten.length payloads, some e)) ∧
    ∀ chunks : List Bytes, 8 ≤ chunks.flatten.length →
      maxMessageSize < bigEndian (chunks.flatten.take 8) →
      readMessage chunks = (.error (.tooLarge (bigEndian (chunks.flatten.take 8))), []) := by
  refine ⟨fun p hp => if_neg (Nat.not_lt.mpr (hmax p hp)),
    fun calls => readMessages_received hmax hpre, fun chunks hheader hlarge => ?_⟩
  obtain ⟨rest, hread, -⟩ := @readFullFrom_ok 0 8 chunks hheader
  rw [readMessage, hread]
  exact if_pos hlarge

theorem readMessages_frames_cut : ∃ e, readMessages 2 [[0, 0, 0], [0, 0, 0, 0, 1, 7, 0]] = ([[7]], some e) :=
  (readMessages_frames [[7], [8]] [[0, 0, 0], [0, 0, 0, 0, 1, 7, 0]] (by decide)
    (by decide +kernel)).2.1 1 (by decide)

theorem readFullFrom_inv {got n : ℕ} {chunks rest : List Bytes} {bytes : Bytes}
    (h : readFullFrom got n chunks = .ok (bytes, rest)) :
    bytes.length = n ∧ chunks.flatten = bytes ++ rest.flatten := by
  by_cases hn : n ≤ chunks.flatten.length
  · obtain ⟨rest', hread, hrest⟩ := @readFullFrom_ok got n chunks hn
    cases hread.symm.trans h
    exact ⟨length_take_of_le hn, by rw [hrest, take_append_drop]⟩
  · obtain ⟨e, he⟩ := @readFullFrom_error got n chunks (Nat.not_le.mp hn)
    exact nomatch he.symm.trans h

private theorem readMessage_inv {chunks rest : List Bytes} {p : Bytes} (h : (readMessage chunks).1 = .ok (p, rest)) :
    chunks.flatten = frame p ++ rest.flatten ∧ p.length ≤ maxMessageSize := by
  rw [readMessage] at h
  split at h
  · exact nomatch h
  · rename_i header mid hheader
    obtain ⟨hlength, hflatten⟩ := readFullFrom_inv hheader
    split at h
    · exact nomatch h
    · rename_i hmax
      cases hpayload : readFullFrom 0 (bigEndian header) mid with
      | error e => simp [hpayload, Except.mapError] at h
      | ok r =>
        simp only [hpayload, Except.mapError, Except.ok.injEq] at h
        subst h
        obtain ⟨hp, hmid⟩ := readFullFrom_inv hpayload
        refine ⟨?_, hp ▸ Nat.not_lt.mp hmax⟩
        rw [frame, hp, ← hlength, bigEndianBytes_bigEndian, hflatten, hmid, append_assoc]

/-- Whatever bytes arrive, the messages that are accepted are within the limit, and written again
they are the bytes that were read. -/
theorem readMessages_sound (calls : ℕ) (chunks : List Bytes) :
    (readMessages calls chunks).1.flatMap frame <+: chunks.flatten ∧
      ∀ p ∈ (readMessages calls chunks).1, writeMessage p = .ok (frame p) := by
  induction calls generalizing chunks with
  | zero => exact ⟨ nil_prefix, fun _ hp => nomatch hp⟩
  | succ calls ih =>
    rw [readMessages]
    split
    · exact ⟨ nil_prefix, fun _ hp => nomatch hp⟩
    · rename_i payload rest hread
      obtain ⟨hflatten, hmax⟩ := readMessage_inv hread
      rw [flatMap_cons, hflatten]
      exact ⟨(prefix_append_right_inj _).mpr (ih rest).1,
        forall_mem_cons.mpr ⟨if_neg (Nat.not_lt.mpr hmax), (ih rest).2⟩⟩

end Spectra.Helper
