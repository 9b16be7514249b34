import Mathlib.Algebra.GroupWithZero.Nat
import Mathlib.Data.List.Infix

/-! Readers of byte streams, and when one reader follows another. -/
namespace Spectra.Library
open List Pure Nat

/-- The two ways a stream ends too early. -/
inductive IoError where
  | eof | unexpectedEof
  deriving DecidableEq, Repr

/-- A reader takes bytes off the front of a stream, or fails. -/
structure Reader (ε α : Type) where
  run : List UInt8 → Except ε (α × List UInt8)
  suffix : ∀ {bs rest : List UInt8} {x : α}, run bs = .ok (x, rest) → rest <:+ bs

namespace Reader
variable {ε ε' α β σ τ : Type}

instance : Monad (Reader ε) where
  pure x := ⟨fun bs => .ok (x, bs), by
    intro bs rest y h
    cases h
    exact List.suffix_rfl⟩
  bind p f := ⟨fun bs => match p.run bs with
    | .error e => .error e
    | .ok (x, rest) => (f x).run rest, by
    intro bs rest y h
    split at h
    · cases h
    · rename_i hp
      exact ((f _).suffix h).trans (p.suffix hp)⟩

theorem run_bind (p : Reader ε α) (f : α → Reader ε β) (bs : List UInt8) :
    (p >>= f).run bs = match p.run bs with
      | .error e => .error e
      | .ok (x, rest) => (f x).run rest := rfl

variable {bs rest : List UInt8} {p : Reader ε α} {f : α → Reader ε β}

theorem run_bind_ok {y : β} :
    (p >>= f).run bs = .ok (y, rest) ↔ ∃ x mid, p.run bs = .ok (x, mid) ∧ (f x).run mid = .ok (y, rest) := by
  rw [run_bind]
  cases p.run bs with
  | error e => simp
  | ok r =>
    obtain ⟨x, mid⟩ := r
    simp

theorem run_bind_of_ok {x : α} (h : p.run bs = .ok (x, rest)) :
    (p >>= f).run bs = (f x).run rest := by
  rw [run_bind, h]

def fail (e : ε) : Reader ε α := ⟨fun _ => .error e, fun h => nomatch h⟩

def mapError (f : ε → ε') (p : Reader ε α) : Reader ε' α where
  run bs := (p.run bs).mapError f
  suffix := by
    intro bs rest x h
    cases hp : p.run bs with
    | error e => simp [hp, Except.mapError] at h
    | ok r =>
      simp only [hp, Except.mapError, Except.ok.injEq] at h
      exact p.suffix (h ▸ hp)

theorem run_mapError_ok {f : ε → ε'} {p : Reader ε α} {x : α} :
    (p.mapError f).run bs = .ok (x, rest) ↔ p.run bs = .ok (x, rest) := by
  change (p.run bs).mapError f = _ ↔ _
  cases p.run bs <;> simp [Except.mapError]

/-- `io.Reader.ReadByte`. -/
def readByte : Reader IoError UInt8 where
  run
    | [] => .error .eof
    | b :: bs => .ok (b, bs)
  suffix := by
    intro bs rest x h
    cases bs with
    | nil => cases h
    | cons b bs =>
      cases h
      exact List.suffix_cons _ _

/-- `io.ReadFull` into a slice of `n` bytes. -/
def readFull (n : ℕ) : Reader IoError (List UInt8) where
  run bs :=
    if n ≤ bs.length then .ok (bs.take n, bs.drop n)
    else .error (if bs = [] then .eof else .unexpectedEof)
  suffix := by
    intro bs rest x h
    split at h
    · cases h
      exact List.drop_suffix n bs
    · cases h

theorem run_readFull_append {front : List UInt8} {n : ℕ} (h : front.length = n) (rest : List UInt8) :
    (readFull n).run (front ++ rest) = .ok (front, rest) := by
  subst h
  refine (if_pos ?_).trans ?_
  · rw [length_append]
    exact le_add_right _ _
  · rw [take_left, drop_left]

theorem run_readFull_short {n : ℕ} (h : bs.length < n) :
    (readFull n).run bs = .error (if bs = [] then .eof else .unexpectedEof) :=
  if_neg (not_le.mpr h)

/-- `io.CopyN` into nothing. -/
def skip (n : ℕ) : Reader IoError Unit where
  run bs := if n ≤ bs.length then .ok ((), bs.drop n) else .error .eof
  suffix := by
    intro bs rest x h
    split at h
    · cases h
      exact List.drop_suffix n bs
    · cases h

def remaining : Reader ε ℕ where
  run bs := .ok (bs.length, bs)
  suffix := by
    intro bs rest x h
    cases h
    exact List.suffix_rfl

/-- The unsigned number written in big-endian order. -/
def bigEndian (bs : List UInt8) : ℕ := bs.foldl (fun n b => 256 * n + b.toNat) 0

/-- The last `n` digits of a number in big-endian order. -/
def bigEndianBytes : ℕ → ℕ → List UInt8
  | 0, _ => []
  | n + 1, v => bigEndianBytes n (v / 256) ++ [UInt8.ofNat v]

@[simp] theorem length_bigEndianBytes (n v : ℕ) : (bigEndianBytes n v).length = n := by
  induction n generalizing v with
  | zero => rfl
  | succ n ih => rw [bigEndianBytes, length_append, ih, length_singleton]

theorem bigEndian_concat (bs : List UInt8) (b : UInt8) : bigEndian (bs ++ [b]) = 256 * bigEndian bs + b.toNat := by
  rw [bigEndian, foldl_append]
  rfl

theorem bigEndian_bigEndianBytes {n v : ℕ} (h : v < 256 ^ n) : bigEndian (bigEndianBytes n v) = v := by
  induction n generalizing v with
  | zero =>
    rw [pow_zero, lt_one_iff] at h
    rw [h]
    rfl
  | succ n ih =>
    have hdiv : v / 256 < 256 ^ n := by
      rw [div_lt_iff_lt_mul (by decide)]
      exact h
    rw [bigEndianBytes, bigEndian_concat, ih hdiv]
    exact div_add_mod v 256

theorem bigEndianBytes_bigEndian (bs : List UInt8) : bigEndianBytes bs.length (bigEndian bs) = bs := by
  induction bs using reverseRecOn with
  | nil => rfl
  | append_singleton bs b ih =>
    have hdiv : (256 * bigEndian bs + b.toNat) / 256 = bigEndian bs := by
      have := b.toNat_lt
      omega
    have hlast : UInt8.ofNat (256 * bigEndian bs + b.toNat) = b := by
      rw [← UInt8.toNat_inj, UInt8.toNat_ofNat', mul_add_mod, mod_eq_of_lt b.toNat_lt]
    rw [length_append, length_singleton, bigEndianBytes, bigEndian_concat, hdiv, hlast, ih]

def uint (n : ℕ) : Reader IoError ℕ := do
  let bs ← readFull n
  return bigEndian bs

/-- The results of the loop `for i := 0; i < n; i++`. -/
def collect (p : Reader ε α) : ℕ → Reader ε (List α)
  | 0 => pure []
  | n + 1 => do
    let x ← p
    let xs ← collect p n
    return x :: xs

/-- A loop over the stream that ends where the stream does; `fuel` bounds its rounds. -/
def untilEofRun (body : UInt8 → σ → Reader ε σ) :
    ℕ → σ → List UInt8 → Except ε (σ × List UInt8)
  | _, s, [] => .ok (s, [])
  | 0, s, _ :: bs => .ok (s, bs)
  | fuel + 1, s, b :: bs =>
    match (body b s).run bs with
    | .error e => .error e
    | .ok (s, rest) => untilEofRun body fuel s rest

variable {body : UInt8 → σ → Reader ε σ}

theorem untilEofRun_suffix {fuel : ℕ} {s s' : σ}
    (h : untilEofRun body fuel s bs = .ok (s', rest)) : rest <:+ bs := by
  induction fuel generalizing s bs with
  | zero =>
    cases bs with
    | nil =>
      cases h
      exact suffix_rfl
    | cons b bs =>
      cases h
      exact suffix_cons _ _
  | succ fuel ih =>
    cases bs with
    | nil =>
      cases h
      exact suffix_rfl
    | cons b bs =>
      simp only [untilEofRun] at h
      split at h
      · cases h
      · rename_i hb
        exact ((ih h).trans ((body b s).suffix hb)).trans (suffix_cons b bs)

/-- Run the body on each byte read, until there is none left; as many rounds as there are bytes are
enough. -/
def untilEof (body : UInt8 → σ → Reader ε σ) (s : σ) : Reader ε σ where
  run bs := untilEofRun body bs.length s bs
  suffix := untilEofRun_suffix

theorem untilEofRun_of_le {fuel fuel' : ℕ} {s : σ}
    (h : bs.length ≤ fuel) (h' : bs.length ≤ fuel') : untilEofRun body fuel s bs = untilEofRun body fuel' s bs := by
  induction fuel generalizing fuel' s bs with
  | zero =>
    obtain rfl : bs = [] := length_eq_zero_iff.1 (by omega)
    cases fuel' <;> rfl
  | succ fuel ih =>
    cases bs with
    | nil => cases fuel' <;> rfl
    | cons b bs =>
      obtain ⟨fuel', rfl⟩ : ∃ n, fuel' = n + 1 := ⟨fuel' - 1, by simp at h'; omega⟩
      simp only [untilEofRun]
      split
      · rfl
      · rename_i hb
        have hl := ((body b s).suffix hb).length_le
        simp only [length_cons] at h h'
        exact ih (by omega) (by omega)

theorem run_untilEof_cons (body : UInt8 → σ → Reader ε σ) (s : σ) (b : UInt8) (bs : List UInt8) :
    (untilEof body s).run (b :: bs) = (body b s >>= untilEof body).run bs := by
  rw [run_bind]
  change untilEofRun body (bs.length + 1) s (b :: bs) = _
  simp only [untilEofRun]
  split
  · rfl
  · rename_i hb
    exact untilEofRun_of_le ((body b s).suffix hb).length_le le_rfl

/-- `io.LimitedReader`: `p` reads the next `n` bytes to their end, and is told how many the stream
lacks; lacking some is an error. -/
def limited (n : ℕ) (truncated : ℕ → ε) (p : ℕ → Reader ε α) : Reader ε α where
  run bs := match (p (n - bs.length)).run (bs.take n) with
    | .error e => .error e
    | .ok (x, _) => if bs.length < n then .error (truncated (n - bs.length)) else .ok (x, bs.drop n)
  suffix := by
    intro bs rest x h
    split at h
    · cases h
    · split at h
      · cases h
      · cases h
        exact List.drop_suffix n bs

theorem run_limited_ok {n : ℕ} {truncated : ℕ → ε} {p : ℕ → Reader ε α} {x : α} :
    (limited n truncated p).run bs = .ok (x, rest) ↔
      n ≤ bs.length ∧ rest = bs.drop n ∧ ∃ left, (p 0).run (bs.take n) = .ok (x, left) := by
  change (match (p (n - bs.length)).run (bs.take n) with
    | .error e => Except.error e
    | .ok (x, _) => if bs.length < n then .error (truncated (n - bs.length))
      else .ok (x, bs.drop n)) = _ ↔ _
  by_cases hn : n ≤ bs.length
  · rw [Nat.sub_eq_zero_of_le hn]
    cases (p 0).run (bs.take n) with
    | error e => simp
    | ok r =>
      obtain ⟨y, left⟩ := r
      simp [hn, not_lt.mpr hn, and_comm, eq_comm]
  · simp only [hn, false_and, iff_false]
    split
    · exact fun h => nomatch h
    · rw [if_pos (not_le.mp hn)]
      exact fun h => nomatch h

section

/-- Where `p` succeeds so does `q`; it takes the same bytes and gives a related result. -/
def Follows (R : α → β → Prop) (p : Reader ε α) (q : Reader ε' β) : Prop :=
  ∀ bs x rest, p.run bs = .ok (x, rest) → ∃ y, q.run bs = .ok (y, rest) ∧ R x y

/-- `Follows` for the results of `p` that satisfy a condition. -/
def FollowsIf (C : α → Prop) (R : α → β → Prop) (p : Reader ε α) (q : Reader ε' β) : Prop :=
  ∀ bs x rest, p.run bs = .ok (x, rest) → C x → ∃ y, q.run bs = .ok (y, rest) ∧ R x y

/-- A reader that takes exactly `n` bytes, whatever comes after them, and what holds of its
result. -/
def Takes (n : ℕ) (Q : α → Prop) (p : Reader ε α) : Prop :=
  ∀ bs x rest, p.run bs = .ok (x, rest) → n ≤ bs.length ∧ rest = bs.drop n ∧ Q x ∧
    ∀ k, p.run (bs.take (n + k)) = .ok (x, rest.take k)

variable {ε₁ ε₂ γ δ : Type} {C : α → Prop} {R : α → β → Prop} {S : γ → δ → Prop}
  {p p' : Reader ε α} {q q' : Reader ε' β}

theorem Follows.followsIf (h : Follows R p q) : FollowsIf C R p q :=
  fun bs x rest hx _ => h bs x rest hx

theorem followsIf_true : FollowsIf (fun _ => True) R p q ↔ Follows R p q :=
  ⟨fun h bs x rest hx => h bs x rest hx trivial, Follows.followsIf⟩

variable {x : α}

theorem Follows.pure {y : β} (h : R x y) : Follows R (pure x : Reader ε α) (pure y : Reader ε' β) := by
  rintro bs _ _ ⟨rfl, rfl⟩
  exact ⟨y, rfl, h⟩

theorem Follows.fail {e : ε} : Follows R (fail e) q := fun _ _ _ h => nomatch h

theorem Follows.mono {R' : α → β → Prop} (h : Follows R p q) (hR : ∀ x y, R x y → R' x y) : Follows R' p q := by
  intro bs x rest hp
  obtain ⟨y, hy, hxy⟩ := h bs x rest hp
  exact ⟨y, hy, hR x y hxy⟩

variable {f : α → Reader ε γ} {g : β → Reader ε' δ}

theorem FollowsIf.bind {C : γ → Prop} (h : Follows R p q)
    (hf : ∀ x y, R x y → FollowsIf C S (f x) (g y)) : FollowsIf C S (p >>= f) (q >>= g) := by
  intro bs z rest hz hC
  obtain ⟨x, mid, hx, hz⟩ := run_bind_ok.mp hz
  obtain ⟨y, hy, hxy⟩ := h bs x mid hx
  obtain ⟨w, hw, hzw⟩ := hf x y hxy mid z rest hz hC
  exact ⟨w, run_bind_ok.mpr ⟨y, mid, hy, hw⟩, hzw⟩

theorem Follows.bind (h : Follows R p q) (hf : ∀ x y, R x y → Follows S (f x) (g y)) : Follows S (p >>= f) (q >>= g) :=
  followsIf_true.1 (.bind h fun x y hxy => (hf x y hxy).followsIf)

theorem Follows.mapError {f : ε → ε₁} {g : ε' → ε₂} (h : Follows R p q) : Follows R (p.mapError f) (q.mapError g) := by
  intro bs x rest hp
  obtain ⟨y, hy, hxy⟩ := h bs x rest (run_mapError_ok.mp hp)
  exact ⟨y, run_mapError_ok.mpr hy, hxy⟩

theorem Follows.mapError_right {g : ε' → ε₂} (h : Follows R p q) : Follows R p (q.mapError g) := by
  intro bs x rest hp
  obtain ⟨y, hy, hxy⟩ := h bs x rest hp
  exact ⟨y, run_mapError_ok.mpr hy, hxy⟩

theorem Follows.refl (p : Reader ε α) : Follows Eq p p := fun _ x _ h => ⟨x, h, rfl⟩

theorem Follows.bind_same {g : α → Reader ε δ} (hf : ∀ x, Follows S (f x) (g x)) : Follows S (p >>= f) (p >>= g) := by
  apply (Follows.refl p).bind
  rintro x _ rfl
  exact hf x

theorem Follows.map_right {T : α → δ → Prop} {g : β → δ} (h : Follows R p q)
    (hT : ∀ x y, R x y → T x (g y)) : Follows T p (q >>= fun y => Pure.pure (g y)) := by
  intro bs x rest hx
  obtain ⟨y, hy, hxy⟩ := h bs x rest hx
  exact ⟨g y, run_bind_ok.mpr ⟨y, rest, hy, rfl⟩, hT x y hxy⟩

theorem Follows.map_left {T : γ → β → Prop} {f : α → γ} (h : Follows R p q)
    (hT : ∀ x y, R x y → T (f x) y) : Follows T (p >>= fun x => Pure.pure (f x)) q := by
  intro bs z rest hz
  obtain ⟨x, mid, hx, hz⟩ := run_bind_ok.mp hz
  cases hz
  obtain ⟨y, hy, hxy⟩ := h bs x rest hx
  exact ⟨y, hy, hT x y hxy⟩

variable {c : Prop}

theorem Follows.ite [Decidable c] (h : c → Follows R p q)
    (h' : ¬ c → Follows R p' q') : Follows R (if c then p else p') (if c then q else q') := by
  by_cases hc : c
  · rw [if_pos hc, if_pos hc]
    exact h hc
  · rw [if_neg hc, if_neg hc]
    exact h' hc

/-- Each of the two readers follows the other. -/
def Twins (R : α → β → Prop) (p : Reader ε α) (q : Reader ε' β) : Prop :=
  Follows R p q ∧ Follows (fun y x => R x y) q p

theorem Twins.pure {y : β} (h : R x y) : Twins R (pure x : Reader ε α) (pure y : Reader ε' β) :=
  ⟨.pure h, .pure h⟩

theorem Twins.fail {e : ε} {e' : ε'} : Twins R (fail e) (fail e') := ⟨.fail, .fail⟩

theorem Twins.refl (p : Reader ε α) : Twins Eq p p :=
  ⟨.refl p, (Follows.refl p).mono fun _ _ h => h.symm⟩

theorem Twins.mapError {f : ε → ε₁} {g : ε' → ε₂} (h : Twins R p q) : Twins R (p.mapError f) (q.mapError g) :=
  ⟨h.1.mapError, h.2.mapError⟩

theorem Twins.bind (h : Twins R p q) (hf : ∀ x y, R x y → Twins S (f x) (g y)) : Twins S (p >>= f) (q >>= g) :=
  ⟨h.1.bind fun x y hxy => (hf x y hxy).1, h.2.bind fun y x hxy => (hf x y hxy).2⟩

theorem Twins.bind_same {g : α → Reader ε δ} (hf : ∀ x, Twins S (f x) (g x)) : Twins S (p >>= f) (p >>= g) :=
  ⟨.bind_same fun x => (hf x).1, .bind_same fun x => (hf x).2⟩

theorem Twins.ite [Decidable c] (h : c → Twins R p q)
    (h' : ¬ c → Twins R p' q') : Twins R (if c then p else p') (if c then q else q') :=
  ⟨.ite (fun hc => (h hc).1) fun hc => (h' hc).1, .ite (fun hc => (h hc).2) fun hc => (h' hc).2⟩

theorem Follows.remaining {f : ℕ → Reader ε α} (h : ∀ n, Follows R (f n) q) : Follows R (remaining >>= f) q :=
  fun bs => h bs.length bs

theorem Follows.collect (h : Follows R p q) (n : ℕ) : Follows (List.Forall₂ R) (collect p n) (collect q n) := by
  induction n with
  | zero => exact .pure .nil
  | succ n ih =>
    apply h.bind
    intro x y hxy
    apply ih.bind
    intro xs ys hxys
    exact .pure (.cons hxy hxys)

/-- A condition that holds of a state if it holds of the next one can be used in every round. -/
theorem FollowsIf.untilEof {f : UInt8 → α → Reader ε α} {g : UInt8 → β → Reader ε' β}
    (back : ∀ b s bs s' rest, (f b s).run bs = .ok (s', rest) → C s' → C s)
    (step : ∀ b s t, R s t → FollowsIf C R (f b s) (g b t)) {s : α} {t : β} (hst : R s t) :
    FollowsIf C R (untilEof f s) (untilEof g t) := by
  intro bs s' rest h hC
  suffices C s ∧ ∃ t', (Reader.untilEof g t).run bs = .ok (t', rest) ∧ R s' t' from this.2
  suffices C s ∧ (R s t → ∃ t', (Reader.untilEof g t).run bs = .ok (t', rest) ∧ R s' t') from
    ⟨this.1, this.2 hst⟩
  clear hst
  induction hn : bs.length using Nat.strong_induction_on generalizing bs s t with
  | _ n ih =>
    cases bs with
    | nil =>
      cases h
      exact ⟨hC, fun hst => ⟨t, rfl, hst⟩⟩
    | cons b bs =>
      rw [run_untilEof_cons] at h
      obtain ⟨s₁, mid, hs₁, h⟩ := run_bind_ok.mp h
      have hlen := ((f b s).suffix hs₁).length_le
      rw [length_cons] at hn
      have hC₁ : C s₁ := (ih mid.length (by omega) (t := t) mid h rfl).1
      refine ⟨back b s bs s₁ mid hs₁ hC₁, fun hst => ?_⟩
      obtain ⟨t₁, ht₁, hst₁⟩ := step b s t hst bs s₁ mid hs₁ hC₁
      obtain ⟨t', ht', hst'⟩ := (ih mid.length (by omega) mid h rfl).2 hst₁
      refine ⟨t', ?_, hst'⟩
      rw [run_untilEof_cons]
      exact run_bind_ok.mpr ⟨t₁, mid, ht₁, ht'⟩

theorem Follows.untilEof {f : UInt8 → α → Reader ε α} {g : UInt8 → β → Reader ε' β}
    (step : ∀ b s t, R s t → Follows R (f b s) (g b t)) {s : α} {t : β} (hst : R s t) :
    Follows R (untilEof f s) (untilEof g t) :=
  followsIf_true.1 (.untilEof (fun _ _ _ _ _ _ _ => trivial) (fun b s t h => (step b s t h).followsIf) hst)

variable {n : ℕ} {e : ℕ → ε}

theorem FollowsIf.limited {e' : ℕ → ε'} {p : ℕ → Reader ε α} {q : ℕ → Reader ε' β}
    (h : FollowsIf C R (p 0) (q 0)) : FollowsIf C R (limited n e p) (limited n e' q) := by
  intro bs x rest hx hC
  obtain ⟨hn, rfl, left, hx⟩ := run_limited_ok.mp hx
  obtain ⟨y, hy, hxy⟩ := h _ _ _ hx hC
  exact ⟨y, run_limited_ok.mpr ⟨hn, rfl, left, hy⟩, hxy⟩

theorem Follows.limited {e' : ℕ → ε'} {p : ℕ → Reader ε α} {q : ℕ → Reader ε' β}
    (h : Follows R (p 0) (q 0)) : Follows R (limited n e p) (limited n e' q) :=
  followsIf_true.1 (.limited (Follows.followsIf h))

theorem FollowsIf.pure {y : β} (h : R x y) : FollowsIf C R (pure x : Reader ε α) (pure y : Reader ε' β) :=
  (Follows.pure h).followsIf

theorem FollowsIf.bind_same {C : γ → Prop} {g : α → Reader ε δ}
    (hf : ∀ x, FollowsIf C S (f x) (g x)) : FollowsIf C S (p >>= f) (p >>= g) := by
  apply FollowsIf.bind (.refl p)
  rintro x _ rfl
  exact hf x

theorem FollowsIf.map_left {D : γ → Prop} {T : γ → δ → Prop} {f : α → γ} (h : FollowsIf C R p q)
    (hC : ∀ x, D (f x) → C x) (hg : ∀ x y, R x y → D (f x) → Follows T (Pure.pure (f x) : Reader ε γ) (g y)) :
    FollowsIf D T (p >>= fun x => Pure.pure (f x)) (q >>= g) := by
  intro bs z rest hz hD
  obtain ⟨x, mid, hx, hz⟩ := run_bind_ok.mp hz
  cases hz
  obtain ⟨y, hy, hxy⟩ := h bs x rest hx (hC x hD)
  obtain ⟨w, hw, hT⟩ := hg x y hxy hD rest (f x) rest rfl
  exact ⟨w, run_bind_ok.mpr ⟨y, rest, hy, hw⟩, hT⟩

theorem FollowsIf.ite [Decidable c] (h : FollowsIf C R p q) (h' : FollowsIf C R p' q') :
    FollowsIf C R (if c then p else p') (if c then q else q') := by
  split
  · exact h
  · exact h'

variable {P : γ → Prop} {Q : α → Prop}

/-- What holds of every result of a reader. -/
def Ensures (Q : α → Prop) (p : Reader ε α) : Prop :=
  ∀ bs x rest, p.run bs = .ok (x, rest) → Q x

theorem Ensures.pure (h : Q x) : Ensures Q (pure x : Reader ε α) := by
  rintro bs _ _ ⟨rfl, rfl⟩
  exact h

theorem Ensures.fail {e : ε} : Ensures Q (fail e : Reader ε α) := fun _ _ _ h => nomatch h

theorem Ensures.bind (hf : ∀ x, Ensures P (f x)) : Ensures P (p >>= f) := by
  intro bs z rest h
  obtain ⟨x, mid, _, hz⟩ := run_bind_ok.mp h
  exact hf x mid z rest hz

theorem Ensures.ite [Decidable c] (h : Ensures Q p) (h' : Ensures Q p') : Ensures Q (if c then p else p') := by
  split
  · exact h
  · exact h'

theorem Ensures.limited {p : ℕ → Reader ε α} (h : Ensures Q (p 0)) : Ensures Q (limited n e p) := by
  intro bs x rest hx
  obtain ⟨_, _, left, hx⟩ := run_limited_ok.mp hx
  exact h _ _ _ hx

theorem Ensures.untilEof {f : UInt8 → α → Reader ε α} (step : ∀ b s, Q s → Ensures Q (f b s))
    {s : α} (hs : Q s) : Ensures Q (untilEof f s) := by
  have h : Follows (fun s t => s = t ∧ Q s) (.untilEof f s) (.untilEof f s) := by
    refine .untilEof ?_ ⟨rfl, hs⟩
    rintro b s _ ⟨rfl, hs⟩ bs x rest hx
    exact ⟨x, hx, rfl, step b s hs bs x rest hx⟩
  intro bs x rest hx
  obtain ⟨_, _, _, hQ⟩ := h bs x rest hx
  exact hQ

theorem takes_readFull (n : ℕ) : Takes n (fun bs => bs.length = n) (readFull n) := by
  intro bs x rest h
  change (if n ≤ bs.length then _ else _) = _ at h
  split at h
  · rename_i hn
    cases h
    refine ⟨hn, rfl, length_take_of_le hn, fun k => (if_pos ?_).trans ?_⟩
    · rw [length_take]
      omega
    · rw [take_take, min_eq_left (le_add_right n k), drop_take, Nat.add_sub_cancel_left]
  · cases h

theorem takes_skip (n : ℕ) : Takes n (fun _ => True) (skip n) := by
  intro bs x rest h
  change (if n ≤ bs.length then _ else _) = _ at h
  split at h
  · rename_i hn
    cases h
    refine ⟨hn, rfl, trivial, fun k => (if_pos ?_).trans ?_⟩
    · rw [length_take]
      omega
    · rw [drop_take, Nat.add_sub_cancel_left]
  · cases h

theorem Takes.pure (h : Q x) : Takes 0 Q (pure x : Reader ε α) := by
  rintro bs _ _ ⟨rfl, rfl⟩
  exact ⟨zero_le _, rfl, h, fun k => by rw [zero_add]; rfl⟩

theorem Takes.bind {m : ℕ} (hp : Takes m Q p) (hf : ∀ x, Q x → Takes n P (f x)) : Takes (m + n) P (p >>= f) := by
  intro bs z rest h
  obtain ⟨x, mid, hx, hz⟩ := run_bind_ok.mp h
  obtain ⟨hm, rfl, hQ, hp'⟩ := hp bs x mid hx
  obtain ⟨hn, rfl, hP, hf'⟩ := hf x hQ _ z rest hz
  rw [length_drop] at hn
  refine ⟨by omega, by rw [drop_drop], hP, fun k => ?_⟩
  rw [add_assoc]
  exact run_bind_ok.mpr ⟨x, _, hp' (n + k), hf' k⟩

theorem Takes.mapError {f : ε → ε₁} (h : Takes n Q p) : Takes n Q (p.mapError f) :=
  fun bs x rest hx => by simpa only [run_mapError_ok] using h bs x rest (run_mapError_ok.mp hx)

theorem takes_uint (n : ℕ) : Takes n (fun _ => True) (uint n) :=
  (takes_readFull n).bind fun _ _ => Takes.pure trivial

theorem Takes.collect {k : ℕ} (h : Takes k Q p) (n : ℕ) : Takes (n * k) (fun xs => xs.length = n) (collect p n) := by
  induction n with
  | zero =>
    rw [zero_mul]
    exact .pure rfl
  | succ n ih =>
    rw [succ_mul, add_comm]
    refine h.bind fun x _ => ih.bind fun xs hxs => .pure ?_
    rw [length_cons, hxs]

theorem Takes.congr {m : ℕ} (h : Takes m Q p) (hmn : ∀ x, Q x → m = n) : Takes n (fun _ => True) p := by
  intro bs x rest hx
  obtain ⟨hle, hrest, hQ, htake⟩ := h bs x rest hx
  rw [hmn x hQ] at hle hrest htake
  exact ⟨hle, hrest, trivial, htake⟩

theorem Takes.fail {e : ε} : Takes n Q (fail e : Reader ε α) := fun _ _ _ h => nomatch h

theorem Takes.ite [Decidable c] (h : c → Takes n Q p) (h' : ¬ c → Takes n Q p') : Takes n Q (if c then p else p') := by
  by_cases hc : c
  · rw [if_pos hc]
    exact h hc
  · rw [if_neg hc]
    exact h' hc

theorem takes_limited {p : ℕ → Reader ε α} : Takes n (fun _ => True) (limited n e p) := by
  intro bs x rest h
  obtain ⟨hn, rfl, hp⟩ := run_limited_ok.mp h
  refine ⟨hn, rfl, trivial, fun k => run_limited_ok.mpr ⟨?_, ?_, ?_⟩⟩
  · rw [length_take]
    omega
  · rw [drop_take, Nat.add_sub_cancel_left]
  · rwa [take_take, min_eq_left (le_add_right n k)]

theorem Takes.follows_skip (h : Takes n Q p) : Follows (fun x _ => Q x) p (skip n) := by
  intro bs x rest hx
  obtain ⟨hn, rfl, hQ, -⟩ := h bs x rest hx
  exact ⟨(), if_pos hn, hQ⟩

end

theorem run_uint_ok {n v : ℕ} :
    (uint n).run bs = .ok (v, rest) ↔ n ≤ bs.length ∧ v = bigEndian (bs.take n) ∧ rest = bs.drop n := by
  constructor
  · intro h
    obtain ⟨x, mid, hx, h⟩ := run_bind_ok.mp h
    change (if n ≤ bs.length then _ else _) = _ at hx
    split at hx
    · rename_i hn
      cases hx
      cases h
      exact ⟨hn, rfl, rfl⟩
    · cases hx
  · rintro ⟨hn, rfl, rfl⟩
    exact run_bind_ok.mpr ⟨_, _, if_pos hn, rfl⟩

end Reader
end Spectra.Library
