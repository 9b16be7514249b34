import Spectra.Heap.LengauerTarjan

/-! The Lengauer-Tarjan pass computes immediate dominators of the numbered graph. -/
namespace Spectra.Heap
open Library Function
variable {m : ℕ} [NeZero m] {E : Fin m → Fin m → Prop} {parent : Fin m → Fin m}

/-- Semidominators are final from `k` on and still untouched below. -/
structure SemiDone (E : Fin m → Fin m → Prop) (k : ℕ) (semi : Fin m → Fin m) : Prop where
  done : ∀ x, k ≤ x.val → IsSdom E (semi x) x
  fresh : ∀ x, x.val < k → semi x = x

/-- What one predecessor `v` offers as the semidominator of `w`. -/
def Offer (E : Fin m → Fin m → Prop) (parent : Fin m → Fin m) (w v x : Fin m) : Prop :=
  v < w ∧ x = v ∨ ∃ u, w < u ∧ Anc 0 parent u v ∧ IsSdom E x u

/-- The predecessors `pre` of `w` have been folded in. -/
structure Scan (E : Fin m → Fin m → Prop) (parent : Fin m → Fin m) (w : Fin m)
    (pre : List (Fin m)) (lt : LtState m) : Prop where
  forest : Forest 0 parent (w.val + 1) lt
  done : ∀ x, w < x → IsSdom E (lt.semi x) x
  fresh : ∀ x, x < w → lt.semi x = x
  source : lt.semi w = w ∨ DfsTree.Candidate E 0 parent w (lt.semi w)
  least : ∀ v ∈ pre, ∀ x, Offer E parent w v x → lt.semi w ≤ x

section
variable {w : Fin m} {pre : List (Fin m)} {lt : LtState m} (t : DfsTree E 0 parent)
  (h : Scan E parent w pre lt)
include t h

/-- The value `eval` reads at a predecessor is below everything the predecessor offers,
and is itself an offer unless it is no improvement. -/
theorem Scan.eval_offer {v : Fin m} :
    (∀ x, Offer E parent w v x → lt.semi (lt.eval v).1 ≤ x) ∧
      (Offer E parent w v (lt.semi (lt.eval v).1) ∨ (lt.eval v).1 = w) := by
  obtain ⟨_, _, e3, e4⟩ := h.forest.eval_spec t v
  rcases lt_or_ge w v with hlt | hge
  · obtain ⟨a1, a2, a3⟩ := e4 hlt
    refine ⟨fun x hx => ?_, .inl (.inr ⟨_, Fin.lt_def.mpr a2, a1, h.done _ (Fin.lt_def.mpr a2)⟩)⟩
    rcases hx with ⟨hv, _⟩ | ⟨u, hwu, huv, hx⟩
    · exact absurd hlt hv.asymm
    · rw [hx.unique (h.done u hwu)]
      exact a3 u huv hwu
  · rw [e3 (by have : v.val ≤ w.val := hge; omega)]
    have hno (u : Fin m) (hwu : w < u) (huv : Anc 0 parent u v) : False :=
      absurd ((t.anc_le huv).trans hge) (not_le.mpr hwu)
    rcases lt_or_eq_of_le hge with hlt | rfl
    · rw [h.fresh v hlt]
      refine ⟨fun x hx => ?_, .inl (.inl ⟨hlt, rfl⟩)⟩
      rcases hx with ⟨_, rfl⟩ | ⟨u, hwu, huv, _⟩
      · exact le_rfl
      · exact (hno u hwu huv).elim
    · refine ⟨fun x hx => ?_, .inr rfl⟩
      rcases hx with ⟨hv, _⟩ | ⟨u, hwu, huv, _⟩
      · exact absurd hv (lt_irrefl _)
      · exact (hno u hwu huv).elim

theorem Scan.step {v : Fin m} (hv : E v w) : Scan E parent w (pre ++ [v]) (semiStep w lt v) := by
  obtain ⟨e1, e2, _, _⟩ := h.forest.eval_spec t v
  obtain ⟨hle, hoffer⟩ := h.eval_offer t (v := v)
  have hmem {P : Fin m → Prop} (h1 : ∀ x ∈ pre, P x) (h2 : P v) : ∀ x ∈ pre ++ [v], P x := by
    intro x hx
    rcases List.mem_append.mp hx with hx | hx
    · exact h1 x hx
    · exact List.mem_singleton.mp hx ▸ h2
  rw [semiStep]
  dsimp only
  rw [e2]
  split
  · rename_i hbetter
    have hset := e1.setSemi (Nat.lt_succ_self w.val) (lt.semi (lt.eval v).1)
    rw [e2] at hset
    refine ⟨hset, fun x hx => ?_, fun x hx => ?_, .inr ?_, hmem (fun u hu x hx => ?_) fun x hx => ?_⟩ <;> dsimp only
    · rw [update_of_ne hx.ne']
      exact h.done x hx
    · rw [update_of_ne hx.ne]
      exact h.fresh x hx
    · rw [update_self]
      rcases hoffer with ho | ho
      · exact ⟨v, hv, ho⟩
      · rw [ho] at hbetter
        exact absurd hbetter (lt_irrefl _)
    · rw [update_self]
      exact hbetter.le.trans (h.least u hu x hx)
    · rw [update_self]
      exact hle x hx
  · rename_i hworse
    refine ⟨e1, fun x hx => ?_, fun x hx => ?_, ?_, hmem (fun u hu x hx => ?_) fun x hx => ?_⟩ <;>
      rw [e2]
    · exact h.done x hx
    · exact h.fresh x hx
    · exact h.source
    · exact h.least u hu x hx
    · exact (not_lt.mp hworse).trans (hle x hx)

theorem Scan.all {post : List (Fin m)} (hp : ∀ v ∈ post, E v w) :
    Scan E parent w (pre ++ post) (post.foldl (semiStep w) lt) := by
  induction post generalizing pre lt with
  | nil => simpa using h
  | cons v post ih =>
    have := ih (h.step t (hp v (by simp))) fun u hu => hp u (by simp [hu])
    simpa using this

end

/-- Folding in all predecessors of `w` finishes its semidominator. -/
theorem semi_scan (t : DfsTree E 0 parent) {w : Fin m} (hw : w ≠ 0) {preds : List (Fin m)}
    (hp : ∀ v, v ∈ preds ↔ E v w) {lt : LtState m} (hf : Forest 0 parent (w.val + 1) lt)
    (hs : SemiDone E (w.val + 1) lt.semi) :
    Forest 0 parent (w.val + 1) (preds.foldl (semiStep w) lt) ∧
      SemiDone E w.val (preds.foldl (semiStep w) lt).semi := by
  have h0 : Scan E parent w [] lt :=
    ⟨hf, hs.done, fun x hx => hs.fresh x (Nat.lt_succ_of_lt hx), .inl (hs.fresh w (Nat.lt_succ_self _)), by simp⟩
  have h := h0.all t fun v hv => (hp v).mp hv
  have hbound (x : Fin m) (hx : DfsTree.Candidate E 0 parent w x) :
      (preds.foldl (semiStep w) lt).semi w ≤ x := by
    obtain ⟨v, he, ho⟩ := hx
    exact h.least v ((hp v).mpr he) x ho
  have hself : IsSdom E ((preds.foldl (semiStep w) lt).semi w) w := by
    refine t.isSdom_of_isLeast_candidate hw ⟨?_, hbound⟩
    rcases h.source with he | hc
    · have := hbound _ ⟨parent w, t.parent_edge hw, .inl ⟨t.parent_lt hw, rfl⟩⟩
      rw [he] at this
      exact absurd this (not_le.mpr (t.parent_lt hw))
    · exact hc
  refine ⟨h.forest, fun x hx => ?_, h.fresh⟩
  rcases lt_or_eq_of_le (Fin.le_def.mpr hx) with hlt | rfl
  · exact h.done x hlt
  · exact hself

/-- The linked list from `o` spells `l`. -/
def BucketList (next : Fin m → Option (Fin m)) : Option (Fin m) → List (Fin m) → Prop
  | o, [] => o = none
  | o, v :: l => o = some v ∧ BucketList next (next v) l

omit [NeZero m] in
theorem BucketList.update {next : Fin m → Option (Fin m)} {o : Option (Fin m)} {l : List (Fin m)}
    (h : BucketList next o l) {w : Fin m} (hw : w ∉ l) (x : Option (Fin m)) : BucketList (update next w x) o l := by
  induction l generalizing o with
  | nil => exact h
  | cons v l ih =>
    obtain ⟨rfl, hl⟩ := h
    refine ⟨rfl, ?_⟩
    rw [update_of_ne (by rintro rfl; simp at hw)]
    exact ih hl fun hm => hw (.tail _ hm)

/-- The recorded dominator is the immediate one, or a smaller vertex that shares it. -/
def Deferred (E : Fin m → Fin m → Prop) (semi idom : Fin m → Fin m) (v : Fin m) : Prop :=
  idom v = semi v ∧ Dom E 0 (semi v) v ∨
    semi v < idom v ∧ idom v < v ∧
      ∀ z, Dom E 0 z (idom v) ∧ z ≠ idom v ↔ Dom E 0 z v ∧ z ≠ v

/-- `v` waits in the bucket of `p`: the child of `p` above it is below `hi`. -/
def Waits (parent semi : Fin m → Fin m) (lo hi : ℕ) (p v : Fin m) : Prop :=
  lo ≤ v.val ∧ semi v = p ∧ ∃ c, c ≠ 0 ∧ parent c = p ∧ Anc 0 parent c v ∧ c.val < hi

/-- The linked lists hold exactly the vertices from `lo` on that are not settled. -/
structure Buckets (E : Fin m → Fin m → Prop) (parent : Fin m → Fin m) (lo hi : ℕ)
    (run : LtRun m) (L : Fin m → List (Fin m)) : Prop where
  list : ∀ p, BucketList run.bucketNext (run.bucketHead p) (L p)
  nodup : ∀ p, (L p).Nodup
  waits : ∀ p, ∀ v ∈ L p, Waits parent run.lt.semi lo hi p v
  settled : ∀ v, lo ≤ v.val → v ∈ L (run.lt.semi v) ∨ Deferred E run.lt.semi run.idom v

/-- What holds once the vertices from `lo` on are linked and the buckets of the parents
of the vertices from `hi` on are empty. -/
structure Stage (E : Fin m → Fin m → Prop) (parent : Fin m → Fin m) (lo hi : ℕ)
    (run : LtRun m) : Prop where
  forest : Forest 0 parent lo run.lt
  semi : SemiDone E lo run.lt.semi
  buckets : ∃ L, Buckets E parent lo hi run L

variable {v : Fin m}

/-- Evaluating a waiting vertex below the freshly linked child `w` of `p` settles it. -/
theorem deferred_of_eval (t : DfsTree E 0 parent) {w : Fin m} (hw : w ≠ 0)
    {lt : LtState m} (hf : Forest 0 parent w.val lt) (hs : SemiDone E w.val lt.semi)
    (hv : lt.semi v = parent w) (hwv : Anc 0 parent w v) (idom : Fin m → Fin m) :
    Deferred E lt.semi (update idom v (if lt.semi (lt.eval v).1 < lt.semi v then (lt.eval v).1 else parent w)) v := by
  have hle : w.val ≤ v.val := t.anc_le hwv
  have hv0 : v ≠ 0 := by
    rintro rfl
    exact hw (Fin.ext (by simpa using hle))
  have hpw := t.parent_lt hw
  obtain ⟨_, _, _, e4⟩ := hf.eval_spec t v
  obtain ⟨a1, a2, a3⟩ := e4 hle
  have hsv := hs.done v hle
  have hlink (y : Fin m) (hy : Anc 0 parent y v) (hpy : lt.semi v < y) : w ≤ y := by
    by_contra hlt
    rw [hv] at hpy
    exact hlt (t.eq_of_parent_lt (t.anc_of_le hy hwv (not_le.mp hlt).le) hpy).ge
  have hmin (y q : Fin m) (hy : lt.semi v < y) (hyv : Anc 0 parent y v) (hq : IsSdom E q y) :
      lt.semi (lt.eval v).1 ≤ q := by
    have hwy := hlink y hyv hy
    rw [hq.unique (hs.done y hwy)]
    exact a3 y hyv hwy
  rw [Deferred, update_self]
  split
  · rename_i hlt
    have hpu : lt.semi v < (lt.eval v).1 := hv ▸ hpw.trans_le (Fin.le_def.mpr a2)
    have huv : (lt.eval v).1 < v :=
      lt_of_le_of_ne (t.anc_le a1) fun he => by rw [he] at hlt; exact lt_irrefl _ hlt
    exact .inr ⟨hpu, huv, t.dom_iff_of_least hsv hpu a1 (hs.done _ a2) hmin⟩
  · rename_i hge
    exact .inl ⟨hv.symm, t.dom_sdom hv0 hsv fun y q hy hyv hq => (not_lt.mp hge).trans (hmin y q hy hyv hq)⟩

variable {run : LtRun m}

section
variable {w : Fin m} (t : DfsTree E 0 parent)
include t

/-- The bucket loop settles every vertex of the list and disturbs no settled one. -/
theorem bucketLoop_spec (hw : w ≠ 0) (fuel : ℕ) {o : Option (Fin m)} {l : List (Fin m)}
    (run : LtRun m) (hl : BucketList run.bucketNext o l) (hfuel : l.length ≤ fuel) (hnd : l.Nodup)
    (hf : Forest 0 parent w.val run.lt) (hs : SemiDone E w.val run.lt.semi)
    (hmem : ∀ v ∈ l, run.lt.semi v = parent w ∧ Anc 0 parent w v) :
    let run' := bucketLoop (parent w) fuel o run
    Forest 0 parent w.val run'.lt ∧ run'.lt.semi = run.lt.semi ∧
      run'.bucketHead = run.bucketHead ∧ run'.bucketNext = run.bucketNext ∧
      ∀ v, v ∈ l ∨ Deferred E run.lt.semi run.idom v → Deferred E run.lt.semi run'.idom v := by
  induction l generalizing fuel o run with
  | nil =>
    obtain rfl : o = none := hl
    have he : bucketLoop (parent w) fuel none run = run := by cases fuel <;> rfl
    rw [he]
    exact ⟨hf, rfl, rfl, rfl, fun v hv => by simpa using hv⟩
  | cons v l ih =>
    obtain ⟨rfl, hl⟩ := hl
    obtain ⟨fuel, rfl⟩ : ∃ n, fuel = n + 1 := ⟨fuel - 1, by simp at hfuel; omega⟩
    obtain ⟨hsv, hwv⟩ := hmem v (by simp)
    obtain ⟨e1, e2, _, _⟩ := hf.eval_spec t v
    have hnew := deferred_of_eval t hw hf hs hsv hwv run.idom
    obtain ⟨hvl, hnd⟩ := List.nodup_cons.mp hnd
    simp only [bucketLoop]
    obtain ⟨i1, i2, i3, i4, i5⟩ := ih fuel
      (o := run.bucketNext v) ({ run with
        lt := (run.lt.eval v).2
        idom := update run.idom v
          (if (run.lt.eval v).2.semi (run.lt.eval v).1 < (run.lt.eval v).2.semi v
            then (run.lt.eval v).1 else parent w) })
      hl (by simpa using hfuel) hnd e1 (by rw [e2]; exact hs) (by
        intro u hu
        rw [e2]
        exact hmem u (.tail _ hu))
    refine ⟨i1, i2.trans e2, i3, i4, fun u hu => ?_⟩
    rw [e2] at i5 ⊢
    by_cases huv : u = v
    · subst huv
      exact i5 u (.inr hnew)
    · refine i5 u ?_
      rcases hu with hu | hu
      · exact .inl ((List.mem_cons.mp hu).resolve_left huv)
      · exact .inr (by simpa only [Deferred, update_of_ne huv] using hu)

/-- A vertex waiting in the bucket of `parent w` lies below `w`. -/
theorem waits_below {semi : Fin m → Fin m} {v : Fin m}
    (h : Waits parent semi w.val (w.val + 1) (parent w) v) : Anc 0 parent w v := by
  obtain ⟨hle, _, c, hc, hp, hcv, hlt⟩ := h
  have hcw := t.interval hcv (Fin.le_def.mpr (Nat.lt_succ_iff.mp hlt)) (Fin.le_def.mpr hle)
  have : c = w := t.eq_of_parent_lt hcw (hp ▸ t.parent_lt hc)
  exact this ▸ hcv

theorem Stage.linkVertex {preds : Fin m → List (Fin m)} (hp : ∀ v w, v ∈ preds w ↔ E v w)
    (hw : w ≠ 0) (h : Stage E parent (w.val + 1) (w.val + 1) run) :
    Stage E parent w.val (w.val + 1) (linkVertex parent preds w run) := by
  obtain ⟨L, hL⟩ := h.buckets
  obtain ⟨f1, s1⟩ := semi_scan t hw (fun v => hp v w) h.forest h.semi
  rw [Heap.linkVertex]
  generalize (preds w).foldl (semiStep w) run.lt = lt at f1 s1
  refine ⟨f1.link t rfl hw, s1, update L (lt.semi w) (w :: L (lt.semi w)), ?_⟩
  have hsemi (v : Fin m) (hv : w < v) : lt.semi v = run.lt.semi v :=
    (s1.done v hv.le).unique (h.semi.done v hv)
  have hfresh (q : Fin m) : w ∉ L q := fun hm => absurd (hL.waits q w hm).1 (by omega)
  refine ⟨fun q => ?_, fun q => ?_, fun q v hv => ?_, fun v hv => ?_⟩
  · dsimp only
    by_cases hq : q = lt.semi w
    · subst hq
      simp only [update_self]
      exact ⟨rfl, by rw [update_self]; exact (hL.list _).update (hfresh _) _⟩
    · rw [update_of_ne hq, update_of_ne hq]
      exact (hL.list q).update (hfresh q) _
  · by_cases hq : q = lt.semi w
    · subst hq
      rw [update_self]
      exact List.nodup_cons.mpr ⟨hfresh _, hL.nodup _⟩
    · rw [update_of_ne hq]
      exact hL.nodup q
  · have hold (hv : v ∈ L q) : Waits parent lt.semi w.val (w.val + 1) q v := by
      obtain ⟨h1, h2, h3⟩ := hL.waits q v hv
      exact ⟨by omega, (hsemi v h1).trans h2, h3⟩
    by_cases hq : q = lt.semi w
    · subst hq
      rw [update_self] at hv
      rcases List.mem_cons.mp hv with rfl | hv
      · have hs := s1.done v le_rfl
        obtain ⟨c, hc, hpc, hcv⟩ := DfsTree.exists_child (t.sdom_anc hs hw) (t.sdom_lt hs hw).ne
        exact ⟨le_rfl, rfl, c, hc, hpc, hcv, Nat.lt_succ_of_le (t.anc_le hcv)⟩
      · exact hold hv
    · rw [update_of_ne hq] at hv
      exact hold hv
  · rcases lt_or_eq_of_le (Fin.le_def.mpr hv) with hlt | rfl
    · rw [Deferred, hsemi v hlt]
      refine (hL.settled v hlt).imp_left fun hm => ?_
      by_cases hq : run.lt.semi v = lt.semi w
      · rw [hq, update_self]
        exact .tail _ (hq ▸ hm)
      · rw [update_of_ne hq]
        exact hm
    · exact .inl (by rw [update_self]; exact (.head _))

theorem Stage.flushBucket (hw : w ≠ 0) (h : Stage E parent w.val (w.val + 1) run) :
    Stage E parent w.val w.val (flushBucket (parent w) run) := by
  obtain ⟨L, hL⟩ := h.buckets
  obtain ⟨b1, b2, b3, b4, b5⟩ := bucketLoop_spec t hw m run (hL.list (parent w))
    (by simpa using (hL.nodup (parent w)).length_le_card) (hL.nodup _) h.forest h.semi
    fun v hv => ⟨(hL.waits _ v hv).2.1, waits_below t (hL.waits _ v hv)⟩
  rw [Heap.flushBucket]
  refine ⟨b1, by rw [b2]; exact h.semi, update L (parent w) [], fun q => ?_, fun q => ?_,
    fun q v hv => ?_, fun v hv => ?_⟩
  · dsimp only
    rw [b3, b4]
    by_cases hq : q = parent w
    · subst hq
      rw [update_self, update_self]
      rfl
    · rw [update_of_ne hq, update_of_ne hq]
      exact hL.list q
  · by_cases hq : q = parent w
    · subst hq
      rw [update_self]
      exact .nil
    · rw [update_of_ne hq]
      exact hL.nodup q
  · rw [b2]
    have hq : q ≠ parent w := by
      rintro rfl
      rw [update_self] at hv
      cases hv
    rw [update_of_ne hq] at hv
    obtain ⟨h1, h2, c, hc, hpc, hcv, hcw⟩ := hL.waits q v hv
    have : c.val ≠ w.val := fun he => hq (hpc ▸ Fin.ext he ▸ rfl)
    exact ⟨h1, h2, c, hc, hpc, hcv, by omega⟩
  · rw [b2]
    rcases hL.settled v hv with hm | hd
    · by_cases hq : run.lt.semi v = parent w
      · exact .inr (b5 v (.inl (hq ▸ hm)))
      · left
        rw [update_of_ne hq]
        exact hm
    · exact .inr (b5 v (.inr hd))

end

private theorem stage_init (parent : Fin m → Fin m) : Stage E parent m m (.init m) where
  forest := ⟨fun _ _ => ⟨rfl, rfl⟩, fun x hx => absurd x.isLt (by omega)⟩
  semi := ⟨fun x hx => absurd x.isLt (by omega), fun _ _ => rfl⟩
  buckets := ⟨fun _ => [], fun _ => rfl, fun _ => .nil, fun _ _ hv => by simp at hv,
    fun v hv => absurd v.isLt (by omega)⟩

private theorem stage_loop (t : DfsTree E 0 parent) {preds : Fin m → List (Fin m)} (hp : ∀ v w, v ∈ preds w ↔ E v w) :
    Stage E parent 1 1 (Loop.down 1 (ltVertex parent preds) (.init m)) := by
  apply Loop.down_inv (fun k => Stage E parent k k) 1 (Nat.one_le_iff_ne_zero.mpr (NeZero.ne m))
    (stage_init parent)
  intro w hw run h
  have hw0 : w ≠ 0 := by
    rintro rfl
    simp at hw
  exact (h.linkVertex t hp hw0).flushBucket t hw0

theorem Stage.deferred (h : Stage E parent 1 1 run) (hv : v ≠ 0) :
    Deferred E run.lt.semi run.idom v := by
  obtain ⟨L, hL⟩ := h.buckets
  have hpos : 1 ≤ v.val := Nat.one_le_iff_ne_zero.mpr fun h0 => hv (Fin.ext (by exact h0))
  rcases hL.settled v hpos with hm | hd
  · obtain ⟨_, _, c, hc, _, _, hlt⟩ := hL.waits _ v hm
    exact absurd (Fin.ext (by exact Nat.lt_one_iff.mp hlt)) hc
  · exact hd

/-- The ascending loop turns deferred dominators into immediate ones. -/
theorem fixIdom_loop (t : DfsTree E 0 parent) (h : Stage E parent 1 1 run)
    (hv : v ≠ 0) : IsIdom E 0 (Loop.up 1 (fixIdom run.lt.semi) run.idom v) v := by
  have key := Loop.up_inv (m := m) (s := run.idom) (f := fixIdom run.lt.semi)
    (fun k idom => ∀ v : Fin m, v ≠ 0 → (v.val < k → IsIdom E 0 (idom v) v) ∧
      (k ≤ v.val → Deferred E run.lt.semi idom v)) 1
    (Nat.one_le_iff_ne_zero.mpr (NeZero.ne m))
    (fun v hv => ⟨fun hlt => absurd (Fin.ext (by exact Nat.lt_one_iff.mp hlt)) hv,
      fun _ => h.deferred hv⟩)
    (by
      intro w hw idom hi v hv
      have hw0 : w ≠ 0 := by rintro rfl; simp at hw
      have hsw := h.semi.done w hw
      have hne (hvw : v ≠ w) : fixIdom run.lt.semi w idom v = idom v := by
        rw [fixIdom]
        split
        · rw [update_of_ne hvw]
        · rfl
      by_cases hvw : v = w
      · subst hvw
        refine ⟨fun _ => ?_, fun hlt => by omega⟩
        rw [fixIdom]
        rcases (hi v hv).2 le_rfl with ⟨he, hd⟩ | ⟨hlt, huv, hiff⟩
        · rw [if_neg (not_not.mpr he), he]
          exact ⟨⟨hd, (t.sdom_lt hsw hw0).ne⟩,
            fun _ hz hne => t.dom_of_anc hz (t.dom_anc_sdom hz hne hsw) (t.sdom_anc hsw hw0)⟩
        · rw [if_pos hlt.ne', update_self]
          have hu0 : idom v ≠ 0 := (lt_of_le_of_lt (Fin.zero_le _) hlt).ne'
          exact DfsTree.isIdom_congr hiff ((hi _ hu0).1 huv)
      · refine ⟨fun hlt => ?_, fun hlt => ?_⟩
        · rw [hne hvw]
          exact (hi v hv).1 (by omega)
        · rw [Deferred, hne hvw]
          exact (hi v hv).2 (by omega))
  exact (key v hv).1 v.isLt

theorem lengauerTarjan_spec (t : DfsTree E 0 parent) {predStart : Fin (m + 1) → ℕ}
    {preds : List (Fin m)} (hp : ∀ v w, v ∈ Csr.slice predStart preds w ↔ E v w) (hv : v ≠ 0) :
    IsIdom E 0 (lengauerTarjan parent predStart preds v) v :=
  fixIdom_loop t (stage_loop t hp) hv

end Spectra.Heap
