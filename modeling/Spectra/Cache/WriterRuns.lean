import Spectra.Cache.AsyncWriter
import Spectra.Library.Slots

/-! No write is lost and nothing is sent on the closed queue. -/
namespace Spectra.Cache.Writer
open List Worker Library Relation

variable {s s' : Writer}

/-- A step that does not close the queue under a `Write` that is about to send. -/
def Settled (s s' : Writer) : Prop :=
  s.queueClosed = false → s'.queueClosed = true → ∀ w ∈ s.writes, w.stage ≠ .sending

def ReachableSettled (queueSize workers : ℕ) (s : Writer) : Prop :=
  ReflTransGen (fun s s' => Step s s' ∧ Settled s s') (.new queueSize workers) s

variable {n m : ℕ}

theorem ReachableSettled.reachable (h : ReachableSettled n m s) : Reachable n m s :=
  ReflTransGen.mono (fun _ _ hstep => hstep.1) _ _ h

theorem opened_cases (s : Writer) : s.opened = .putting ∨ s.opened = .sending := by
  rw [opened]
  split
  · exact .inl rfl
  · exact .inr rfl

variable {i : ℕ} {job : WriteJob} {t t' : WriteStage}

theorem map_job_set {ws : List Write} (h : ws[i]? = some ⟨job, t⟩) :
    (ws.set i ⟨job, t'⟩).map Write.job = ws.map Write.job :=
  map_set_of_eq h rfl

/-- Every job is with its call, in the queue, in a worker's hands or in the store. -/
def Kept (s : Writer) : Prop := ∀ job,
  s.issued.count job =
    s.held.count job + s.queue.count job + s.hands.count job + s.puts.count job

theorem Kept.new (n m : ℕ) : Kept (.new n m) := by
  intro job
  have hhands : (Writer.new n m).hands = [] := by
    simp [hands, Writer.new, hand]
  rw [hhands]
  rfl

theorem Kept.of_writes (h : Kept s) (hat : s.writes[i]? = some ⟨job, t⟩)
    (hheld : Write.held ⟨job, t'⟩ = Write.held ⟨job, t⟩) :
    Kept { s with writes := s.writes.set i ⟨job, t'⟩ } := by
  intro x
  have hcount := count_flatMap_set Write.held ⟨job, t'⟩ x hat
  rw [hheld] at hcount
  have hkept := h x
  simp only [issued, held, hands, map_job_set hat] at hkept ⊢
  omega

theorem Kept.act (h : Kept s) (hact : Act s s') (hlive : s'.crashed = false) : Kept s' := by
  cases hact with
  | write job =>
    intro x
    have hkept := h x
    simp only [issued, held, hands, map_append, flatMap_append, count_append,
      map_cons, map_nil, flatMap_cons, flatMap_nil, append_nil,
      Write.held] at hkept ⊢
    omega
  | loadClosed hat hclosed | full hat hopen hfull => exact h.of_writes hat rfl
  | loadOpen hat hclosed =>
    refine h.of_writes hat ?_
    cases s.opened_cases with
    | inl hopened | inr hopened => rw [hopened]; rfl
  | panic hat hclosed | closeAgain hat hclosed => exact nomatch hlive
  | @send i job hat | @put i job hat =>
    intro x
    have hqueued := count_flatMap_set Write.held ⟨job, .returned false⟩ x hat
    have hput := count_flatMap_set Write.held ⟨job, .returned true⟩ x hat
    have hkept := h x
    simp only [Write.held, issued, held, hands, map_job_set hat, count_append, count_nil]
      at hqueued hput hkept ⊢
    omega
  | @receive j job rest hat hqueue =>
    intro x
    have hcount := count_flatMap_set hand (.putting job) x hat
    have hkept := h x
    rw [hqueue, ← singleton_append, count_append] at hkept
    simp only [hand, issued, held, hands, count_nil] at hcount hkept ⊢
    omega
  | @store j job hat =>
    intro x
    have hcount := count_flatMap_set hand .receiving x hat
    have hkept := h x
    simp only [hand, issued, held, hands, count_append, count_nil]
      at hcount hkept ⊢
    omega
  | @drained j hat hqueue hclosed =>
    intro x
    have hcount := count_flatMap_set hand .done x hat
    have hkept := h x
    simp only [hand, issued, held, hands] at hcount hkept ⊢
    omega
  | close | swapFirst | swapAgain | closeQueue | wait => exact h

theorem Kept.of_reachable (h : Reachable n m s) (hlive : s.crashed = false) : Kept s := by
  induction h with
  | refl => exact .new n m
  | tail _ hstep ih => exact (ih hstep.1).act hstep.2 hlive

/-- `Close` closes the queue once: one call is about to do it from the swap of `closed` until it
is done. -/
structure Phases (s : Writer) : Prop where
  flag : s.queueClosed = true → s.closed = true
  closing : s.closes.count .closing =
    if s.closed = true ∧ s.queueClosed = false then 1 else 0

theorem Phases.of_closing (h : Phases s) (hmem : .closing ∈ s.closes) :
    s.closed = true ∧ s.queueClosed = false ∧ s.closes.count .closing = 1 := by
  have hpos := count_pos_iff.mpr hmem
  have hclosing := h.closing
  split at hclosing
  · rename_i hphase
    exact ⟨hphase.1, hphase.2, hclosing⟩
  · omega

theorem Phases.new (n m : ℕ) : Phases (.new n m) := ⟨nofun, rfl⟩

theorem Phases.act (h : Phases s) (hact : Act s s') : Phases s' := by
  obtain ⟨hflag, hclosing⟩ := h
  cases hact with
  | close => exact ⟨hflag, by simpa using hclosing⟩
  | swapFirst hat hclosed =>
    have hcount := count_set .closing .closing hat
    refine ⟨fun _ => rfl, ?_⟩
    simp_all
  | swapAgain hat hclosed =>
    have hcount := count_set .waiting .closing hat
    refine ⟨hflag, ?_⟩
    simp_all
  | closeQueue hat hopen =>
    have hcount := count_set .waiting .closing hat
    have hphase := Phases.of_closing ⟨hflag, hclosing⟩ (mem_of_getElem? hat)
    refine ⟨fun _ => hphase.1, ?_⟩
    simp_all [Writer.closeQueue]
  | wait hat hdone =>
    have hcount := count_set .returned .closing hat
    refine ⟨hflag, ?_⟩
    simp_all
  | _ => exact ⟨hflag, hclosing⟩

theorem Phases.of_reachable (h : Reachable n m s) : Phases s := by
  induction h with
  | refl => exact .new n m
  | tail _ hstep ih => exact ih.act hstep.2

/-- The queue was closed with nobody about to send or to close it again. -/
structure Sealed (s : Writer) : Prop where
  live : s.crashed = false
  closed : s.closed = true
  queueClosed : s.queueClosed = true
  closing : .closing ∉ s.closes
  sending : ∀ w ∈ s.writes, w.stage ≠ .sending

theorem Sealed.of_writes (h : Sealed s) {i : ℕ} {w : Write} (hw : w.stage ≠ .sending) :
    Sealed { s with writes := s.writes.set i w } :=
  ⟨h.live, h.closed, h.queueClosed, h.closing, forall_mem_set h.sending hw⟩

theorem Sealed.of_closes (h : Sealed s) {k : ℕ} {c : Close} (hc : c ≠ .closing) :
    Sealed { s with closes := s.closes.set k c } := by
  refine ⟨h.live, h.closed, h.queueClosed, fun hmem => ?_, h.sending⟩
  exact h.closing (mem_of_mem_set hmem hc.symm)

theorem Sealed.act (h : Sealed s) (hact : Act s s') : Sealed s' := by
  cases hact with
  | write job =>
    refine ⟨h.live, h.closed, h.queueClosed, h.closing, fun w hw => ?_⟩
    cases mem_append.mp hw with
    | inl hmem => exact h.sending w hmem
    | inr hnew => simp [mem_singleton.mp hnew]
  | loadClosed hat hclosed => exact h.of_writes nofun
  | loadOpen hat hclosed | swapFirst hat hclosed => exact nomatch hclosed.symm.trans h.closed
  | send hat hopen hroom | full hat hopen hfull | panic hat hclosed =>
    exact absurd rfl (h.sending _ (mem_of_getElem? hat))
  | put hat =>
    exact ⟨h.live, h.closed, h.queueClosed, h.closing, forall_mem_set h.sending nofun⟩
  | receive | store | drained => exact ⟨h.live, h.closed, h.queueClosed, h.closing, h.sending⟩
  | close =>
    refine ⟨h.live, h.closed, h.queueClosed, fun hmem => ?_, h.sending⟩
    exact h.closing (by simpa using hmem)
  | swapAgain hat hclosed | wait hat hdone => exact h.of_closes nofun
  | closeQueue hat hopen | closeAgain hat hclosed =>
    exact absurd (mem_of_getElem? hat) h.closing

theorem Sealed.steps (h : Sealed s) (hsteps : ReflTransGen Step s s') : Sealed s' := by
  induction hsteps with
  | refl => exact h
  | tail _ hstep ih => exact ih.act hstep.2

theorem Phases.sealed (h : Phases s) (hlive : s.crashed = false) {k : ℕ}
    (hat : s.closes[k]? = some .closing) (hsending : ∀ w ∈ s.writes, w.stage ≠ .sending) : Sealed (s.closeQueue k) := by
  obtain ⟨hclosed, -, hone⟩ := h.of_closing (mem_of_getElem? hat)
  have hcount := count_set .waiting .closing hat
  refine ⟨hlive, hclosed, rfl, fun hmem => ?_, hsending⟩
  have hpos : 0 < (s.closes.set k .waiting).count .closing := count_pos_iff.mpr hmem
  simp at hcount
  omega

theorem Act.queueClosed_cases (hact : Act s s') (hclosed : s'.queueClosed = true) :
    s.queueClosed = true ∨ s.queueClosed = false ∧ ∃ k : ℕ, s.closes[k]? = some .closing ∧ s' = s.closeQueue k := by
  cases hact with
  | closeQueue hat hopen => exact .inr ⟨hopen, _, hat, rfl⟩
  | _ => exact .inl hclosed

theorem ReachableSettled.sealed (h : ReachableSettled n m s) (hclosed : s.queueClosed = true) : Sealed s := by
  induction h with
  | refl => exact nomatch hclosed
  | @tail s s' hs hstep ih =>
    cases hstep.1.2.queueClosed_cases hclosed with
    | inl hbefore => exact (ih hbefore).act hstep.1.2
    | inr hnow =>
      obtain ⟨hopen, k, hat, rfl⟩ := hnow
      have hphases := Phases.of_reachable (ReachableSettled.reachable hs)
      exact hphases.sealed hstep.1.1 hat (hstep.2 hopen rfl)

theorem Act.live (hact : Act s s') (hlive : s.crashed = false) (hopen : s.queueClosed = false) :
    s'.crashed = false := by
  cases hact with
  | panic hat hclosed | closeAgain hat hclosed => exact nomatch hopen.symm.trans hclosed
  | _ => exact hlive

theorem ReachableSettled.live (h : ReachableSettled n m s) : s.crashed = false := by
  cases h with
  | refl => rfl
  | @tail s s' hs hstep =>
    cases hclosed : s.queueClosed with
    | false => exact hstep.1.2.live hstep.1.1 hclosed
    | true => exact ((ReachableSettled.sealed hs hclosed).act hstep.1.2).live

/-- The workers end after the closed queue is empty, and `Close` returns after the workers. -/
structure Drained (s : Writer) (workers : ℕ) : Prop where
  length : s.workers.length = workers
  done : .done ∈ s.workers → s.queueClosed = true ∧ s.queue = []
  returned : .returned ∈ s.closes → ∀ w ∈ s.workers, w = .done

theorem Drained.new (n m : ℕ) : Drained (.new n m) m where
  length := length_replicate
  done h := nomatch eq_of_mem_replicate h
  returned h := absurd h not_mem_nil

theorem Drained.act (h : Drained s m) (hact : Act s s') : Drained s' m := by
  have hout {j : ℕ} {w : Worker} (hat : s.workers[j]? = some w) (hw : w ≠ .done) : .returned ∉ s.closes :=
    fun hmem => hw (h.returned hmem w (mem_of_getElem? hat))
  obtain ⟨hlength, hdone, hreturned⟩ := h
  cases hact with
  | send hat hopen hroom =>
    refine ⟨hlength, fun hmem => ?_, hreturned⟩
    exact nomatch hopen.symm.trans (hdone hmem).1
  | receive hat hqueue =>
    refine ⟨by simpa using hlength, fun hmem => ?_, fun hmem => absurd hmem (hout hat nofun)⟩
    have hempty := (hdone (mem_of_mem_set hmem nofun)).2
    exact nomatch hqueue.symm.trans hempty
  | store hat =>
    refine ⟨by simpa using hlength, fun hmem => hdone (mem_of_mem_set hmem nofun), fun hmem => ?_⟩
    exact absurd hmem (hout hat nofun)
  | drained hat hqueue hclosed =>
    refine ⟨by simpa using hlength, fun _ => ⟨hclosed, hqueue⟩, fun hmem => ?_⟩
    exact absurd hmem (hout hat nofun)
  | close => exact ⟨hlength, hdone, fun hmem => hreturned (by simpa using hmem)⟩
  | swapFirst hat hclosed | swapAgain hat hclosed =>
    exact ⟨hlength, hdone, fun hmem => hreturned (mem_of_mem_set hmem nofun)⟩
  | closeQueue hat hopen =>
    refine ⟨hlength, fun hmem => ?_, fun hmem => hreturned (mem_of_mem_set hmem nofun)⟩
    exact ⟨rfl, (hdone hmem).2⟩
  | wait hat hall => exact ⟨hlength, hdone, fun _ => hall⟩
  | write | loadClosed | loadOpen | full | panic | put | closeAgain =>
    exact ⟨hlength, hdone, hreturned⟩

theorem Drained.of_reachable (h : Reachable n m s) : Drained s m := by
  induction h with
  | refl => exact .new n m
  | tail _ hstep ih => exact ih.act hstep.2

theorem queue_length_le (h : Reachable n m s) : s.queue.length ≤ n ∧ s.cap = n := by
  induction h with
  | refl => exact ⟨Nat.zero_le n, rfl⟩
  | tail _ hstep ih =>
    cases hstep.2 with
    | send hat hopen hroom => exact ⟨by simp; omega, ih.2⟩
    | receive hat hqueue =>
      rw [hqueue] at ih
      exact ⟨Nat.le_of_succ_le ih.1, ih.2⟩
    | _ => exact ih

theorem Finished.empty (hs : Reachable n m s) (hm : n = 0 ∨ 1 ≤ m) (h : s.Finished) :
    s.held = [] ∧ s.hands = [] ∧ s.queue = [] := by
  have hdrained := Drained.of_reachable hs
  have hall := hdrained.returned h.2
  refine ⟨flatMap_eq_nil_iff.mpr fun w hw => ?_, flatMap_eq_nil_iff.mpr fun w hw => ?_, ?_⟩
  · obtain ⟨b, hstage⟩ := h.1 w hw
    simp [Write.held, hstage]
  · rw [hall w hw]
    rfl
  · cases hm with
    | inl hzero =>
      have hlength := (queue_length_le hs).1
      exact eq_nil_of_length_eq_zero (by omega)
    | inr hm =>
      have hworker : s.workers ≠ [] := by
        rw [← length_pos_iff, hdrained.length]
        exact hm
      obtain ⟨w, hw⟩ := exists_mem_of_ne_nil _ hworker
      exact (hdrained.done (hall w hw ▸ hw)).2

theorem Finished.perm (hs : Reachable n m s) (hm : 1 ≤ m) (hlive : s.crashed = false)
    (h : s.Finished) : s.puts.Perm s.issued := by
  obtain ⟨hheld, hhands, hqueue⟩ := h.empty hs (.inr hm)
  rw [perm_iff_count]
  intro job
  have hkept := Kept.of_reachable hs hlive job
  simp only [hheld, hhands, hqueue, count_nil] at hkept
  omega

/-- Writes are neither lost nor doubled and nothing panics in every run in which the queue is not
closed between a `Write`'s look at `closed` and its send. Where it is, the send that follows
panics. -/
theorem writes_put_once (queueSize workers : ℕ) (hworkers : 1 ≤ workers) :
    (∀ s, ReachableSettled queueSize workers s →
        s.crashed = false ∧ (s.Finished → s.puts.Perm s.issued)) ∧
      ∀ s k, Reachable queueSize workers s → s.crashed = false →
        s.closes[k]? = some .closing →
          ((∃ s', ReflTransGen Step (s.closeQueue k) s' ∧ s'.crashed = true) ↔ ∃ w ∈ s.writes, w.stage = .sending) := by
  refine ⟨fun s hs => ⟨hs.live, Finished.perm hs.reachable hworkers hs.live⟩, ?_⟩
  intro s k hs hlive hat
  refine ⟨fun hex => ?_, fun hex => ?_⟩
  · obtain ⟨s', hsteps, hcrashed⟩ := hex
    by_contra hnone
    have hsending : ∀ w ∈ s.writes, w.stage ≠ .sending := fun w hw hstage =>
      hnone ⟨w, hw, hstage⟩
    have hsealed := ((Phases.of_reachable hs).sealed hlive hat hsending).steps hsteps
    exact nomatch hsealed.live.symm.trans hcrashed
  · obtain ⟨w, hw, hstage⟩ := hex
    obtain ⟨job, stage⟩ := w
    obtain ⟨i, hi⟩ := mem_iff_getElem?.mp hw
    cases hstage
    exact ⟨_, .single ⟨hlive, .panic hi rfl⟩, rfl⟩

def note : WriteJob := ⟨[7], [1, 2]⟩

/-- `Write` has looked at `closed`, and now `Close` is about to close the queue. -/
theorem racing : ∃ s, Reachable 1 1 s ∧ s.crashed = false ∧
    s.closes[0]? = some .closing ∧ ∃ w ∈ s.writes, w.stage = .sending := by
  refine ⟨_, .head ⟨rfl, .write note⟩ (.head ⟨rfl, .loadOpen (i := 0) rfl rfl⟩
    (.head ⟨rfl, .close⟩ (.single ⟨rfl, .swapFirst (k := 0) rfl rfl⟩))), rfl, rfl, ?_⟩
  exact ⟨_, mem_singleton_self _, rfl⟩

theorem writes_put_once_note :
    (∃ s, ReachableSettled 1 1 s ∧ s.Finished ∧ s.issued = [note] ∧ s.puts.Perm s.issued) ∧
      ∃ s, Reachable 1 1 s ∧ s.closes[0]? = some .closing ∧
        ∃ s', ReflTransGen Step (s.closeQueue 0) s' ∧ s'.crashed = true := by
  constructor
  · have hrun : ∃ s, ReachableSettled 1 1 s ∧ s.Finished ∧ s.issued = [note] := by
      refine ⟨_, .head ⟨⟨rfl, .write note⟩, nofun⟩
        (.head ⟨⟨rfl, .loadOpen (i := 0) rfl rfl⟩, nofun⟩
        (.head ⟨⟨rfl, .send (i := 0) rfl rfl (Nat.zero_lt_one)⟩, nofun⟩
        (.head ⟨⟨rfl, .receive (j := 0) rfl rfl⟩, nofun⟩
        (.head ⟨⟨rfl, .store (j := 0) rfl⟩, nofun⟩ (.head ⟨⟨rfl, .close⟩, nofun⟩
        (.head ⟨⟨rfl, .swapFirst (k := 0) rfl rfl⟩, nofun⟩
        (.head ⟨⟨rfl, .closeQueue (k := 0) rfl rfl⟩, fun _ _ => by decide⟩
        (.head ⟨⟨rfl, .drained (j := 0) rfl rfl rfl⟩, nofun⟩
        (.single ⟨⟨rfl, .wait (k := 0) rfl (by decide)⟩, nofun⟩))))))))), ⟨?_, ?_⟩, rfl⟩
      · intro w hw
        exact ⟨false, congrArg Write.stage (mem_singleton.mp hw)⟩
      · exact .head _
    obtain ⟨s, hs, hfinished, hissued⟩ := hrun
    have hput := ((writes_put_once 1 1 (Nat.le_refl 1)).1 s hs).2 hfinished
    exact ⟨s, hs, hfinished, hissued, hput⟩
  · obtain ⟨s, hs, hlive, hat, hsending⟩ := racing
    exact ⟨s, hs, hat, ((writes_put_once 1 1 (Nat.le_refl 1)).2 s 0 hs hlive hat).mpr hsending⟩

/-- `Close` runs between a `Write`'s look at `closed` and its send. -/
theorem write_panics_on_closed_queue : ∃ s, Reachable 1 1 s ∧ s.crashed = true := by
  refine ⟨_, .head ⟨rfl, .write note⟩ (.head ⟨rfl, .loadOpen (i := 0) rfl rfl⟩
    (.head ⟨rfl, .close⟩ (.head ⟨rfl, .swapFirst (k := 0) rfl rfl⟩
    (.head ⟨rfl, .closeQueue (k := 0) rfl rfl⟩ (.single ⟨rfl, .panic (i := 0) rfl rfl⟩))))), rfl⟩

end Spectra.Cache.Writer
