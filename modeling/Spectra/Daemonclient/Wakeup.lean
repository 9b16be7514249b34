import Spectra.Daemonclient.Dispatcher
import Spectra.Library.Slots

/-! Which closes of the client strand its dispatcher. -/
namespace Spectra.Daemonclient
open List Library Relation

/-- The stages in which the dispatcher holds `notifyMu`. -/
@[simp] def DispatchStage.holds : DispatchStage → Bool
  | .checking | .selecting | .parking | .unlocking | .leaving => true
  | .locking | .parked | .calling | .done => false

/-- The stages behind the loop condition, entered with an empty queue. -/
@[simp] def DispatchStage.sawEmpty : DispatchStage → Bool
  | .selecting | .parking | .leaving => true
  | .locking | .checking | .parked | .unlocking | .calling | .done => false

/-- The stages in which the dispatcher has no notification in hand. -/
@[simp] def DispatchStage.idle : DispatchStage → Bool
  | .locking | .checking | .selecting | .parking | .parked | .leaving => true
  | .unlocking | .calling | .done => false

@[simp] def QueueStage.holds : QueueStage → Bool
  | .appending | .signalling | .unlocking => true
  | .off | .closing _ => false

@[simp] def CloseOnce.closedChan : CloseOnce → Bool
  | .fresh | .closing => false
  | .hangingUp | .broadcasting | .finishing | .done => true

@[simp] def CloseOnce.running : CloseOnce → Bool
  | .fresh | .done => false
  | .closing | .hangingUp | .broadcasting | .finishing => true

/-- `notifyMu` excludes the two goroutines from each other, and what the dispatcher saw of the
queue stays true while it holds it. -/
structure Guarded (s : Synced) : Prop where
  dispatcher : s.notify.owner = some .dispatcher ↔ s.dispatcher.holds = true
  reader : s.notify.owner = some .readLoop ↔ s.reader.holds = true
  sleepers : s.notify.sleepers.Nodup
  asleep : .dispatcher ∈ s.notify.sleepers → s.dispatcher = .parked
  empty : s.dispatcher.sawEmpty = true → s.client.notifications = []
  idle : s.dispatcher.idle = true → s.client.dispatcher = .idle
  leaving : s.dispatcher = .leaving → s.client.closed = true
  closing : ∀ i, s.reader = .closing i → s.client.readLoop = .closing

theorem Guarded.dialed : Guarded .dialed where
  dispatcher := by decide
  reader := by decide
  sleepers := nodup_nil
  asleep h := absurd h not_mem_nil
  empty h := nomatch h
  idle _ := rfl
  leaving h := nomatch h
  closing _ h := nomatch h

section
variable {s : Synced} (h : Guarded s)
include h

theorem Guarded.awake (hat : s.dispatcher ≠ .parked) :
    .dispatcher ∉ s.notify.sleepers := fun hmem => hat (h.asleep hmem)

variable {s' : Synced}

theorem Guarded.dispatch (hstep : DispatchStep s s') : Guarded s' := by
  have hawake := h.awake
  obtain ⟨hd, hr, hn, ha, he, hi, hl, hc⟩ := h
  cases hstep with
  | lock hat hfree | empty hat hqueue | sawClosed hat hclosed | sawOpen hat hclosed
  | pop hat hqueue | unlock hat | call hat hrunning | leave hat => constructor <;> simp_all
  | wait hat =>
    have hn' := Monitor.nodup_sleepers_wait hn (hawake (by simp [hat]))
    constructor <;> simp_all
  | rejoin hat hwoken hfree =>
    have hn' := hn.sublist (Monitor.sleepers_rejoin_sublist s.notify .dispatcher)
    have hawake' := Monitor.not_mem_sleepers_rejoin hn hwoken
    constructor <;> simp_all

theorem Guarded.queue (hstep : ReaderStep s s') : Guarded s' := by
  obtain ⟨hd, hr, hn, ha, he, hi, hl, hc⟩ := h
  cases hstep with
  | lock hat hqueue hfree | signal hat | unlock hat | close hat hclosing | closed hat hreturned =>
    constructor <;> simp_all
  | append hat hqueue =>
    have hempty : s.dispatcher.sawEmpty = false := by
      cases hs : s.dispatcher <;> simp_all
    constructor <;> simp_all

theorem Guarded.close (hstep : CloseStep s s') : Guarded s' := by
  obtain ⟨hd, hr, hn, ha, he, hi, hl, hc⟩ := h
  cases hstep with
  | closeChan hat => exact ⟨hd, hr, hn, ha, he, hi, fun _ => rfl, hc⟩
  | broadcast hat =>
    refine ⟨hd, hr, ?_, fun hmem => ha ?_, he, hi, hl, hc⟩
    · simpa [Synced.broadcast] using hn
    · simpa [Synced.broadcast] using hmem
  | call | enter | hangUp | finish | ret => exact ⟨hd, hr, hn, ha, he, hi, hl, hc⟩

theorem Guarded.of_client {c : State} (hqueue : SameQueue s.client c)
    (hreader : c.readLoop = s.client.readLoop ∨ s.reader = .off) : Guarded { s with client := c } :=
  { h with
    empty hat := hqueue.notifications.trans (h.empty hat)
    idle hat := hqueue.dispatcher.trans (h.idle hat)
    leaving hat := hqueue.closed.trans (h.leaving hat)
    closing i hat := by
      cases hreader with
      | inl hsame => exact hsame.trans (h.closing i hat)
      | inr hoff => exact nomatch hoff.symm.trans hat }

theorem Guarded.step (hstep : SyncStep s s') : Guarded s' := by
  cases hstep with
  | dispatch hstep => exact h.dispatch hstep
  | queue hstep => exact h.queue hstep
  | close hstep => exact h.close hstep
  | call hstep hqueue hreader => exact h.of_client hqueue (.inl hreader.readLoop)
  | read hstep hqueue hoff hopen => exact h.of_client hqueue (.inr hoff)

end

variable {s : Synced}

theorem Guarded.of_reachable (h : SyncReachable s) : Guarded s := by
  induction h with
  | refl => exact .dialed
  | tail _ hstep ih => exact ih.step hstep

variable {s' : Synced}

/-- A step with the locking shown is at most one step of the client without it. -/
theorem SyncStep.refines (h : Guarded s) (hstep : SyncStep s s') :
    s'.client = s.client ∨ Step s.client s'.client ∨ Close s.client s'.client := by
  cases hstep with
  | dispatch hstep =>
    cases hstep with
    | pop hat hqueue => exact .inr (.inl (.pop (h.idle (by simp [hat])) hqueue))
    | call hat hrunning => exact .inr (.inl (.run hrunning))
    | leave hat =>
      have hidle : s.dispatcher.idle = true := by simp [hat]
      exact .inr (.inl (.dispatched (h.idle hidle) (h.empty (by simp [hat])) (h.leaving hat)))
    | lock | empty | sawClosed | sawOpen | wait | rejoin | unlock => exact .inl rfl
  | queue hstep =>
    cases hstep with
    | append hat hqueue => exact .inr (.inl (.queue hqueue))
    | closed hat hreturned => exact .inr (.inl (.hangUp (h.closing _ hat)))
    | lock | signal | unlock | close => exact .inl rfl
  | close hstep =>
    cases hstep with
    | closeChan hat => exact .inr (.inr rfl)
    | call | enter | hangUp | broadcast | finish | ret => exact .inl rfl
  | call hstep _ _ | read hstep _ _ _ => exact .inr (.inl hstep)

theorem SyncReachable.client (h : SyncReachable s) : Reachable s.client := by
  induction h with
  | refl => exact .refl
  | @tail s s' hs hstep ih =>
    cases hstep.refines (.of_reachable hs) with
    | inl hsame => exact hsame ▸ ih
    | inr hstep => exact ih.tail hstep

/-- What `closeOnce` says of the calls of `Close` and of `closed`. -/
structure Closing (s : Synced) : Prop where
  running : s.closeOnce.running = true → .running ∈ s.closers
  returned : .returned ∈ s.closers → s.closeOnce = .done
  closed : s.closeOnce.closedChan = true → s.client.closed = true

theorem Closing.dialed : Closing .dialed where
  running h := nomatch h
  returned h := absurd h not_mem_nil
  closed h := nomatch h

theorem Closing.append (h : Closing s) (reader : QueueStage) :
    Closing { s with closers := s.closers ++ [.called], reader := reader } where
  running hat := mem_append_left _ (h.running hat)
  returned hmem := h.returned (by simpa using hmem)
  closed := h.closed

theorem Closing.close (h : Closing s) (hstep : CloseStep s s') : Closing s' := by
  cases hstep with
  | call => exact h.append s.reader
  | enter hcalled hfresh =>
    refine ⟨fun _ => mem_set_of_getElem? hcalled, fun hmem => ?_, fun hat => nomatch hat⟩
    have hdone := h.returned (mem_of_mem_set hmem (by decide))
    exact nomatch hfresh.symm.trans hdone
  | closeChan hat =>
    refine ⟨fun _ => h.running (by simp [hat]), fun hmem => ?_, fun _ => rfl⟩
    exact nomatch hat.symm.trans (h.returned hmem)
  | hangUp hat | broadcast hat =>
    refine ⟨fun _ => h.running (by simp [hat]), fun hmem => ?_, fun _ => h.closed (by simp [hat])⟩
    exact nomatch hat.symm.trans (h.returned hmem)
  | finish hat => exact ⟨nofun, fun _ => rfl, fun _ => h.closed (by simp [hat])⟩
  | ret hcloser hdone =>
    refine ⟨fun hat => ?_, fun _ => hdone, h.closed⟩
    rw [hdone] at hat
    exact nomatch hat

theorem Closing.step (h : Closing s) (hstep : SyncStep s s') : Closing s' := by
  cases hstep with
  | dispatch hstep => cases hstep <;> exact ⟨h.running, h.returned, h.closed⟩
  | queue hstep =>
    cases hstep with
    | close hat hclosing => exact h.append _
    | closed hat hreturned => exact ⟨h.running, h.returned, fun _ => rfl⟩
    | lock | append | signal | unlock => exact ⟨h.running, h.returned, h.closed⟩
  | close hstep => exact h.close hstep
  | call hstep hqueue hreader | read hstep hqueue hoff hopen =>
    exact ⟨h.running, h.returned, fun hat => hqueue.closed.trans (h.closed hat)⟩

theorem Closing.of_reachable (h : SyncReachable s) : Closing s := by
  induction h with
  | refl => exact .dialed
  | tail _ hstep ih => exact ih.step hstep

/-- The dispatcher can no longer miss that the client is closed. -/
structure Warned (s : Synced) : Prop where
  closed : s.client.closed = true
  parking : s.dispatcher ≠ .parking
  waiting : .dispatcher ∉ s.notify.waiting

theorem Warned.not_stranded (h : Warned s) : ¬ s.Stranded := fun hs =>
  h.waiting hs.2.2.1.1

theorem Warned.broadcast (hclosed : s.client.closed = true) (hparking : s.dispatcher ≠ .parking) :
    Warned s.broadcast where
  closed := hclosed
  parking := hparking
  waiting := not_mem_nil

theorem Warned.step (h : Warned s) (hstep : SyncStep s s') : Warned s' := by
  obtain ⟨hclosed, hparking, hwaiting⟩ := h
  cases hstep with
  | dispatch hstep =>
    cases hstep with
    | sawOpen hat hopen => exact nomatch hopen.symm.trans hclosed
    | wait hat => exact absurd hat hparking
    | _ => exact ⟨hclosed, nofun, hwaiting⟩
  | queue hstep =>
    cases hstep with
    | signal hat =>
      exact ⟨hclosed, hparking, fun hmem => hwaiting (mem_of_mem_drop hmem)⟩
    | closed hat hreturned => exact ⟨rfl, hparking, hwaiting⟩
    | lock | append | unlock | close => exact ⟨hclosed, hparking, hwaiting⟩
  | close hstep =>
    cases hstep with
    | closeChan hat => exact ⟨rfl, hparking, hwaiting⟩
    | broadcast hat => exact .broadcast hclosed hparking
    | call | enter | hangUp | finish | ret => exact ⟨hclosed, hparking, hwaiting⟩
  | call hstep hqueue hreader | read hstep hqueue hoff hopen =>
    exact ⟨hqueue.closed.trans hclosed, hparking, hwaiting⟩

theorem Warned.steps (h : Warned s) (hsteps : ReflTransGen SyncStep s s') : Warned s' := by
  induction hsteps with
  | refl => exact h
  | tail _ hstep ih => exact ih.step hstep

@[simp] def CloseOnce.broadcasted : CloseOnce → Bool
  | .finishing | .done => true
  | .fresh | .closing | .hangingUp | .broadcasting => false

theorem SyncStep.broadcasted_cases (hstep : SyncStep s s') (hat : s'.closeOnce.broadcasted = true) :
    s.closeOnce.broadcasted = true ∨ s.closeOnce = .broadcasting ∧ s' = s.broadcast := by
  cases hstep with
  | dispatch hstep | queue hstep => cases hstep <;> exact .inl hat
  | close hstep =>
    cases hstep with
    | call | ret => exact .inl hat
    | broadcast hbroadcasting => exact .inr ⟨hbroadcasting, rfl⟩
    | finish hfinishing => exact .inl (by simp [hfinishing])
    | enter | closeChan | hangUp => exact nomatch hat
  | call | read => exact .inl hat

def ReachableHeard (s : Synced) : Prop :=
  ReflTransGen (fun s s' => SyncStep s s' ∧ HeardInTime s s') .dialed s

theorem ReachableHeard.reachable (h : ReachableHeard s) : SyncReachable s :=
  ReflTransGen.mono (fun _ _ hstep => hstep.1) _ _ h

theorem ReachableHeard.warned (h : ReachableHeard s) (hat : s.closeOnce.broadcasted = true) : Warned s := by
  induction h with
  | refl => exact nomatch hat
  | @tail s s' hs hstep ih =>
    cases hstep.1.broadcasted_cases hat with
    | inl hbefore => exact (ih hbefore).step hstep.1
    | inr hnow =>
      obtain ⟨hbroadcasting, rfl⟩ := hnow
      have hclosing := Closing.of_reachable (ReachableHeard.reachable hs)
      exact .broadcast (hclosing.closed (by simp [hbroadcasting])) (hstep.2 hbroadcasting rfl)

theorem ReachableHeard.not_stranded (h : ReachableHeard s) : ¬ s.Stranded := by
  intro hstranded
  have hdone := (Closing.of_reachable h.reachable).returned hstranded.1
  exact (h.warned (by simp [hdone])).not_stranded hstranded

/-- The dispatcher waits after the broadcast, and then the call of `Close` returns. -/
theorem Synced.stranded_of_parking (h : SyncReachable s) (hat : s.closeOnce = .broadcasting)
    (hparking : s.dispatcher = .parking) : ∃ s', ReflTransGen SyncStep s.broadcast s' ∧ s'.Stranded := by
  have hguarded := Guarded.of_reachable h
  have hrunning := (Closing.of_reachable h).running (by simp [hat])
  obtain ⟨i, hi⟩ := mem_iff_getElem?.mp hrunning
  have hawake : .dispatcher ∉ s.notify.sleepers := hguarded.awake (by simp [hparking])
  have hwoken : .dispatcher ∉ s.broadcast.notify.woken := fun hmem => hawake (by
    exact hmem)
  refine ⟨_, .head (.dispatch (.wait hparking)) (.head (.close (.finish rfl)) (.single (.close (.ret hi rfl)))), ?_⟩
  refine ⟨mem_set_of_getElem? hi, rfl, ⟨mem_append_right _ ?_, hwoken⟩, ?_⟩
  · exact .head _
  · exact hguarded.empty (by simp [hparking])

/-- A close whose broadcast is heard never strands the dispatcher, and one that broadcasts between
the dispatcher's look at `closed` and its `Wait` does so in some continuation. -/
theorem dispatcher_not_stranded (s : Synced) :
    (ReachableHeard s → ¬ s.Stranded) ∧
      (SyncReachable s → s.closeOnce = .broadcasting →
        ((∃ s', ReflTransGen SyncStep s.broadcast s' ∧ s'.Stranded) ↔ s.dispatcher = .parking)) := by
  refine ⟨fun h => h.not_stranded, fun h hat => ⟨?_, Synced.stranded_of_parking h hat⟩⟩
  intro hex
  obtain ⟨s', hsteps, hstranded⟩ := hex
  by_contra hparking
  have hclosed := (Closing.of_reachable h).closed (by simp [hat])
  exact ((Warned.broadcast hclosed hparking).steps hsteps).not_stranded hstranded

/-- The dispatcher is at its `Wait` when `Close` is about to broadcast. -/
theorem racing : ∃ s, SyncReachable s ∧ s.closeOnce = .broadcasting ∧ s.dispatcher = .parking := by
  refine ⟨_, .head (.dispatch (.lock rfl rfl)) (.head (.dispatch (.empty rfl rfl))
    (.head (.dispatch (.sawOpen rfl rfl)) (.head (.close .call)
    (.head (.close (.enter (i := 0) rfl rfl)) (.head (.close (.closeChan rfl))
    (.single (.close (.hangUp rfl)))))))), rfl, rfl⟩

theorem dispatcher_not_stranded_waiting :
    (∃ s, ReachableHeard s ∧ .returned ∈ s.closers ∧ ¬ s.Stranded) ∧
      ∃ s, SyncReachable s ∧ s.closeOnce = .broadcasting ∧
        ∃ s', ReflTransGen SyncStep s.broadcast s' ∧ s'.Stranded := by
  constructor
  · have hrun : ∃ s, ReachableHeard s ∧ .returned ∈ s.closers := by
      refine ⟨_, .head ⟨.dispatch (.lock rfl rfl), nofun⟩
        (.head ⟨.dispatch (.empty rfl rfl), nofun⟩ (.head ⟨.dispatch (.sawOpen rfl rfl), nofun⟩
        (.head ⟨.dispatch (.wait rfl), nofun⟩ (.head ⟨.close .call, nofun⟩
        (.head ⟨.close (.enter (i := 0) rfl rfl), nofun⟩ (.head ⟨.close (.closeChan rfl), nofun⟩
        (.head ⟨.close (.hangUp rfl), nofun⟩ (.head ⟨.close (.broadcast rfl), fun _ _ => nofun⟩
        (.head ⟨.close (.finish rfl), nofun⟩ (.single ⟨.close (.ret (i := 0) rfl rfl), nofun⟩)))))))))), ?_⟩
      exact .head _
    obtain ⟨s, hs, hreturned⟩ := hrun
    exact ⟨s, hs, hreturned, (dispatcher_not_stranded s).1 hs⟩
  · obtain ⟨s, hs, hat, hparking⟩ := racing
    exact ⟨s, hs, hat, ((dispatcher_not_stranded s).2 hs hat).mpr hparking⟩

/-- The client is closed between the dispatcher's look at `closed` and its `Wait`. -/
theorem close_strands_dispatcher : ∃ s, SyncReachable s ∧ s.Stranded := by
  obtain ⟨s, hs, hat, hparking⟩ := racing
  obtain ⟨s', hsteps, hstranded⟩ := Synced.stranded_of_parking hs hat hparking
  exact ⟨s', (hs.tail (.close (.broadcast hat))).trans hsteps, hstranded⟩

end Spectra.Daemonclient
