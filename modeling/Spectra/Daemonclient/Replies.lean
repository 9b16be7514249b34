import Spectra.Daemonclient.Routing

/-! No reply and no notification is lost. -/
namespace Spectra.Daemonclient
open List State

/-- A call that saw the client closed and looks for its reply once more. -/
def Call.closing? : Call → Option Reg
  | closing reg => some reg
  | _ => none

open Call

def ReadLoop.inHand : ReadLoop → List (Option Msg)
  | handling msg => [some msg]
  | _ => []

open ReadLoop

def ReadLoop.queued : ReadLoop → List Notification
  | queueing n => [n]
  | _ => []

def Dispatcher.inHand : Dispatcher → List Notification
  | running n => [n]
  | _ => []

namespace State
variable (s : State)

def read : List (Option Msg) := s.seen ++ s.readLoop.inHand

/-- The notifications for which there was a callback, in the order of their way to it. -/
def heard : List Notification :=
  s.ran ++ s.dispatcher.inHand ++ s.notifications ++ s.readLoop.queued

def IsFrom (n : Notification) : Prop :=
  ∃ msg, s.seen[n.index]? = some (some msg) ∧ msg.method = n.method ∧ msg.params = n.params

end State

/-- What holds as long as only `readLoop` closes the client: it is closed only after `readLoop`
has ended, and a call that fails with `net.ErrClosed` was sent nothing until then. -/
structure HangUp (s : State) : Prop where
  closed : s.closed = true → s.readLoop = .done
  closing : ∀ i reg, s.at? Call.closing? i = some reg → s.closed = true
  refused : ∀ i reg, s.at? Call.result? i = some (reg, .errClosed) →
    s.readLoop = .done ∧ s.first reg = none

namespace HangUp
variable {s t : State}

theorem first_none (hinv : Inv s) {i : ℕ} {reg : Reg} (hopen : s.at? open? i = some reg)
    (hdone : s.readLoop = .done) (hempty : s.chans[reg.ch]? = some none) : s.first reg = none := by
  have hd := hinv.delivered i reg hopen
  cases hfirst : s.first reg with
  | none => rfl
  | some r =>
    rw [delivered_some_iff hfirst, hempty, hdone] at hd
    rcases hd with heq | ⟨_, heq⟩ <;> cases heq

theorem of_calls (h : HangUp s) (hclosed : t.closed = s.closed) (hloop : t.readLoop = s.readLoop)
    (hseen : t.seen = s.seen)
    (hclosing : ∀ i reg, t.at? closing? i = some reg →
      s.at? closing? i = some reg ∨ s.closed = true)
    (hresult : ∀ i reg, t.at? result? i = some (reg, .errClosed) →
      s.at? result? i = some (reg, .errClosed) ∨ s.readLoop = .done ∧ s.first reg = none) : HangUp t := by
  constructor
  · rw [hclosed, hloop]
    exact h.closed
  · intro i reg hi
    rw [hclosed]
    exact (hclosing i reg hi).elim (h.closing i reg) id
  · intro i reg hi
    have hfirst : t.first reg = s.first reg := by rw [first, first, hseen]
    rw [hloop, hfirst]
    exact (hresult i reg hi).elim (h.refused i reg) id

theorem of_loop (h : HangUp s) (hcalls : t.calls = s.calls) (hloop : s.readLoop ≠ .done)
    (hclosed : t.closed = true → s.closed = true ∨ t.readLoop = .done)
    (hmono : s.closed = true → t.closed = true) : HangUp t := by
  have hat {α : Type} (f : Call → Option α) (j : ℕ) : t.at? f j = s.at? f j := by
    rw [at?, at?, hcalls]
  constructor
  · intro hc
    rcases hclosed hc with hc | hdone
    · exact absurd (h.closed hc) hloop
    · exact hdone
  · intro i reg hi
    rw [hat] at hi
    exact hmono (h.closing i reg hi)
  · intro i reg hi
    rw [hat] at hi
    exact absurd (h.refused i reg hi).1 hloop

theorem of_set (h : HangUp s) {i : ℕ} {c c' : Call} (hclosed : t.closed = s.closed)
    (hloop : t.readLoop = s.readLoop) (hseen : t.seen = s.seen) (hcall : s.calls[i]? = some c)
    (hcalls : t.calls = s.calls.set i c') (hclosing : ∀ reg, c'.closing? = some reg → s.closed = true)
    (hresult : ∀ reg, c'.result? = some (reg, .errClosed) →
      c.result? = some (reg, .errClosed) ∨ s.readLoop = .done ∧ s.first reg = none) : HangUp t := by
  refine h.of_calls hclosed hloop hseen ?_ ?_
  · intro j reg hj
    rw [at?_set hcall hcalls] at hj
    split at hj
    · exact .inr (hclosing reg hj)
    · exact .inl hj
  · intro j reg hj
    rw [at?_set hcall hcalls] at hj
    split at hj
    · rename_i hji
      rw [hji, at?_eq hcall]
      exact hresult reg hj
    · exact .inl hj

theorem advance (h : HangUp s) (hinv : Inv s) {i : ℕ} {c c' : Call}
    (hcall : s.calls[i]? = some c) (hadvance : Advance s c c') : HangUp { s with calls := s.calls.set i c' } := by
  refine h.of_set rfl rfl rfl hcall rfl ?_ ?_
  · intro reg hreg
    cases hadvance with
    | sawClosed _ hclosed => exact hclosed
    | _ => cases hreg
  · intro reg hreg
    cases hadvance with
    | nothing reg' hempty =>
      obtain ⟨rfl, _⟩ := Prod.mk.inj (Option.some.inj hreg)
      have hdone := h.closed (h.closing i reg' (at?_eq hcall))
      exact .inr ⟨hdone, first_none hinv (at?_eq hcall) hdone hempty⟩
    | _ => cases hreg

theorem step (h : HangUp s) (hinv : Inv s) (hstep : Step s t) : HangUp t := by
  cases hstep with
  | advance hcall hadvance => exact h.advance hinv hcall hadvance
  | call =>
    refine h.of_calls rfl rfl rfl (fun j reg hj => .inl ?_) (fun j reg hj => .inl ?_) <;>
      rwa [at?_append rfl rfl] at hj
  | register hcall | receive hcall =>
    exact h.of_set rfl rfl rfl hcall rfl (fun _ hreg => nomatch hreg) (fun _ hreg => nomatch hreg)
  | leave hcall =>
    exact h.of_set rfl rfl rfl hcall rfl (fun _ hreg => nomatch hreg) (fun _ hreg => .inl hreg)
  | malformed hloop | read hloop | readFailed hloop | hear hloop | lookup hloop | queue hloop
  | send hloop => exact h.of_loop rfl (by simp [hloop]) .inl id
  | hangUp hclosing =>
    exact h.of_loop rfl (by simp [hclosing]) (fun _ => .inr rfl) (fun _ => rfl)
  | onNotification | pop | run | dispatched =>
    exact h.of_calls rfl rfl rfl (fun _ _ => .inl) (fun _ _ => .inl)

theorem dialed : HangUp .dialed where
  closed := fun hclosed => nomatch hclosed
  closing := fun _ _ hi => nomatch hi
  refused := fun _ _ hi => nomatch hi

theorem of_reachable (h : ReachableByHangUp s) : HangUp s := by
  have hboth : Inv s ∧ HangUp s := by
    induction h with
    | refl => exact ⟨.dialed, dialed⟩
    | tail _ hstep ih => exact ⟨ih.1.step hstep, ih.2.step ih.1 hstep⟩
  exact hboth.2

end HangUp

theorem isFrom_append {s t : State} {n : Notification} {m : List (Option Msg)} (h : s.IsFrom n)
    (hseen : t.seen = s.seen ++ m) : t.IsFrom n := by
  obtain ⟨msg, hmsg, hfields⟩ := h
  refine ⟨msg, ?_, hfields⟩
  rw [hseen, getElem?_append_left (List.getElem?_eq_some_iff.mp hmsg).1, hmsg]

/-- The notifications are on their way in the order in which they were read. -/
structure Heard (s : State) : Prop where
  order : (s.heard.map Notification.index).Pairwise (· < ·)
  from_seen : ∀ n ∈ s.heard, s.IsFrom n

namespace Heard
variable {s t : State}

theorem of_eq (h : Heard s) {m : List (Option Msg)} (hheard : t.heard = s.heard)
    (hseen : t.seen = s.seen ++ m) : Heard t where
  order := by
    rw [hheard]
    exact h.order
  from_seen := by
    intro n hn
    rw [hheard] at hn
    exact isFrom_append (h.from_seen n hn) hseen

theorem hear (h : Heard s) {msg : Msg} (hmsg : s.readLoop = .handling msg) : Heard (s.handled msg (s.hear msg)) := by
  have hold : s.heard = s.ran ++ s.dispatcher.inHand ++ s.notifications := by
    rw [State.heard, hmsg]
    exact append_nil _
  cases hfn : s.onNotification with
  | none =>
    refine h.of_eq (m := [some msg]) ?_ rfl
    rw [hold, State.heard]
    simp [State.handled, State.hear, hfn, queued]
  | some fn =>
    have hnew : (s.handled msg (s.hear msg)).heard =
        s.heard ++ [⟨fn, msg.method, msg.params, s.seen.length⟩] := by
      rw [hold, State.heard]
      simp [State.handled, State.hear, hfn, queued]
    constructor
    · rw [hnew, map_append, pairwise_append]
      refine ⟨h.order, pairwise_singleton _ _, ?_⟩
      intro a ha b hb
      obtain ⟨n, hn, rfl⟩ := mem_map.mp ha
      obtain ⟨msg', hmsg', _⟩ := h.from_seen n hn
      rw [mem_singleton.mp hb]
      exact (List.getElem?_eq_some_iff.mp hmsg').1
    · intro n hn
      rw [hnew] at hn
      rcases mem_append.mp hn with hn | hn
      · exact isFrom_append (m := [some msg]) (h.from_seen n hn) rfl
      · rw [mem_singleton.mp hn]
        exact ⟨msg, getElem?_concat_length, rfl, rfl⟩

theorem step (h : Heard s) (hstep : Step s t) : Heard t := by
  cases hstep with
  | hear hmsg => exact h.hear hmsg
  | lookup hmsg hmethod =>
    refine h.of_eq (m := [some _]) ?_ rfl
    unfold State.heard State.handled State.lookup
    rw [hmsg]
    split <;> rfl
  | malformed hreading => exact h.of_eq (m := [none]) rfl rfl
  | read hloop | readFailed hloop | queue hloop | hangUp hloop =>
    exact h.of_eq (by simp [State.heard, hloop, queued]) (append_nil _).symm
  | send hsend =>
    exact h.of_eq (by simp [State.heard, State.send, hsend, queued])
      (append_nil _).symm
  | pop hidle hqueue =>
    exact h.of_eq (by simp [State.heard, hidle, hqueue, Dispatcher.inHand])
      (append_nil _).symm
  | run hdispatcher | dispatched hdispatcher =>
    exact h.of_eq (by simp [State.heard, hdispatcher, Dispatcher.inHand]) (append_nil _).symm
  | call | advance | register | receive | leave | onNotification =>
    exact h.of_eq rfl (append_nil _).symm

theorem of_reachable (h : Reachable s) : Heard s := by
  induction h with
  | refl => exact ⟨List.Pairwise.nil, fun _ hn => nomatch hn⟩
  | tail _ hstep ih =>
    rcases hstep with hstep | rfl
    · exact ih.step hstep
    · exact ih.of_eq rfl (append_nil _).symm

theorem ran (h : Heard s) : (s.ran.map Notification.index).Pairwise (· < ·) ∧ ∀ n ∈ s.ran, s.IsFrom n := by
  have hheard : s.heard =
      s.ran ++ (s.dispatcher.inHand ++ s.notifications ++ s.readLoop.queued) := by
    simp [heard]
  constructor
  · have horder := h.order
    rw [hheard, map_append] at horder
    exact (pairwise_append.mp horder).1
  · intro n hn
    exact h.from_seen n (hheard ▸ mem_append_left _ hn)

end Heard

/-- In every interleaving: a call that returns a decoded reply returns the first one to its id
that was looked up after it registered, and no other call has that id; every entry of `pending`
is that of a call that has not returned, and none is left of one that has; the callbacks run in
the order of reading. If only `readLoop` closes the client, a call that returns `net.ErrClosed`
was waiting for a reply that has not been read. -/
theorem client_replies_routed {s : State} (h : Reachable s) :
    (∀ (i : ℕ) (reg : Reg) (r : Reply), s.calls[i]? = some (.returned reg (.decoded r)) →
      (s.seen.drop reg.since).findSome? (replyTo reg.id) = some r ∧
        ∀ j reg', s.at? Call.reg? j = some reg' → reg'.id = reg.id → j = i) ∧
    (∀ id ch, s.pending[id]? = some ch →
      ∃ i reg, s.at? Call.live? i = some reg ∧ reg.id = id ∧ reg.ch = ch) ∧
    (∀ (i : ℕ) (reg : Reg) (o : Outcome),
      s.calls[i]? = some (.returned reg o) → s.pending[reg.id]? = none) ∧
    (ReachableByHangUp s → ∀ (i : ℕ) (reg : Reg),
      s.calls[i]? = some (.returned reg .errClosed) →
        (s.read.drop reg.since).findSome? (replyTo reg.id) = none) ∧
    (s.ran.map Notification.index).Pairwise (· < ·) ∧ ∀ n ∈ s.ran, s.IsFrom n := by
  have hinv := Inv.of_reachable h
  have hids {i j : ℕ} {reg reg' : Reg} (hi : s.at? reg? i = some reg)
      (hj : s.at? reg? j = some reg') (hid : reg'.id = reg.id) : j = i := by
    rw [(hinv.regs i reg hi).id, (hinv.regs j reg' hj).id] at hid
    exact hinv.distinct j i reg' reg hj hi (Nat.succ.inj hid)
  refine ⟨?_, fun id ch => (hinv.pending id ch).mp, ?_, ?_, (Heard.of_reachable h).ran⟩
  · intro i reg r hcall
    exact ⟨hinv.decoded i reg r (at?_eq hcall), fun j reg' hj => hids (at?_eq hcall) hj⟩
  · intro i reg o hcall
    rw [Option.eq_none_iff_forall_ne_some]
    intro ch hpending
    obtain ⟨j, reg', hj, hid, _⟩ := (hinv.pending reg.id ch).mp hpending
    obtain rfl := hids (at?_eq hcall) (at?_reg_of_live hj) hid
    rw [at?_eq hcall] at hj
    cases hj
  · intro hhang i reg hcall
    obtain ⟨hdone, hfirst⟩ := (HangUp.of_reachable hhang).refused i reg (at?_eq hcall)
    rw [State.read, hdone]
    exact (append_nil s.seen).symm ▸ hfirst

theorem ReachableByHangUp.reachable {s : State} (h : ReachableByHangUp s) : Reachable s :=
  Relation.ReflTransGen.mono (fun _ _ hstep => Or.inl hstep) _ _ h

def oneWaiting : State :=
  ⟨1, (∅ : Std.ExtTreeMap ℕ ℕ).insert 1 0, [none], false, [.waiting ⟨1, 0, 0⟩], .reading, [], none, [], .idle, []⟩

private theorem reachable_oneWaiting : ReachableByHangUp oneWaiting := by
  have hcall : ReachableByHangUp { dialed with calls := [.begun] } := .single .call
  have hregister := (hcall.tail (.advance (i := 0) rfl (.passed rfl))).tail
    (.register (i := 0) rfl)
  exact hregister.tail (.advance (i := 0) rfl (.written _))

def yes : Msg := ⟨some 1, "", "", ⟨"true", none⟩⟩

private theorem exists_answered_hangUp : ∃ s, ReachableByHangUp s ∧
    s.calls[0]? = some (.returned ⟨1, 0, 0⟩ (.decoded yes.reply)) := by
  have hread := reachable_oneWaiting.tail (.read rfl yes)
  have hfound : lookup { oneWaiting with readLoop := .handling yes } yes =
      .sending 0 yes.reply :=
    lookup_eq_sending.mpr ⟨rfl, 1, rfl, Std.ExtTreeMap.getElem?_insert_self⟩
  have hsent := (hread.tail (.lookup rfl rfl)).tail (.send hfound)
  have hhang := (hsent.tail (.readFailed rfl)).tail (.hangUp rfl)
  have hclosing := hhang.tail (.advance (i := 0) rfl (.sawClosed _ rfl))
  have hleft := (hclosing.tail (.receive (i := 0) rfl (.inr rfl) rfl)).tail
    (.leave (i := 0) rfl)
  exact ⟨_, hleft, rfl⟩

theorem client_replies_routed_hangUp : ∃ s, Reachable s ∧
    s.calls[0]? = some (.returned ⟨1, 0, 0⟩ (.decoded yes.reply)) ∧
      s.seen.findSome? (replyTo 1) = some yes.reply ∧ s.pending[1]? = none := by
  obtain ⟨s, hreach, hcall⟩ := exists_answered_hangUp
  obtain ⟨hfirst, _, hgone, _⟩ := client_replies_routed hreach.reachable
  exact ⟨s, hreach.reachable, hcall, (hfirst 0 _ _ hcall).1, hgone 0 _ _ hcall⟩

end Spectra.Daemonclient
