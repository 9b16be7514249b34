import Spectra.Daemon.AnswersOnce
import Mathlib.Algebra.BigOperators.Group.List.Basic
import Mathlib.Algebra.GroupWithZero.Nat

/-! The server never blocks. -/
namespace Spectra.Daemon
open List State

section
variable {env : Env} {input : List String} {s : State} {lines : List Out}

theorem lock_free_of_finished (h : Inv env input s lines) (hfin : Finished env s) : s.lock = none := by
  rw [← Option.not_isSome_iff_eq_none, Option.isSome_iff_exists]
  rintro ⟨⟨owner, line, half⟩, hlock⟩
  have hwrites := h.lock _ hlock
  cases owner with
  | reader =>
    have hreader := h.reader
    rw [show s.reader = .responding line from hwrites] at hreader
    obtain ⟨⟨n, id, body, rfl⟩, _⟩ := hreader
    cases half with
    | false => exact hfin _ (.body hlock)
    | true => exact hfin _ (.readerNewline hwrites hlock)
  | job origin =>
    obtain ⟨j, hj, rfl, hphase⟩ := hwrites
    obtain ⟨l, r, hjobs⟩ := append_of_mem hj
    obtain ⟨body, rfl⟩ := (h.jobs j hj).reply_of_responding hphase
    cases half with
    | false => exact hfin _ (.body hlock)
    | true => exact hfin _ (.jobNewline hjobs hphase hlock)
  | notifier =>
    obtain ⟨hhalf, text, hcall, hline⟩ := hwrites
    obtain ⟨l, r, hcalls⟩ := append_of_mem hcall
    subst hhalf hline
    exact hfin _ (.notified hcalls hlock)

private theorem exists_act_of_start (env : Env) {j : Job} (h : j.phase = .start) : ∃ phase, Act env j phase := by
  by_cases hstatus : j.method = methodStatus
  · exact ⟨_, .status h hstatus ""⟩
  · by_cases hshutdown : j.method = methodShutdown
    · exact ⟨_, .shutdown h hshutdown⟩
    · cases hmethod : env.registered j.method with
      | false => exact ⟨_, .unknown h hstatus hshutdown hmethod⟩
      | true => exact ⟨_, .call h hstatus hshutdown hmethod⟩

variable (h : Inv env input s lines) (hfin : Finished env s)
include h hfin

theorem jobs_nil_of_finished : s.jobs = [] := by
  rw [eq_nil_iff_forall_not_mem]
  intro j hj
  obtain ⟨l, r, hjobs⟩ := append_of_mem hj
  cases hphase : j.phase with
  | start =>
    obtain ⟨phase, hact⟩ := exists_act_of_start env hphase
    exact hfin _ (.act hjobs hact)
  | running => exact hfin _ (.act hjobs (.panics hphase))
  | responding line => exact hfin _ (.jobLock hj hphase (lock_free_of_finished h hfin))

theorem reader_idle_of_finished : s.reader = .idle := by
  cases hreader : s.reader with
  | idle => rfl
  | waiting job =>
    have hslot : s.jobs.length < maxHandlers := by
      rw [jobs_nil_of_finished h hfin]
      decide
    exact absurd (.spawn hreader hslot) (hfin _)
  | responding line =>
    exact absurd (.readerLock hreader (lock_free_of_finished h hfin)) (hfin _)

private theorem log_of_finished : s.log = messages input := by
  have hend : readMessage s.input = none := by
    cases hread : readMessage s.input with
    | none => rfl
    | some next => exact absurd (.read (reader_idle_of_finished h hfin) hread) (hfin _)
  rw [h.log, messages_of_end hend, append_nil]

private theorem count_of_finished (n : ℕ) :
    lines.countP (Out.answers n) + s.lost.count n = env.expected (messages input) n := by
  rw [← log_of_finished h hfin, ← h.count n, pending, jobs_nil_of_finished h hfin, reader_idle_of_finished h hfin]
  simp [Reader.origin?]

end

section

def Phase.weight : Phase → ℕ
  | .start => 7
  | .running => 6
  | .responding _ => 5

def Reader.weight : Reader → ℕ
  | .idle => 0
  | .waiting job => job.phase.weight + 1
  | .responding _ => 4

def Held.weight (held : Held) : ℕ := if held.half then 0 else 1

/-- A bound on the steps that are left. -/
def State.weight (s : State) : ℕ :=
  9 * s.input.length + s.reader.weight + (s.jobs.map fun j => j.phase.weight).sum +
    3 * s.notifiers.length + s.lock.elim 2 Held.weight

private theorem length_lt_of_read {input rest : List String} {line : String}
    (h : readMessage input = some (line, rest)) : rest.length < input.length := by
  induction input with
  | nil => cases h
  | cons raw input ih =>
    rw [readMessage] at h
    split at h
    · exact Nat.lt_succ_of_lt (ih h)
    · obtain ⟨rfl, rfl⟩ := Prod.mk.inj (Option.some.inj h)
      exact Nat.lt_succ_self _

private theorem weight_lt_of_act {env : Env} {j : Job} {phase : Phase} (h : Act env j phase) :
    phase.weight < j.phase.weight := by
  cases h with
  | status h | shutdown h | unknown h | call h | value h | failed h | panics h =>
    simp [h, Phase.weight]

private theorem weight_afterRead (env : Env) (origin : ℕ) (line : String) : (env.afterRead origin line).weight ≤ 8 := by
  rw [Env.afterRead]
  cases env.classify line <;> simp [Reader.weight, Phase.weight]

variable {env : Env} {s s' : State}

private theorem weight_lt_of_step (h : Step env s s') : s'.weight < s.weight := by
  cases h with
  | @read line rest hidle hread =>
    have hrest := length_lt_of_read hread
    have hnext := weight_afterRead env s.log.length line
    simp only [weight]
    omega
  | spawn hwaiting hslot =>
    simp only [weight, hwaiting, Reader.weight, map_append, map_singleton, sum_append, sum_singleton]
    omega
  | act hjobs hact =>
    have := weight_lt_of_act hact
    simp only [weight, hjobs, map_append, map_cons, sum_append, sum_cons]
    omega
  | unencodable hjobs hphase =>
    simp only [weight, hjobs, map_append, map_cons, sum_append, sum_cons, hphase, Phase.weight]
    omega
  | readerLock hreader hfree | jobLock hjob hphase hfree | notifierLock hcall hfree =>
    simp [weight, hfree, Held.weight]
  | body hlock => simp [weight, hlock, Held.weight]
  | readerNewline hreader hlock =>
    simp [weight, hreader, Reader.weight]
    omega
  | jobNewline hjobs hphase hlock =>
    simp [weight, hjobs, hphase, Phase.weight]
    omega
  | notified hcalls hlock =>
    simp [weight, hcalls]
    omega

private theorem exists_finished (env : Env) (s : State) :
    ∃ s', Relation.ReflTransGen (Step env) s s' ∧ Finished env s' := by
  induction hn : s.weight using Nat.strongRecOn generalizing s with
  | _ n ih =>
    by_cases hfin : Finished env s
    · exact ⟨s, .refl, hfin⟩
    · simp only [Finished, not_forall, not_not] at hfin
      obtain ⟨t, hstep⟩ := hfin
      obtain ⟨s', hrun, hfin⟩ := ih t.weight (hn ▸ weight_lt_of_step hstep) t rfl
      exact ⟨s', .head hstep hrun, hfin⟩

theorem finished_of_quiet (hreader : s.reader = .idle) (hinput : readMessage s.input = none)
    (hjobs : s.jobs = []) (hcalls : s.notifiers = []) (hlock : s.lock = none) : Finished env s := by
  intro s' hstep
  cases hstep with
  | read _ hread => cases hinput.symm.trans hread
  | spawn hwaiting _ => cases hreader.symm.trans hwaiting
  | act hjob _ | unencodable hjob _ | jobLock hjob _ _ | jobNewline hjob _ _ => simp [hjobs] at hjob
  | readerLock hresponding _ | readerNewline hresponding _ => cases hreader.symm.trans hresponding
  | notifierLock hcall _ | notified hcall _ => simp [hcalls] at hcall
  | body hheld => cases hlock.symm.trans hheld

end

variable {env : Env} {input : List String} {s : State}

/-- At most 32 handlers run at once, the output is whole lines and the start of at most one more,
a response line has the id of the message it answers and no message is answered twice. Left
alone the server finishes, and then exactly those requests are answered whose handler did not
return a value that JSON cannot encode. -/
theorem daemon_answers_once (h : Reachable env input s) :
    s.jobs.length ≤ maxHandlers ∧
    (∃ s', Relation.ReflTransGen (Step env) s s' ∧ Finished env s') ∧
    ∃ lines : List Out, s.out = lines.flatMap framed ++ s.unfinished ∧
      (∀ n id body, .response n id body ∈ lines →
        ∃ text, (messages input)[n]? = some text ∧ env.answerId text = some id) ∧
      (∀ n, lines.countP (Out.answers n) ≤ 1) ∧
      (Finished env s → s.unfinished = [] ∧ ∀ n text id method,
        (messages input)[n]? = some text → env.classify text = .request id method →
          (lines.countP (Out.answers n) = 1 ↔ n ∉ s.lost)) := by
  obtain ⟨lines, hinv⟩ := Inv.of_reachable h
  refine ⟨hinv.slots, exists_finished env s, lines, hinv.out, ?_, ?_, ?_⟩
  · intro n id body hline
    obtain ⟨text, hlog, hid⟩ := hinv.ids _ hline n id body rfl
    refine ⟨text, ?_, hid⟩
    rw [hinv.log, getElem?_append_left (List.getElem?_eq_some_iff.mp hlog).1, hlog]
  · intro n
    have hcount := hinv.count n
    rw [Env.expected] at hcount
    split at hcount <;> omega
  · intro hfin
    refine ⟨by rw [unfinished, lock_free_of_finished hinv hfin]; rfl, ?_⟩
    intro n text id method htext hkind
    have hcount := count_of_finished hinv hfin n
    have hdue : env.expected (messages input) n = 1 := by
      simp [Env.expected, htext, Env.answerId, hkind]
    rw [← count_eq_zero]
    omega

def oneMethod : Env := ⟨fun _ => some ⟨"2.0", some "1", "probe"⟩, fun _ => true⟩

def oneRunning : State :=
  ⟨[], ["x"], .idle, [⟨0, "1", "probe", .running⟩], true, [], none, [], [], false⟩

theorem reachable_oneRunning : Reachable oneMethod ["x"] oneRunning := by
  have hread : readMessage ["x"] = some ("x", []) := by decide +kernel
  have hcall : Act oneMethod ⟨0, "1", "probe", .start⟩ .running :=
    .call rfl (by decide) (by decide) rfl
  have hspawn : Reachable oneMethod ["x"]
      { oneRunning with jobs := [⟨0, "1", "probe", .start⟩], notify := false } :=
    .tail (.tail .refl (.inl (.read rfl hread))) (.inl (.spawn rfl (by decide)))
  exact hspawn.tail (.inl (.act (l := []) (r := []) rfl hcall))

private theorem exists_oneAnswered : ∃ s, Reachable oneMethod ["x"] s ∧ Finished oneMethod s ∧ s.lost = [] := by
  have hvalue := reachable_oneRunning.tail
    (.inl (.act (l := []) (r := []) rfl (.value rfl "7")))
  have hbody := (hvalue.tail (.inl (.jobLock (.head _) rfl rfl))).tail
    (.inl (.body rfl))
  have hline := hbody.tail (.inl (.jobNewline (l := []) (r := []) rfl rfl rfl))
  exact ⟨_, hline, finished_of_quiet rfl rfl rfl rfl rfl, rfl⟩

theorem daemon_answers_once_oneAnswered :
    ∃ s, Reachable oneMethod ["x"] s ∧ Finished oneMethod s ∧
      ∃ lines : List Out, s.out = lines.flatMap framed ++ s.unfinished ∧ lines.countP (Out.answers 0) = 1 := by
  obtain ⟨s, hreach, hfin, hlost⟩ := exists_oneAnswered
  obtain ⟨_, _, lines, hout, _, _, hanswered⟩ := daemon_answers_once hreach
  refine ⟨s, hreach, hfin, lines, hout, ?_⟩
  refine ((hanswered hfin).2 0 "x" "1" "probe" (by decide +kernel) rfl).mpr ?_
  rw [hlost]
  exact not_mem_nil

/-- A handler that returns a value JSON cannot encode leaves its request without any answer. -/
theorem unencodable_result_unanswered :
    ∃ s, Reachable oneMethod ["x"] s ∧ Finished oneMethod s ∧
      oneMethod.classify "x" = .request "1" "probe" ∧ messages ["x"] = ["x"] ∧ s.out = [] := by
  have hlost := reachable_oneRunning.tail (.inl (.unencodable (l := []) (r := []) rfl rfl))
  exact ⟨_, hlost, finished_of_quiet rfl rfl rfl rfl rfl, rfl, by decide +kernel, rfl⟩

end Spectra.Daemon
