import Spectra.Daemon.ServeConn
import Mathlib.Data.List.Count

/-! Every message is answered by its own response line. -/
namespace Spectra.Daemon
open List

/-- The messages of the input: its lines without their ends, blank ones skipped. -/
def messages (input : List String) : List String := (input.map trimLine).filter fun t => t ≠ ""

private theorem messages_of_read {input rest : List String} {line : String}
    (h : readMessage input = some (line, rest)) : messages input = line :: messages rest := by
  induction input with
  | nil => cases h
  | cons raw input ih =>
    rw [readMessage] at h
    unfold messages
    rw [map_cons]
    split at h
    · rename_i hblank
      rw [filter_cons_of_neg (by simp [hblank])]
      exact ih h
    · rename_i htext
      obtain ⟨rfl, rfl⟩ := Prod.mk.inj (Option.some.inj h)
      rw [filter_cons_of_pos (by simp [htext])]

theorem messages_of_end {input : List String} (h : readMessage input = none) : messages input = [] := by
  induction input with
  | nil => rfl
  | cons raw input ih =>
    rw [readMessage] at h
    rw [messages, map_cons]
    split at h
    · rename_i hblank
      rw [filter_cons_of_neg (by simp [hblank])]
      exact ih h
    · cases h

def Env.answerId (env : Env) (line : String) : Option String :=
  match env.classify line with
  | .parseError => some "null"
  | .invalid id => some (id.getD "null")
  | .notification => none
  | .request id _ => some id

open Env

def Out.answers (n : ℕ) : Out → Bool
  | .response origin _ _ => origin = n
  | .notification _ => false

def framed (line : Out) : List Chunk := [.text line, .newline]

def Held.unfinished (held : Held) : List Chunk := if held.half then [.text held.line] else []

def State.unfinished (s : State) : List Chunk := s.lock.elim [] Held.unfinished

open State

def Reader.origin? : Reader → Option ℕ
  | .idle => none
  | .waiting job => some job.origin
  | .responding (.response origin _ _) => some origin
  | .responding (.notification _) => none

open Reader

def State.pending (s : State) (n : ℕ) : ℕ :=
  (if s.reader.origin? = some n then 1 else 0) + s.jobs.countP fun j => j.origin = n

def Env.expected (env : Env) (log : List String) (n : ℕ) : ℕ :=
  if (log[n]?.bind env.answerId).isSome then 1 else 0

def PhaseOk (j : Job) : Phase → Prop
  | .start => True
  | .running => True
  | .responding line => ∃ body, line = j.reply body

/-- A job belongs to a request that was read, and a response of it is to that request. -/
structure JobOk (env : Env) (log : List String) (j : Job) : Prop where
  request : ∃ line, log[j.origin]? = some line ∧ env.classify line = .request j.id j.method
  phase : PhaseOk j j.phase

def Answers (env : Env) (log : List String) (line : Out) : Prop :=
  ∀ n id body, line = .response n id body →
    ∃ text, log[n]? = some text ∧ env.answerId text = some id

def ReaderOk (env : Env) (log : List String) : Reader → Prop
  | .idle => True
  | .waiting job => JobOk env log job
  | .responding line => (∃ n id body, line = .response n id body) ∧ Answers env log line

/-- The owner of the lock is about to write the line. A notification is written in one piece. -/
def Writes (s : State) (line : Out) (half : Bool) : Owner → Prop
  | .reader => s.reader = .responding line
  | .job origin => ∃ j ∈ s.jobs, j.origin = origin ∧ j.phase = .responding line
  | .notifier => half = false ∧ ∃ text ∈ s.notifiers, line = .notification text

/-- The lock is held by someone who is about to write. -/
def LockOk (s : State) : Prop := ∀ held ∈ s.lock, Writes s held.line held.half held.owner

/-- The output is the complete lines and what the lock holder has written of the next. -/
structure Inv (env : Env) (input : List String) (s : State) (lines : List Out) : Prop where
  slots : s.jobs.length ≤ maxHandlers
  log : messages input = s.log ++ messages s.input
  jobs : ∀ j ∈ s.jobs, JobOk env s.log j
  reader : ReaderOk env s.log s.reader
  lock : LockOk s
  out : s.out = lines.flatMap framed ++ s.unfinished
  ids : ∀ line ∈ lines, Answers env s.log line
  count : ∀ n, lines.countP (Out.answers n) + s.pending n + s.lost.count n = env.expected s.log n

section
variable {env : Env} {log : List String} {line : String}

theorem getElem?_append_of_some {n : ℕ} {text : String} (h : log[n]? = some text) :
    (log ++ [line])[n]? = some text := by
  rw [getElem?_append_left (List.getElem?_eq_some_iff.mp h).1, h]

theorem JobOk.mono {j : Job} (h : JobOk env log j) : JobOk env (log ++ [line]) j := by
  obtain ⟨text, hlog, hkind⟩ := h.request
  exact ⟨⟨text, getElem?_append_of_some hlog, hkind⟩, h.phase⟩

theorem Answers.mono {l : Out} (h : Answers env log l) : Answers env (log ++ [line]) l := by
  intro n id body heq
  obtain ⟨text, hlog, hid⟩ := h n id body heq
  exact ⟨text, getElem?_append_of_some hlog, hid⟩

private theorem expected_append (n : ℕ) : env.expected (log ++ [line]) n =
    env.expected log n + if n = log.length ∧ (env.answerId line).isSome then 1 else 0 := by
  unfold expected
  rcases Nat.lt_trichotomy n log.length with hlt | rfl | hgt
  · rw [getElem?_append_left hlt]
    simp [Nat.ne_of_lt hlt]
  · simp
  · rw [getElem?_eq_none (by simp; omega), getElem?_eq_none (by omega)]
    simp [Nat.ne_of_gt hgt]

theorem JobOk.answers {j : Job} (h : JobOk env log j) (body : Body) : Answers env log (j.reply body) := by
  intro n id body' heq
  obtain ⟨text, hlog, hkind⟩ := h.request
  injection heq with hn hid
  subst hn hid
  exact ⟨text, hlog, by simp [answerId, hkind]⟩

theorem JobOk.reply_of_responding {j : Job} {out : Out} (h : JobOk env log j)
    (hphase : j.phase = .responding out) : ∃ body, out = j.reply body := by
  have hok := h.phase
  rwa [hphase] at hok

private theorem origin?_afterRead (origin : ℕ) : (env.afterRead origin line).origin? =
    if (env.answerId line).isSome then some origin else none := by
  unfold afterRead answerId
  cases env.classify line <;> rfl

private theorem readerOk_afterRead : ReaderOk env (log ++ [line]) (env.afterRead log.length line) := by
  have hself : (log ++ [line])[log.length]? = some line := by simp
  have hanswers {id : String} (hid : env.answerId line = some id) (body : Body) :
      Answers env (log ++ [line]) (.response log.length id body) := by
    intro n id' body' heq
    injection heq with hn hid'
    subst hn hid'
    exact ⟨line, hself, hid⟩
  cases hkind : env.classify line with
  | parseError | invalid id =>
    simp only [afterRead, hkind]
    exact ⟨⟨_, _, _, rfl⟩, hanswers (by simp [answerId, hkind]) _⟩
  | notification =>
    simp only [afterRead, hkind]
    trivial
  | request id method =>
    simp only [afterRead, hkind]
    exact ⟨⟨line, hself, hkind⟩, trivial⟩

end

variable {env : Env} {j : Job} {phase : Phase}

private theorem phaseOk_act (h : Act env j phase) : PhaseOk { j with phase := phase } phase := by
  cases h with
  | call => trivial
  | status | shutdown | unknown | value | failed | panics => exact ⟨_, rfl⟩

private theorem phase_ne_of_act (h : Act env j phase) (line : Out) : j.phase ≠ .responding line := by
  have hphase : j.phase = .start ∨ j.phase = .running := by
    cases h with
    | status h | shutdown h | unknown h | call h => exact .inl h
    | value h | failed h | panics h => exact .inr h
  rcases hphase with h | h <;> simp [h]

variable {env : Env} {input : List String} {s : State} {lines : List Out}

theorem lockOk_of_jobs (h : LockOk s) {l r jobs : List Job} {j : Job} (hjobs : s.jobs = l ++ j :: r)
    (hj : ∀ line, j.phase ≠ .responding line) (hsub : ∀ i ∈ l ++ r, i ∈ jobs) (notify : Bool)
    (lost : List ℕ) : LockOk { s with jobs := jobs, notify := notify, lost := lost } := by
  rintro ⟨owner, line, half⟩ hheld
  have hwrites := h _ hheld
  cases owner with
  | reader | notifier => exact hwrites
  | job origin =>
    obtain ⟨i, hi, horigin, hphase⟩ := hwrites
    refine ⟨i, hsub i ?_, horigin, hphase⟩
    have hne : i ≠ j := fun heq => hj line (heq ▸ hphase)
    rw [hjobs] at hi
    simpa [hne] using hi

namespace Inv

section
variable (h : Inv env input s lines)
include h

theorem read (hidle : s.reader = .idle) {line : String} {rest : List String}
    (hread : readMessage s.input = some (line, rest)) :
    Inv env input { s with
      input := rest, log := s.log ++ [line], reader := env.afterRead s.log.length line } lines where
  slots := h.slots
  log := by
    rw [h.log, messages_of_read hread, append_cons]
  jobs := fun j hj => (h.jobs j hj).mono
  reader := readerOk_afterRead
  lock := by
    rintro ⟨owner, line, half⟩ hheld
    have hwrites := h.lock _ hheld
    cases owner with
    | reader => cases hidle.symm.trans hwrites
    | job origin | notifier => exact hwrites
  out := h.out
  ids := fun l hl => (h.ids l hl).mono
  count := by
    intro n
    have hcount := h.count n
    rw [pending, hidle] at hcount
    rw [expected_append, ← hcount, pending, origin?_afterRead]
    by_cases hn : n = s.log.length
    · subst hn
      by_cases hid : (env.answerId line).isSome
      · simp [hid, origin?]
        omega
      · simp [hid, origin?]
    · have hn' : s.log.length ≠ n := fun heq => hn heq.symm
      by_cases hid : (env.answerId line).isSome <;> simp [hn, hn', origin?]

theorem spawn {job : Job} (hwaiting : s.reader = .waiting job) (hslot : s.jobs.length < maxHandlers) :
    Inv env input { s with jobs := s.jobs ++ [job], reader := .idle } lines where
  slots := by
    rw [length_append]
    exact hslot
  log := h.log
  jobs := by
    intro j hj
    rcases mem_append.mp hj with hj | hj
    · exact h.jobs j hj
    · have hjob := h.reader
      rw [hwaiting] at hjob
      rwa [mem_singleton.mp hj]
  reader := trivial
  lock := by
    rintro ⟨owner, line, half⟩ hheld
    have hwrites := h.lock _ hheld
    cases owner with
    | reader => cases hwaiting.symm.trans hwrites
    | notifier => exact hwrites
    | job origin =>
      obtain ⟨j, hj, howns⟩ := hwrites
      exact ⟨j, mem_append_left _ hj, howns⟩
  out := h.out
  ids := h.ids
  count := by
    intro n
    have hcount := h.count n
    rw [pending, hwaiting] at hcount
    rw [← hcount, pending]
    simp [origin?]
    omega

variable {l r : List Job} {j : Job}

theorem act {phase : Phase} (hjobs : s.jobs = l ++ j :: r) (hact : Act env j phase) :
    Inv env input { s with
      jobs := l ++ { j with phase := phase } :: r, notify := s.notify || phase.isRunning }
      lines where
  slots := by
    have := h.slots
    rw [hjobs] at this
    simpa using this
  log := h.log
  jobs := by
    intro i hi
    have hold (i : Job) (hi : i ∈ l ++ j :: r) := h.jobs i (hjobs ▸ hi)
    rcases mem_append.mp hi with hi | hi
    · exact hold i (mem_append_left _ hi)
    · rcases mem_cons.mp hi with rfl | hi
      · exact ⟨(hold j (by simp)).request, phaseOk_act hact⟩
      · exact hold i (by simp [hi])
  reader := h.reader
  lock := lockOk_of_jobs h.lock hjobs (phase_ne_of_act hact) (by simp; grind) _ s.lost
  out := h.out
  ids := h.ids
  count := by
    intro n
    rw [← h.count n, pending, pending, hjobs]
    simp [countP_cons]

theorem jobs_of_end (hjobs : s.jobs = l ++ j :: r) :
    (l ++ r).length ≤ maxHandlers ∧ ∀ i ∈ l ++ r, JobOk env s.log i := by
  have hsub : (l ++ r).Sublist s.jobs := by
    rw [hjobs]
    exact (sublist_cons_self j r).append_left l
  exact ⟨Nat.le_trans hsub.length_le h.slots, fun i hi => h.jobs i (hsub.subset hi)⟩

variable {line : Out}

theorem ids_append (hline : Answers env s.log line) : ∀ l ∈ lines ++ [line], Answers env s.log l := by
  intro l hl
  rcases mem_append.mp hl with hl | hl
  · exact h.ids l hl
  · rwa [mem_singleton.mp hl]

theorem unencodable (hjobs : s.jobs = l ++ j :: r) (hphase : j.phase = .running) :
    Inv env input { s with jobs := l ++ r, lost := j.origin :: s.lost } lines :=
  { h with
    slots := (h.jobs_of_end hjobs).1
    jobs := (h.jobs_of_end hjobs).2
    lock := lockOk_of_jobs h.lock hjobs (fun line => by simp [hphase])
      (fun _ hi => hi) s.notify _
    count := by
      intro n
      rw [← h.count n, pending, pending, hjobs]
      simp [countP_cons, count_cons]
      omega }

theorem locked (hfree : s.lock = none) {held : Held} (hhalf : held.half = false)
    (hwrites : Writes { s with lock := some held } held.line held.half held.owner) :
    Inv env input { s with lock := some held } lines :=
  { h with
    lock := fun _ heq => Option.some.inj heq ▸ hwrites
    out := by
      have hout := h.out
      rw [unfinished, hfree] at hout
      simpa [unfinished, Held.unfinished, hhalf] using hout }

theorem body {owner : Owner} {origin : ℕ} {id : String} {b : Body}
    (hlock : s.lock = some ⟨owner, .response origin id b, false⟩) :
    Inv env input { s with
      lock := some ⟨owner, .response origin id b, true⟩
      out := s.out ++ [.text (.response origin id b)] } lines :=
  { h with
    lock := by
      intro held hheld
      cases hheld
      have hwrites := h.lock _ hlock
      cases owner with
      | reader | job origin => exact hwrites
      | notifier =>
        obtain ⟨_, text, _, hline⟩ := hwrites
        cases hline
    out := by
      have hout := h.out
      rw [unfinished, hlock] at hout
      simp [unfinished, Held.unfinished, hout] }

theorem out_newline {owner : Owner} (hlock : s.lock = some ⟨owner, line, true⟩) :
    s.out ++ [.newline] = (lines ++ [line]).flatMap framed := by
  have hout := h.out
  rw [unfinished, hlock] at hout
  simp [hout, Held.unfinished, framed]

theorem readerNewline (hreader : s.reader = .responding line) (hlock : s.lock = some ⟨.reader, line, true⟩) :
    Inv env input { s with lock := none, out := s.out ++ [.newline], reader := .idle }
      (lines ++ [line]) where
  slots := h.slots
  log := h.log
  jobs := h.jobs
  reader := trivial
  lock := fun held hheld => nomatch hheld
  out := by
    rw [h.out_newline hlock]
    exact (append_nil _).symm
  ids := by
    have hok := h.reader
    rw [hreader] at hok
    exact h.ids_append hok.2
  count := by
    have hok := h.reader
    rw [hreader] at hok
    obtain ⟨⟨origin, id, b, rfl⟩, _⟩ := hok
    intro n
    rw [← h.count n, pending, pending, hreader]
    simp [origin?, Out.answers]
    omega

theorem jobNewline (hjobs : s.jobs = l ++ j :: r) (hphase : j.phase = .responding line)
    (hlock : s.lock = some ⟨.job j.origin, line, true⟩) (stop : Bool) :
    Inv env input { s with
      lock := none, out := s.out ++ [.newline], jobs := l ++ r, stop := stop }
      (lines ++ [line]) where
  slots := (h.jobs_of_end hjobs).1
  log := h.log
  jobs := (h.jobs_of_end hjobs).2
  reader := h.reader
  lock := fun held hheld => nomatch hheld
  out := by
    rw [h.out_newline hlock]
    exact (append_nil _).symm
  ids := by
    obtain ⟨b, rfl⟩ := (h.jobs j (by simp [hjobs])).reply_of_responding hphase
    exact h.ids_append ((h.jobs j (by simp [hjobs])).answers b)
  count := by
    obtain ⟨b, rfl⟩ := (h.jobs j (by simp [hjobs])).reply_of_responding hphase
    intro n
    rw [← h.count n, pending, pending, hjobs]
    simp [Job.reply, Out.answers, countP_cons]
    omega

theorem notified {text : String} (hlock : s.lock = some ⟨.notifier, .notification text, false⟩) (calls : List String) :
    Inv env input { s with
      lock := none, out := s.out ++ [.text (.notification text), .newline], notifiers := calls }
      (lines ++ [.notification text]) :=
  { h with
    lock := fun held hheld => nomatch hheld
    out := by
      have hout := h.out
      rw [unfinished, hlock] at hout
      simp [unfinished, hout, Held.unfinished, framed]
    ids := h.ids_append fun _ _ _ heq => nomatch heq
    count := by
      intro n
      rw [← h.count n]
      simp [pending, Out.answers] }

theorem notify (text : String) : Inv env input { s with notifiers := s.notifiers ++ [text] } lines :=
  { h with
    lock := by
      rintro ⟨owner, line, half⟩ hheld
      have hwrites := h.lock _ hheld
      cases owner with
      | reader | job origin => exact hwrites
      | notifier =>
        obtain ⟨hhalf, text, hcall, hline⟩ := hwrites
        exact ⟨hhalf, text, mem_append_left _ hcall, hline⟩ }

theorem step {s' : State} (hstep : Step env s s') : ∃ lines', Inv env input s' lines' := by
  cases hstep with
  | read hidle hread => exact ⟨_, h.read hidle hread⟩
  | spawn hwaiting hslot => exact ⟨_, h.spawn hwaiting hslot⟩
  | act hjobs hact => exact ⟨_, h.act hjobs hact⟩
  | unencodable hjobs hphase => exact ⟨_, h.unencodable hjobs hphase⟩
  | readerLock hreader hfree => exact ⟨_, h.locked hfree rfl hreader⟩
  | jobLock hjob hphase hfree => exact ⟨_, h.locked hfree rfl ⟨_, hjob, rfl, hphase⟩⟩
  | notifierLock hcall hfree => exact ⟨_, h.locked hfree rfl ⟨rfl, _, hcall, rfl⟩⟩
  | body hlock => exact ⟨_, h.body hlock⟩
  | readerNewline hreader hlock => exact ⟨_, h.readerNewline hreader hlock⟩
  | jobNewline hjobs hphase hlock => exact ⟨_, h.jobNewline hjobs hphase hlock _⟩
  | notified _ hlock => exact ⟨_, h.notified hlock _⟩

end

theorem start (env : Env) (input : List String) : Inv env input (.start input) [] where
  slots := Nat.zero_le _
  log := rfl
  jobs := fun _ hj => nomatch hj
  reader := trivial
  lock := fun _ hheld => nomatch hheld
  out := rfl
  ids := fun _ hl => nomatch hl
  count := fun n => by simp [pending, State.start, origin?, expected]

theorem of_reachable (h : Reachable env input s) : ∃ lines, Inv env input s lines := by
  induction h with
  | refl => exact ⟨[], start env input⟩
  | tail _ hstep ih =>
    obtain ⟨lines, hinv⟩ := ih
    rcases hstep with hstep | ⟨_, text, rfl⟩
    · exact hinv.step hstep
    · exact ⟨lines, hinv.notify text⟩

end Inv
end Spectra.Daemon
