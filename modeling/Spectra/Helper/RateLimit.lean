import Spectra.Helper.Dispatcher
import Spectra.Library.SlidingWindow
import Mathlib.Algebra.Order.Group.Int
import Mathlib.Data.List.Induction

/-! The limiter of the helper is the sliding window. -/
namespace Spectra.Helper
open List Library

/-- How a user's hits change with a request of theirs. -/
def RateLimiter.hitsAfter (l : RateLimiter) (uid : UInt32) (now : ℤ) : List ℤ :=
  if l.maxRequests ≤ (l.keep uid now).length then l.keep uid now else l.keep uid now ++ [now]

open RateLimiter

section
variable (l : RateLimiter) (uid : UInt32)

theorem RateLimiter.allow_fst (now : ℤ) :
    (l.allow uid now).1 = true ↔ ((l.keep uid now).length : ℤ) < l.maxRequests := by
  rw [allow]
  split
  · simp only [Bool.false_eq_true, false_iff, not_lt]
    assumption
  · simp only [true_iff]
    omega

theorem RateLimiter.allow_snd (now : ℤ) :
    (l.allow uid now).2 = { l with seen := l.seen.insert uid (l.hitsAfter uid now) } := by
  unfold allow hitsAfter
  split <;> rfl

theorem RateLimiter.hits_allow (u : UInt32) (now : ℤ) :
    (l.allow uid now).2.hits u = if u = uid then l.hitsAfter uid now else l.hits u := by
  rw [allow_snd, hits, Std.ExtTreeMap.getD_insert]
  by_cases h : u = uid
  · simp [h]
  · simp [h, hits, Ne.symm h]

end

variable (d : Dispatcher)

theorem Dispatcher.run_spec (m : Message) (req : Request) :
    (d.run m req).1.error ≠ some rateLimitExceeded ∧ (d.run m req).2.limit = d.limit := by
  rw [run]
  split
  · exact ⟨by simp [rateLimitExceeded], rfl⟩
  · split
    · exact ⟨by simp [rateLimitExceeded], rfl⟩
    · exact ⟨Option.some_ne_none _ |>.symm, rfl⟩

variable {m : Message}

theorem Dispatcher.handle_malformed (hm : m.wellFormed = false) : (d.handle m).2.limit = d.limit := by
  rw [handle]
  rw [Message.wellFormed] at hm
  split
  · rfl
  · rename_i req hreq
    rw [hreq] at hm
    have hinvalid : req.jsonrpc ≠ "2.0" ∨ req.method = "" := by
      simpa [Classical.or_iff_not_imp_left] using hm
    rw [if_pos hinvalid]
    rfl

section
variable {d : Dispatcher} {l : RateLimiter} (hl : d.limit = some l) (hm : m.wellFormed = true)
include hl hm

/-- How a request goes on from the limiter. -/
theorem Dispatcher.handle_eq :
    ∃ req, m.request = some req ∧ d.handle m =
      if (l.allow m.uid m.start).1 = true then
        run { d with limit := some (l.allow m.uid m.start).2 } m req
      else
        (⟨req.id, none, some rateLimitExceeded⟩,
          auditRequest { d with limit := some (l.allow m.uid m.start).2 } m req.method false
            "rate limit exceeded") := by
  rw [Message.wellFormed] at hm
  cases hreq : m.request with
  | none => simp [hreq] at hm
  | some req =>
    have hvalid : ¬ (req.jsonrpc ≠ "2.0" ∨ req.method = "") := by simpa [hreq] using hm
    have hallow : d.allowRequest m.uid m.start =
        ((l.allow m.uid m.start).1, { d with limit := some (l.allow m.uid m.start).2 }) := by
      rw [allowRequest, hl]
    refine ⟨req, rfl, ?_⟩
    simp only [handle, hreq, if_neg hvalid, hallow]
    cases (l.allow m.uid m.start).1 with
    | false | true => rfl

theorem Dispatcher.handle_request :
    (admitted (m, (d.handle m).1) = true ↔ (l.allow m.uid m.start).1 = true) ∧
      (d.handle m).2.limit = some (l.allow m.uid m.start).2 := by
  obtain ⟨req, -, heq⟩ := handle_eq hl hm
  rw [heq, admitted, hm]
  split
  · rename_i hallow
    have hrun := run_spec { d with limit := some (l.allow m.uid m.start).2 } m req
    exact ⟨by simpa [hallow] using hrun.1, hrun.2⟩
  · rename_i hdeny
    exact ⟨by simp [hdeny], rfl⟩

end

theorem Dispatcher.serve_append (ms ms' : List Message) :
    d.serve (ms ++ ms') = ((d.serve ms).1 ++ ((d.serve ms).2.serve ms').1, ((d.serve ms).2.serve ms').2) := by
  induction ms generalizing d with
  | nil => rfl
  | cons m ms ih => simp [serve, ih]

theorem admittedTimes_snoc (uid : UInt32) (answered : List (Message × Response)) (m : Message) (r : Response) :
    admittedTimes uid (answered ++ [(m, r)]) = admittedTimes uid answered ++
      if admitted (m, r) = true ∧ m.uid = uid then [m.start] else [] := by
  unfold admittedTimes
  rw [filter_append, map_append]
  by_cases h : admitted (m, r) = true ∧ m.uid = uid
  · simp [h]
  · rw [if_neg h, filter_cons_of_neg]
    · rfl
    · simpa using h

def Dispatcher.withLimit (handlers : List String) (maxRequests window : ℤ) : Dispatcher :=
  (Dispatcher.new handlers).setRateLimit maxRequests window

open Dispatcher

/-- The limiter has what still counts of the admitted requests. -/
structure Tracks (maxRequests window : ℤ) (ms : List Message)
    (served : List (Message × Response) × Dispatcher) (l : RateLimiter) : Prop where
  limit : served.2.limit = some l
  max_eq : l.maxRequests = maxRequests
  window_eq : l.window = window
  hits : ∀ uid now, (∀ m ∈ ms, m.start ≤ now) →
    timesAfter (now - window) (l.hits uid) =
      timesAfter (now - window) (admittedTimes uid served.1)
  length : ∀ uid, ((l.hits uid).length : ℤ) ≤ maxRequests
  limited : ∀ uid, Limited maxRequests.toNat (· - window) (admittedTimes uid served.1)

section

variable {maxRequests window : ℤ} {ms : List Message}
  {served : List (Message × Response) × Dispatcher} {l : RateLimiter}
  (handlers : List String)

theorem Tracks.init (hmax : 1 ≤ maxRequests) (hwindow : 0 < window) :
    Tracks maxRequests window [] ((withLimit handlers maxRequests window).serve []) ⟨maxRequests, window, ∅⟩ := by
  have hoff : ¬ (maxRequests ≤ 0 ∨ window ≤ 0) := by omega
  refine ⟨?_, rfl, rfl, fun uid now _ => ?_, fun uid => ?_, fun uid => .nil⟩
  · simp [serve, withLimit, setRateLimit, hoff]
  · simp [RateLimiter.hits, serve, admittedTimes]
  · simp only [RateLimiter.hits, Std.ExtTreeMap.getD_empty, length_nil]
    omega

section
variable (h : Tracks maxRequests window ms served l)
include h

variable (uid : UInt32)

theorem Tracks.keep {now : ℤ} (hnow : ∀ m ∈ ms, m.start ≤ now) :
    l.keep uid now = timesAfter (now - window) (admittedTimes uid served.1) := by
  rw [RateLimiter.keep, h.window_eq, ← h.hits uid now hnow]
  rfl

/-- What is kept, and the request itself if it is admitted, is what counts later on. -/
theorem Tracks.hitsAfter {start : ℤ} (hstart : ∀ m ∈ ms, m.start ≤ start) {now : ℤ} (hnow : start ≤ now) :
    timesAfter (now - window) (l.hitsAfter uid start) =
      timesAfter (now - window) (admittedTimes uid served.1 ++
        if (l.allow uid start).1 = true then [start] else []) := by
  have hkeep := h.keep uid hstart
  have hlater : timesAfter (now - window) (l.keep uid start) =
      timesAfter (now - window) (admittedTimes uid served.1) := by
    rw [hkeep]
    exact timesAfter_timesAfter (by omega) _
  rw [RateLimiter.hitsAfter]
  by_cases hallow : (l.allow uid start).1 = true
  · have hfew := (l.allow_fst uid start).mp hallow
    rw [if_neg (by omega), if_pos hallow, timesAfter_append, timesAfter_append, hlater]
  · have hmany := mt (l.allow_fst uid start).mpr hallow
    rw [if_pos (by omega), if_neg hallow, append_nil, hlater]

theorem Tracks.length_hitsAfter (start : ℤ) : ((l.hitsAfter uid start).length : ℤ) ≤ maxRequests := by
  have hmax := h.max_eq
  have hlength := h.length uid
  have hkeep : (l.keep uid start).length ≤ (l.hits uid).length := length_filter_le ..
  rw [RateLimiter.hitsAfter]
  split
  · omega
  · simp only [length_append, length_singleton]
    omega

theorem Tracks.malformed {m : Message} (hm : m.wellFormed = false) :
    Tracks maxRequests window (ms ++ [m]) (served.1 ++ [(m, (served.2.handle m).1)], (served.2.handle m).2) l := by
  have htimes : ∀ uid, admittedTimes uid (served.1 ++ [(m, (served.2.handle m).1)]) =
      admittedTimes uid served.1 := by
    intro uid
    rw [admittedTimes_snoc, if_neg (by simp [admitted, hm]), append_nil]
  refine ⟨(served.2.handle_malformed hm).trans h.limit, h.max_eq, h.window_eq,
    fun uid now hnow => ?_, h.length, fun uid => ?_⟩
  · rw [htimes]
    exact h.hits uid now fun m' hm' => hnow m' (mem_append_left _ hm')
  · rw [htimes]
    exact h.limited uid

/-- One more request. -/
theorem Tracks.request {m : Message} (hm : m.wellFormed = true) (hlast : ∀ m' ∈ ms, m'.start ≤ m.start) :
    Tracks maxRequests window (ms ++ [m]) (served.1 ++ [(m, (served.2.handle m).1)], (served.2.handle m).2)
      (l.allow m.uid m.start).2 := by
  obtain ⟨hadmitted, hlimit⟩ := handle_request h.limit hm
  have htimes : ∀ uid, admittedTimes uid (served.1 ++ [(m, (served.2.handle m).1)]) =
      admittedTimes uid served.1 ++
        if (l.allow m.uid m.start).1 = true ∧ m.uid = uid then [m.start] else [] := by
    intro uid
    rw [admittedTimes_snoc]
    simp [hadmitted]
  have hlater : ∀ {now : ℤ}, (∀ m' ∈ ms ++ [m], m'.start ≤ now) → m.start ≤ now := fun hnow =>
    hnow m (mem_append_right _ (mem_singleton_self m))
  refine ⟨hlimit, ?_, ?_, fun uid now hnow => ?_, fun uid => ?_, fun uid => ?_⟩
  · rw [allow_snd]
    exact h.max_eq
  · rw [allow_snd]
    exact h.window_eq
  · rw [htimes, hits_allow]
    by_cases huid : uid = m.uid
    · rw [huid]
      simpa using h.hitsAfter m.uid hlast (hlater hnow)
    · rw [if_neg huid, if_neg fun hand => huid hand.2.symm, append_nil]
      exact h.hits uid now fun m' hm' => hnow m' (mem_append_left _ hm')
  · rw [hits_allow]
    split
    · exact h.length_hitsAfter m.uid m.start
    · exact h.length uid
  · rw [htimes]
    split
    · rename_i hand
      refine (h.limited uid).snoc ?_
      have hfew := (l.allow_fst m.uid m.start).mp hand.1
      rw [h.keep m.uid hlast, hand.2, h.max_eq] at hfew
      omega
    · rw [append_nil]
      exact h.limited uid

end

theorem Tracks.of_serve (hmax : 1 ≤ maxRequests) (hwindow : 0 < window)
    (hsorted : ms.Pairwise fun m m' => m.start ≤ m'.start) :
    ∃ l, Tracks maxRequests window ms ((withLimit handlers maxRequests window).serve ms) l := by
  induction ms using reverseRecOn with
  | nil => exact ⟨_, .init handlers hmax hwindow⟩
  | append_singleton ms m ih =>
    obtain ⟨hbefore, -, hlast⟩ := pairwise_append.mp hsorted
    obtain ⟨l, htracks⟩ := ih hbefore
    rw [serve_append]
    cases hm : m.wellFormed with
    | false => exact ⟨l, htracks.malformed hm⟩
    | true =>
      refine ⟨_, htracks.request hm fun m' hm' => ?_⟩
      exact hlast m' hm' m (mem_singleton_self m)

variable {d : Dispatcher}

private theorem mem_of_mem_admittedTimes {uid : UInt32} {t : ℤ}
    (h : t ∈ admittedTimes uid (d.serve ms).1) : ∃ m ∈ ms, m.start = t := by
  obtain ⟨x, hx, rfl⟩ := mem_map.mp h
  have hmem := (mem_filter.mp hx).1
  clear hx h
  induction ms generalizing d with
  | nil => exact nomatch hmem
  | cons m ms ih =>
    cases mem_cons.mp hmem with
    | inl heq => exact ⟨m, mem_cons_self, by rw [heq]⟩
    | inr hrest =>
      obtain ⟨m', hm', heq⟩ := ih hrest
      exact ⟨m', mem_cons_of_mem m hm', heq⟩

theorem Dispatcher.allowRequest_handlers (d : Dispatcher) (uid : UInt32) (now : ℤ) :
    (d.allowRequest uid now).2.handlers = d.handlers := by
  rw [allowRequest]
  split <;> rfl

theorem Dispatcher.run_handlers (d : Dispatcher) (m : Message) (req : Request) :
    (d.run m req).2.handlers = d.handlers := by
  rw [run]
  split
  · rfl
  · split <;> rfl

theorem Dispatcher.run_fst_congr {d' : Dispatcher} (hhandlers : d.handlers = d'.handlers)
    (m : Message) (req : Request) : (d.run m req).1 = (d'.run m req).1 := by
  unfold run
  rw [hhandlers]
  split
  · rfl
  · cases m.outcome <;> rfl

theorem Dispatcher.handle_handlers (d : Dispatcher) (m : Message) : (d.handle m).2.handlers = d.handlers := by
  have hallow := d.allowRequest_handlers m.uid m.start
  rw [handle]
  split
  · rfl
  · split
    · rfl
    · split
      · rename_i heq
        rw [heq] at hallow
        exact hallow
      · rename_i heq
        rw [heq] at hallow
        exact (run_handlers _ m _).trans hallow

/-- A response is settled by the handlers, the message and what the limiter says. -/
theorem Dispatcher.handle_fst_congr {d' : Dispatcher} (hhandlers : d.handlers = d'.handlers)
    {m : Message} (hallow : (d.allowRequest m.uid m.start).1 = (d'.allowRequest m.uid m.start).1) :
    (d.handle m).1 = (d'.handle m).1 := by
  have hsame : (d.allowRequest m.uid m.start).2.handlers =
      (d'.allowRequest m.uid m.start).2.handlers := by
    rw [allowRequest_handlers, allowRequest_handlers, hhandlers]
  unfold handle
  cases m.request with
  | none => rfl
  | some req =>
    dsimp only
    split
    · rfl
    · revert hallow hsame
      cases d.allowRequest m.uid m.start with
      | mk b e =>
        cases d'.allowRequest m.uid m.start with
        | mk b' e' =>
          intro hallow hsame
          cases hallow
          cases b with
          | false => rfl
          | true => exact run_fst_congr hsame m req

/-- Two limiters that treat a user alike. -/
structure RateLimiter.Alike (uid : UInt32) (l l' : RateLimiter) : Prop where
  maxRequests : l.maxRequests = l'.maxRequests
  window : l.window = l'.window
  hits : l.hits uid = l'.hits uid

section
variable {uid : UInt32} {l l' : RateLimiter} (h : RateLimiter.Alike uid l l')
include h

theorem RateLimiter.Alike.keep (now : ℤ) : l.keep uid now = l'.keep uid now := by
  unfold RateLimiter.keep
  rw [h.window, h.hits]

theorem RateLimiter.Alike.allow (now : ℤ) :
    (l.allow uid now).1 = (l'.allow uid now).1 ∧ Alike uid (l.allow uid now).2 (l'.allow uid now).2 := by
  have hkeep := h.keep now
  have hmax := h.maxRequests
  refine ⟨?_, ?_, ?_, ?_⟩
  · rw [Bool.eq_iff_iff, allow_fst, allow_fst, hkeep, hmax]
  · rw [allow_snd, allow_snd]
    exact hmax
  · rw [allow_snd, allow_snd]
    exact h.window
  · rw [hits_allow, hits_allow, if_pos rfl, if_pos rfl, hitsAfter, hitsAfter, hkeep, hmax]

theorem RateLimiter.Alike.other {u : UInt32} (hne : uid ≠ u) (now : ℤ) : Alike uid (l.allow u now).2 l' := by
  refine ⟨?_, ?_, ?_⟩
  · rw [allow_snd]
    exact h.maxRequests
  · rw [allow_snd]
    exact h.window
  · rw [hits_allow, if_neg hne]
    exact h.hits

end

/-- Two dispatchers that treat a user alike. -/
def Dispatcher.Alike (uid : UInt32) (d d' : Dispatcher) : Prop :=
  d.handlers = d'.handlers ∧ ∃ l l', d.limit = some l ∧ d'.limit = some l' ∧ l.Alike uid l'

variable {uid : UInt32} {d d' : Dispatcher} (h : Dispatcher.Alike uid d d')
include h

theorem Dispatcher.Alike.handle {m : Message} (hm : m.uid = uid) :
    (d.handle m).1 = (d'.handle m).1 ∧ Alike uid (d.handle m).2 (d'.handle m).2 := by
  obtain ⟨hhandlers, l, l', hl, hl', halike⟩ := h
  have hallow := halike.allow m.start
  rw [← hm] at hallow halike ⊢
  refine ⟨handle_fst_congr hhandlers ?_, ?_, ?_⟩
  · rw [allowRequest, allowRequest, hl, hl']
    exact hallow.1
  · rw [handle_handlers, handle_handlers, hhandlers]
  · cases hwell : m.wellFormed with
    | false =>
      exact ⟨l, l', (d.handle_malformed hwell).trans hl, (d'.handle_malformed hwell).trans hl', halike⟩
    | true =>
      exact ⟨_, _, (handle_request hl hwell).2, (handle_request hl' hwell).2, hallow.2⟩

theorem Dispatcher.Alike.other {m : Message} (hm : uid ≠ m.uid) : Alike uid (d.handle m).2 d' := by
  obtain ⟨hhandlers, l, l', hl, hl', halike⟩ := h
  refine ⟨(d.handle_handlers m).trans hhandlers, ?_⟩
  cases hwell : m.wellFormed with
  | false => exact ⟨l, l', (d.handle_malformed hwell).trans hl, hl', halike⟩
  | true => exact ⟨_, l', (handle_request hl hwell).2, hl', halike.other hm m.start⟩

theorem Dispatcher.Alike.serve (ms : List Message) :
    (d.serve ms).1.filter (·.1.uid = uid) = (d'.serve (ms.filter (·.uid = uid))).1 := by
  induction ms generalizing d d' with
  | nil => rfl
  | cons m ms ih =>
    by_cases hm : m.uid = uid
    · obtain ⟨hresponse, halike⟩ := h.handle hm
      rw [filter_cons_of_pos (by simpa using hm)]
      simp only [serve]
      rw [filter_cons_of_pos (by simpa using hm), ih halike, hresponse]
    · rw [filter_cons_of_neg (by simpa using hm)]
      simp only [serve]
      rw [filter_cons_of_neg (by simpa using hm), ih (h.other (Ne.symm hm))]

end

/-- The limiter is the sliding window, for requests of any users in the order of their times. A
request is admitted iff fewer than `maxRequests` earlier ones of its user were admitted in the
window that ends with it; no half-open window has more; other users do not matter; and a user's
list stays within `maxRequests`. -/
theorem rate_limit_exact (handlers : List String) (maxRequests window : ℤ) (hmax : 1 ≤ maxRequests)
    (hwindow : 0 < window) (ms : List Message) (hsorted : ms.Pairwise fun m m' => m.start ≤ m'.start) :
    let d := Dispatcher.withLimit handlers maxRequests window
    (∀ before m after, ms = before ++ m :: after → m.wellFormed = true →
      (admitted (m, ((d.serve before).2.handle m).1) = true ↔
        (((admittedTimes m.uid (d.serve before).1).filter
          fun t => m.start - window < t ∧ t ≤ m.start).length : ℤ) < maxRequests)) ∧
    (∀ uid a,
      (((admittedTimes uid (d.serve ms).1).filter fun t => a ≤ t ∧ t < a + window).length : ℤ) ≤ maxRequests ∧
      (((admittedTimes uid (d.serve ms).1).filter fun t => a < t ∧ t ≤ a + window).length : ℤ) ≤ maxRequests) ∧
    (∀ uid, (d.serve ms).1.filter (·.1.uid = uid) = (d.serve (ms.filter (·.uid = uid))).1) ∧
    ∀ before after, ms = before ++ after → ∃ l, (d.serve before).2.limit = some l ∧
      ∀ uid, ((l.hits uid).length : ℤ) ≤ maxRequests := by
  intro d
  refine ⟨?_, fun uid a => ?_, fun uid => ?_, ?_⟩
  · intro before m after hms hwell
    rw [hms] at hsorted
    obtain ⟨hbefore, -, hlast⟩ := pairwise_append.mp hsorted
    obtain ⟨l, htracks⟩ := Tracks.of_serve handlers hmax hwindow hbefore
    have hlast : ∀ m' ∈ before, m'.start ≤ m.start := fun m' hm' =>
      hlast m' hm' m mem_cons_self
    have hends : timesAfter (m.start - window) (admittedTimes m.uid (d.serve before).1) =
        (admittedTimes m.uid (d.serve before).1).filter
          fun t => m.start - window < t ∧ t ≤ m.start := by
      apply filter_congr
      intro t ht
      obtain ⟨m', hm', rfl⟩ := mem_of_mem_admittedTimes ht
      simp [hlast m' hm']
    rw [(handle_request htracks.limit hwell).1, allow_fst, htracks.max_eq, htracks.keep m.uid hlast, hends]
  · obtain ⟨l, htracks⟩ := Tracks.of_serve handlers hmax hwindow hsorted
    have hlimited : Limited _ _ (admittedTimes uid (d.serve ms).1) := htracks.limited uid
    have hleft := hlimited.length_window_le (fun t => a ≤ t ∧ t < a + window)
      (by simp; omega)
    have hright := hlimited.length_window_le (fun t => a < t ∧ t ≤ a + window)
      (by simp only [decide_eq_true_eq]; omega)
    exact ⟨by omega, by omega⟩
  · have hlimit := (Tracks.init handlers hmax hwindow).limit
    have halike : Alike uid d d := ⟨rfl, _, _, hlimit, hlimit, rfl, rfl, rfl⟩
    exact halike.serve ms
  · intro before after hms
    rw [hms] at hsorted
    obtain ⟨hbefore, -, -⟩ := pairwise_append.mp hsorted
    obtain ⟨l, htracks⟩ := Tracks.of_serve handlers hmax hwindow hbefore
    exact ⟨l, htracks.limit, htracks.length⟩

/-- Two requests in ten nanoseconds: the third of user 1 is turned away at 9 and the fourth is let
through at 10. -/
theorem rate_limit_exact_status :
    ((Dispatcher.withLimit ["status"] 2 10).serve
        [status 1 0, status 1 5, status 2 6, status 1 9, status 1 10]).1.map admitted =
      [true, true, true, false, true] ∧
    ∃ l, ((Dispatcher.withLimit ["status"] 2 10).serve [status 1 0, status 1 5]).2.limit = some l ∧
      ∀ uid, ((l.hits uid).length : ℤ) ≤ 2 := by
  refine ⟨by decide +kernel, ?_⟩
  exact (rate_limit_exact ["status"] 2 10 (by decide) (by decide) [status 1 0, status 1 5]
    (by decide)).2.2.2 [status 1 0, status 1 5] [] rfl

end Spectra.Helper
