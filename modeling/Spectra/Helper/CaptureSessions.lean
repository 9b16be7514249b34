import Spectra.Helper.NetCapture
import Spectra.Library.GoRuntime
import Spectra.Library.Slots

/-! Who can stop a capture session and when it leaves the map. -/
namespace Spectra.Helper.NetCapture
open List Library Relation

variable {m m' : Manager} {j : ℕ} {c c' : Session}

private theorem handleOf_injective {a b : ℕ} (h : handleOf a = handleOf b) : a = b := by
  have hlist := congrArg String.toList h
  simp only [handleOf, String.toList_append, String.toList_ofList] at hlist
  have hdecimal := append_cancel_left hlist
  have hread := GoText.readNat_decimal a
  rw [hdecimal, GoText.readNat_decimal] at hread
  exact (Option.some.inj hread).symm

/-- The same session, later. -/
structure Session.Later (c c' : Session) : Prop where
  uid : c'.uid = c.uid
  number : c'.number = c.number
  started : c.waiter ≠ .unstarted → c'.waiter ≠ .unstarted

theorem Session.Later.handle (h : c.Later c') : c'.handle = c.handle :=
  congrArg handleOf h.number

theorem Session.Step.later (h : c.Step c') : c.Later c' := by
  cases h with
  | exit | expire => exact ⟨rfl, rfl, id⟩
  | reap | finalize | checkExpired | checkOther => exact ⟨rfl, rfl, fun _ => nofun⟩

/-- How a step changes a session. -/
inductive Change (m m' : Manager) (j : ℕ) (c : Session) : Session → Prop
  | none : Change m m' j c c
  | own {c' : Session} (hstep : c.Step c') : Change m m' j c c'
  | inserted (hnew : c.waiter = .unstarted) : Change m m' j c { c with waiter := .waiting }
  | forgotten (hsessions : m'.sessions = m.sessions.erase c.handle)
    (hforget : c.waiter = .forgetting) : Change m m' j c { c with waiter := .finished }
  | canceled {k : ℕ} {st : Stop} (hat : m.stops[k]? = some st) (htaken : st.taken = some j) :
    Change m m' j c (c.ctxDone .canceled)
  | received : Change m m' j c { c with done := Option.none }

theorem Change.later (h : Change m m' j c c') : c.Later c' := by
  cases h with
  | own hstep => exact hstep.later
  | inserted | forgotten => exact ⟨rfl, rfl, fun _ => nofun⟩
  | none | canceled | received => exact ⟨rfl, rfl, id⟩

/-- Sessions are never dropped from the list of the started ones. -/
theorem Step.changed (hstep : Step m m') (hat : m.started[j]? = some c) :
    ∃ c', m'.started[j]? = some c' ∧ Change m m' j c c' := by
  have hset {i : ℕ} {d d' : Session} (hd : m.started[i]? = some d) (hchange : Change m m' i d d') :
      ∃ c', (m.started.set i d')[j]? = some c' ∧ Change m m' j c c' := by
    by_cases hij : j = i
    · subst hij
      cases hat.symm.trans hd
      exact ⟨d', getElem?_set_self_of_getElem? hat, hchange⟩
    · exact ⟨c, (getElem?_set_ne (Ne.symm hij)).trans hat, .none⟩
  cases hstep with
  | launch uid output =>
    obtain ⟨hj, -⟩ := List.getElem?_eq_some_iff.mp hat
    exact ⟨c, (getElem?_append_left hj).trans hat, .none⟩
  | insert hd hnew => exact hset hd (.inserted hnew)
  | session hd hstep => exact hset hd (.own hstep)
  | forget hd hforget => exact hset hd (.forgotten rfl hforget)
  | cancel hk hd => exact hset hd (.canceled hk rfl)
  | receive hk hd hdone => exact hset hd .received
  | startFails | stop | refuse | take | timeout => exact ⟨c, hat, .none⟩

theorem Step.later (hstep : Step m m') (hat : m.started[j]? = some c) : ∃ c', m'.started[j]? = some c' ∧ c.Later c' :=
  (hstep.changed hat).imp fun _ h => ⟨h.1, h.2.later⟩

theorem Step.change (hstep : Step m m') (hat : m'.started[j]? = some c') :
    (c'.waiter = .unstarted ∧ c'.err = none ∧ c'.expired = false) ∨
      ∃ c, m.started[j]? = some c ∧ Change m m' j c c' := by
  cases hold : m.started[j]? with
  | some c =>
    obtain ⟨d, hd, hchange⟩ := hstep.changed hold
    cases hat.symm.trans hd
    exact .inr ⟨c, rfl, hchange⟩
  | none =>
    have hlen := getElem?_eq_none_iff.mp hold
    cases hstep with
    | launch uid output =>
      rw [getElem?_append_right hlen] at hat
      obtain rfl := mem_singleton.mp (mem_of_getElem? hat)
      exact .inl ⟨rfl, rfl, rfl⟩
    | startFails | insert | session | forget | stop | refuse | take | cancel | receive | timeout =>
      simp [hlen] at hat

/-- Numbers grow with the sessions, and the map has each session under its own handle. -/
structure Named (m : Manager) : Prop where
  numbers : (m.started.map Session.number).Pairwise (· < ·)
  bound : ∀ n ∈ m.started.map Session.number, n ≤ m.next
  sessions : ∀ (h : String) (j : ℕ), m.sessions[h]? = some j →
    ∃ c, m.started[j]? = some c ∧ c.handle = h ∧ c.waiter ≠ .unstarted

theorem Named.new : Named .new where
  numbers := .nil
  bound _ h := absurd h not_mem_nil
  sessions h j hsession := by simp [Manager.new] at hsession

theorem Named.index_eq (hm : Named m) {j' : ℕ} (hat : m.started[j]? = some c)
    (hat' : m.started[j']? = some c') (h : c.handle = c'.handle) : j = j' := by
  have hnumber := handleOf_injective h
  have hnodup := hm.numbers.imp Nat.ne_of_lt
  have hj : (m.started.map Session.number)[j]? = some c.number := by simp [hat]
  have hj' : (m.started.map Session.number)[j']? = some c.number := by simp [hat', hnumber]
  obtain ⟨hlt, -⟩ := List.getElem?_eq_some_iff.mp hj
  exact (getElem?_inj hlt hnodup).mp (hj.trans hj'.symm)

theorem Named.sessions_of_subset (hm : Named m) (hstep : Step m m')
    (hsub : ∀ (h : String) (j : ℕ), m'.sessions[h]? = some j → m.sessions[h]? = some j) :
    ∀ (h : String) (j : ℕ), m'.sessions[h]? = some j →
      ∃ c, m'.started[j]? = some c ∧ c.handle = h ∧ c.waiter ≠ .unstarted := by
  intro h j hsession
  obtain ⟨c, hat, hhandle, hwaiter⟩ := hm.sessions h j (hsub h j hsession)
  obtain ⟨c', hat', hlater⟩ := hstep.later hat
  exact ⟨c', hat', hlater.handle.trans hhandle, hlater.started hwaiter⟩

theorem getElem?_of_erase {s : Std.ExtTreeMap String ℕ} {h h' : String}
    (hj : (s.erase h')[h]? = some j) : s[h]? = some j := by
  rw [getElem?_erase_eq] at hj
  split at hj
  · exact nomatch hj
  · exact hj

theorem Named.of_numbers (hm : Named m) (hnumbers : m'.started.map Session.number = m.started.map Session.number)
    (hnext : m'.next = m.next)
    (hsessions : ∀ (h : String) (j : ℕ), m'.sessions[h]? = some j →
      ∃ c, m'.started[j]? = some c ∧ c.handle = h ∧ c.waiter ≠ .unstarted) : Named m' where
  numbers := hnumbers ▸ hm.numbers
  bound := by
    rw [hnumbers, hnext]
    exact hm.bound
  sessions := hsessions

theorem Named.step (hm : Named m) (hstep : Step m m') : Named m' := by
  have hsub := hm.sessions_of_subset hstep
  cases hstep with
  | startFails => exact ⟨hm.numbers, fun n hn => Nat.le_succ_of_le (hm.bound n hn), hm.sessions⟩
  | launch uid output =>
    refine ⟨?_, fun n hn => ?_, hsub fun _ _ h => h⟩
    · rw [map_append, pairwise_append]
      refine ⟨hm.numbers, pairwise_singleton .., fun n hn n' hn' => ?_⟩
      rw [map_singleton, mem_singleton] at hn'
      exact hn' ▸ Nat.lt_succ_of_le (hm.bound n hn)
    · rw [map_append, mem_append] at hn
      cases hn with
      | inl hold => exact Nat.le_succ_of_le (hm.bound n hold)
      | inr hnew => exact (mem_singleton.mp hnew).le
  | @insert j c hat hnew =>
    refine hm.of_numbers (map_set_of_eq hat rfl) rfl fun h j' hsession => ?_
    rw [getElem?_insert_eq] at hsession
    split at hsession
    · rename_i hhandle
      cases hsession
      exact ⟨_, getElem?_set_self_of_getElem? hat, hhandle, nofun⟩
    · obtain ⟨d, hd, hhandle, hwaiter⟩ := hm.sessions h j' hsession
      obtain ⟨d', hd', hlater⟩ := (Step.insert hat hnew).later hd
      exact ⟨d', hd', hlater.handle.trans hhandle, hlater.started hwaiter⟩
  | @session j c c' hat hstep =>
    exact hm.of_numbers (map_set_of_eq hat hstep.later.number) rfl (hsub fun _ _ h => h)
  | @forget j c hat hforget =>
    exact hm.of_numbers (map_set_of_eq hat rfl) rfl (hsub fun _ _ h => getElem?_of_erase h)
  | cancel _ hstarted | receive _ hstarted =>
    exact hm.of_numbers (map_set_of_eq hstarted rfl) rfl (hsub fun _ _ h => h)
  | take hat hrefusal hsession hstarted =>
    exact hm.of_numbers rfl rfl (hsub fun _ _ h => getElem?_of_erase h)
  | stop | refuse | timeout => exact ⟨hm.numbers, hm.bound, hm.sessions⟩

theorem Named.of_reachable (h : Reachable m) : Named m := by
  induction h with
  | refl => exact .new
  | tail _ hstep ih => exact ih.step hstep

/-- A session that was in the map and is there no more. -/
def Out (m : Manager) (j : ℕ) : Prop :=
  ∃ c, m.started[j]? = some c ∧ c.waiter ≠ .unstarted ∧ m.sessions[c.handle]? ≠ some j

theorem Out.step (hout : Out m j) (hstep : Step m m') : Out m' j := by
  obtain ⟨c, hat, hwaiter, hsession⟩ := hout
  obtain ⟨c', hat', hlater⟩ := hstep.later hat
  refine ⟨c', hat', hlater.started hwaiter, ?_⟩
  rw [hlater.handle]
  cases hstep with
  | @insert j' d hd hnew =>
    rw [getElem?_insert_eq]
    split
    · intro heq
      cases heq
      cases hat.symm.trans hd
      exact hwaiter hnew
    · exact hsession
  | forget hd hforget | take _ _ _ _ => exact fun h => hsession (getElem?_of_erase h)
  | startFails | launch | session | stop | refuse | cancel | receive | timeout => exact hsession

theorem Out.run (hout : Out m j) (hrun : ReflTransGen Step m m') : Out m' j := by
  induction hrun with
  | refl => exact hout
  | tail _ hstep ih => exact ih.step hstep

theorem Out.not_leaked (hout : Out m j) : ¬ m.Leaked j := by
  intro hleaked
  obtain ⟨c, hat, -, hsession⟩ := hout
  obtain ⟨c', hat', -, -, hsession'⟩ := hleaked
  cases hat.symm.trans hat'
  exact hsession hsession'

variable {k : ℕ}

/-- A `stop` that has a session after a step had it before, or the step took it from the map. -/
theorem Step.taken_cases (hstep : Step m m') {st : Stop} (hat : m'.stops[k]? = some st) (htaken : st.taken = some j) :
    (∃ st', m.stops[k]? = some st' ∧ st'.taken = some j ∧ st'.handle = st.handle ∧
      st'.uid = st.uid) ∨
    (m.refusal st.uid st.handle = none ∧ m.sessions[st.handle]? = some j ∧
      m'.started = m.started ∧ m'.sessions = m.sessions.erase st.handle ∧
      ∀ k', k' ≠ k → m'.stops[k']? = m.stops[k']?) := by
  have hold {k' : ℕ} {st' st'' : Stop} (hset : (m.stops.set k' st')[k]? = some st)
      (hk : m.stops[k']? = some st'') (hsame : st''.taken = st'.taken)
      (hhandle : st''.handle = st'.handle) (huid : st''.uid = st'.uid) :
      ∃ st', m.stops[k]? = some st' ∧ st'.taken = some j ∧ st'.handle = st.handle ∧
        st'.uid = st.uid := by
    cases getElem?_set_cases hset with
    | inl hself =>
      obtain ⟨rfl, rfl⟩ := hself
      exact ⟨st'', hk, hsame.trans htaken, hhandle, huid⟩
    | inr hother => exact ⟨st, hother.2, htaken, rfl, rfl⟩
  cases hstep with
  | stop uid handle =>
    refine .inl ⟨st, ?_, htaken, rfl, rfl⟩
    rw [getElem?_append] at hat
    split at hat
    · exact hat
    · obtain rfl := mem_singleton.mp (mem_of_getElem? hat)
      exact nomatch htaken
  | refuse hk | cancel hk | receive hk | timeout hk => exact .inl (hold hat hk rfl rfl rfl)
  | take hk hrefusal hsession hstarted =>
    cases getElem?_set_cases hat with
    | inl hself =>
      obtain ⟨rfl, rfl⟩ := hself
      cases htaken
      exact .inr ⟨hrefusal, hsession, rfl, rfl, fun k' hne => getElem?_set_ne hne.symm⟩
    | inr hother => exact .inl ⟨st, hother.2, htaken, rfl, rfl⟩
  | startFails | launch | insert | session | forget => exact .inl ⟨st, hat, htaken, rfl, rfl⟩

theorem Manager.owner_of_refusal_eq_none {uid : UInt32} {handle : String}
    (h : m.refusal uid handle = none) (hsession : m.sessions[handle]? = some j)
    (hat : m.started[j]? = some c) : uid = 0 ∨ uid = c.uid := by
  simp only [Manager.refusal, hsession, hat] at h
  split at h
  · exact nomatch h
  · split at h
    · assumption
    · exact nomatch h

/-- What holds of the sessions that the stops have taken: they are out of the map, each has one
stop, and that stop gave its handle and may stop it. -/
structure Taken (m : Manager) : Prop where
  out : ∀ (k j : ℕ) (st : Stop), m.stops[k]? = some st → st.taken = some j → Out m j
  owned : ∀ (k j : ℕ) (st : Stop), m.stops[k]? = some st → st.taken = some j →
    ∃ c, m.started[j]? = some c ∧ c.handle = st.handle ∧ (st.uid = 0 ∨ st.uid = c.uid)
  once : ∀ (k k' j : ℕ) (st st' : Stop), m.stops[k]? = some st → m.stops[k']? = some st' →
    st.taken = some j → st'.taken = some j → k = k'

theorem Taken.new : Taken .new where
  out _ _ _ hat := nomatch hat
  owned _ _ _ hat := nomatch hat
  once _ _ _ _ _ hat := nomatch hat

theorem Taken.step (hm : Named m) (ht : Taken m) (hstep : Step m m') : Taken m' where
  out k j st hat htaken := by
    cases hstep.taken_cases hat htaken with
    | inl hold =>
      obtain ⟨st', hat', htaken', -, -⟩ := hold
      exact (ht.out k j st' hat' htaken').step hstep
    | inr hnew =>
      obtain ⟨-, hsession, hstarted, hsessions, -⟩ := hnew
      obtain ⟨c, hc, hhandle, hwaiter⟩ := hm.sessions _ j hsession
      refine ⟨c, hstarted ▸ hc, hwaiter, ?_⟩
      rw [hsessions, hhandle, getElem?_erase_eq, if_pos rfl]
      exact nofun
  owned k j st hat htaken := by
    cases hstep.taken_cases hat htaken with
    | inl hold =>
      obtain ⟨st', hat', htaken', hhandle, huid⟩ := hold
      obtain ⟨c, hc, hown, howner⟩ := ht.owned k j st' hat' htaken'
      obtain ⟨c', hc', hlater⟩ := hstep.later hc
      refine ⟨c', hc', hlater.handle.trans (hown.trans hhandle), ?_⟩
      rwa [hlater.uid, ← huid]
    | inr hnew =>
      obtain ⟨hrefusal, hsession, hstarted, -, -⟩ := hnew
      obtain ⟨c, hc, hhandle, -⟩ := hm.sessions _ j hsession
      exact ⟨c, hstarted ▸ hc, hhandle, Manager.owner_of_refusal_eq_none hrefusal hsession hc⟩
  once k k' j st st' hat hat' htaken htaken' := by
    have hnew {k k' : ℕ} {st st' : Stop} (hsession : m.sessions[st.handle]? = some j)
        (hrest : ∀ k', k' ≠ k → m'.stops[k']? = m.stops[k']?) (hat' : m'.stops[k']? = some st')
        (htaken' : st'.taken = some j) : k = k' := by
      by_contra hne
      obtain ⟨c, hc, -, hsession'⟩ := ht.out k' j st' (hrest k' (Ne.symm hne) ▸ hat') htaken'
      obtain ⟨c', hc', hhandle, -⟩ := hm.sessions _ j hsession
      cases hc.symm.trans hc'
      exact hsession' (hhandle ▸ hsession)
    cases hstep.taken_cases hat htaken with
    | inr hfirst => exact hnew hfirst.2.1 hfirst.2.2.2.2 hat' htaken'
    | inl hold =>
      cases hstep.taken_cases hat' htaken' with
      | inr hsecond => exact (hnew hsecond.2.1 hsecond.2.2.2.2 hat htaken).symm
      | inl hold' =>
        obtain ⟨s, hs, hstaken, -, -⟩ := hold
        obtain ⟨s', hs', hstaken', -, -⟩ := hold'
        exact ht.once k k' j s s' hs hs' hstaken hstaken'

theorem Taken.of_reachable (h : Reachable m) : Taken m := by
  induction h with
  | refl => exact .new
  | tail hrun hstep ih => exact ih.step (.of_reachable hrun) hstep

/-- A stop that succeeded has taken a session. -/
def Served (m : Manager) : Prop := ∀ st ∈ m.stops, st.Succeeded → ∃ j, st.taken = some j

theorem Served.step (hs : Served m) (hstep : Step m m') : Served m' := by
  cases hstep with
  | stop uid handle =>
    intro st hst hok
    cases mem_append.mp hst with
    | inl hold => exact hs st hold hok
    | inr hnew =>
      obtain rfl := mem_singleton.mp hnew
      obtain ⟨taken, r, hstage⟩ := hok
      exact nomatch hstage
  | refuse hat hrefusal =>
    refine forall_mem_set hs fun hok => ?_
    obtain ⟨taken, r, hstage⟩ := hok
    exact nomatch hstage
  | take | cancel | receive | timeout => exact forall_mem_set hs fun _ => ⟨_, rfl⟩
  | startFails | launch | insert | session | forget => exact hs

theorem Served.of_reachable (h : Reachable m) : Served m := by
  induction h with
  | refl => exact fun st hst => nomatch hst
  | tail _ hstep ih => exact ih.step hstep

theorem Change.context (h : Change m m' j c c') :
    (c'.err = c.err ∧ c'.expired = c.expired) ∨
    (c'.err = some (c.err.getD .deadlineExceeded) ∧ c'.expired = true) ∨
    (c'.err = some (c.err.getD .canceled) ∧ c'.expired = c.expired ∧
      ∃ (k : ℕ) (st : Stop), m.stops[k]? = some st ∧ st.taken = some j) := by
  cases h with
  | own hstep =>
    cases hstep with
    | expire => exact .inr (.inl ⟨rfl, rfl⟩)
    | exit | reap | finalize | checkExpired | checkOther => exact .inl ⟨rfl, rfl⟩
  | canceled hat htaken => exact .inr (.inr ⟨rfl, rfl, _, _, hat, htaken⟩)
  | none | inserted | forgotten | received => exact .inl ⟨rfl, rfl⟩

theorem Change.finished (h : Change m m' j c c') (hfinished : c'.waiter = .finished) :
    c.waiter = .finished ∨ (c.waiter = .checking ∧ c.err ≠ some .deadlineExceeded) ∨
      (c.waiter = .forgetting ∧ m'.sessions = m.sessions.erase c.handle) := by
  cases h with
  | own hstep =>
    cases hstep with
    | exit | expire => exact .inl hfinished
    | checkOther hat herr => exact .inr (.inl ⟨hat, herr⟩)
    | reap | finalize | checkExpired => exact nomatch hfinished
  | forgotten hsessions hforget => exact .inr (.inr ⟨hforget, hsessions⟩)
  | inserted => exact nomatch hfinished
  | none | canceled | received => exact .inl hfinished

theorem Change.forgetting (h : Change m m' j c c') (hforget : c.waiter = .forgetting) :
    c'.waiter = .forgetting ∨ m'.sessions = m.sessions.erase c.handle := by
  cases h with
  | own hstep =>
    cases hstep with
    | exit | expire => exact .inl hforget
    | reap hat | finalize hat | checkExpired hat | checkOther hat =>
      exact absurd (hforget.symm.trans hat) nofun
  | inserted hnew => exact absurd (hforget.symm.trans hnew) nofun
  | forgotten hsessions => exact .inr hsessions
  | none | canceled | received => exact .inl hforget

/-- The context of a session: a passed deadline shows as an error, as the deadline's own unless a
stop was first, and a canceled session is out of the map. -/
structure Contexts (m : Manager) : Prop where
  expired : ∀ (j : ℕ) (c : Session), m.started[j]? = some c → c.expired = true → c.err ≠ none
  deadline : ∀ (j : ℕ) (c : Session), m.started[j]? = some c →
    c.err = some .deadlineExceeded → c.expired = true
  canceled : ∀ (j : ℕ) (c : Session), m.started[j]? = some c → c.err = some .canceled → Out m j

theorem Contexts.new : Contexts .new where
  expired _ _ hat := nomatch hat
  deadline _ _ hat := nomatch hat
  canceled _ _ hat := nomatch hat

theorem of_getD {o : Option CtxErr} {e e' : CtxErr} (h : some (o.getD e) = some e')
    (hne : e ≠ e') : o = some e' := by
  cases o with
  | none => exact absurd (Option.some.inj h) hne
  | some e => exact h

theorem Contexts.step (ht : Taken m) (hc : Contexts m) (hstep : Step m m') : Contexts m' where
  expired j c' hat hexpired := by
    obtain ⟨-, -, hfresh⟩ | ⟨c, hc', hchange⟩ := hstep.change hat
    · exact absurd (hfresh.symm.trans hexpired) nofun
    · obtain ⟨herr, hsame⟩ | ⟨herr, -⟩ | ⟨herr, -⟩ := hchange.context
      · exact herr ▸ hc.expired j c hc' (hsame ▸ hexpired)
      · exact herr ▸ nofun
      · exact herr ▸ nofun
  deadline j c' hat hdeadline := by
    obtain ⟨-, hfresh, -⟩ | ⟨c, hc', hchange⟩ := hstep.change hat
    · exact absurd (hfresh.symm.trans hdeadline) nofun
    · obtain ⟨herr, hsame⟩ | ⟨-, hexpired⟩ | ⟨herr, hsame, -⟩ := hchange.context
      · exact hsame ▸ hc.deadline j c hc' (herr ▸ hdeadline)
      · exact hexpired
      · exact hsame ▸ hc.deadline j c hc' (of_getD (herr.symm.trans hdeadline) nofun)
  canceled j c' hat hcanceled := by
    obtain ⟨-, hfresh, -⟩ | ⟨c, hc', hchange⟩ := hstep.change hat
    · exact absurd (hfresh.symm.trans hcanceled) nofun
    · obtain ⟨herr, -⟩ | ⟨herr, -⟩ | ⟨-, -, k, st, hk, htaken⟩ := hchange.context
      · exact (hc.canceled j c hc' (herr ▸ hcanceled)).step hstep
      · exact (hc.canceled j c hc' (of_getD (herr.symm.trans hcanceled) nofun)).step hstep
      · exact (ht.out k j st hk htaken).step hstep

theorem Contexts.of_reachable (h : Reachable m) : Contexts m := by
  induction h with
  | refl => exact .new
  | tail hrun hstep ih => exact ih.step (.of_reachable hrun) hstep

theorem Contexts.deadline_or_out (hc : Contexts m) (hat : m.started[j]? = some c) (hexpired : c.expired = true) :
    c.err = some .deadlineExceeded ∨ Out m j := by
  cases herr : c.err with
  | none => exact absurd herr (hc.expired j c hat hexpired)
  | some e =>
    cases e with
    | deadlineExceeded => exact .inl rfl
    | canceled => exact .inr (hc.canceled j c hat herr)

/-- A session whose waiter has returned is out of the map. -/
def Forgotten (m : Manager) : Prop :=
  ∀ (j : ℕ) (c : Session), m.started[j]? = some c → c.waiter = .finished → Out m j

theorem Step.out_of_forget (hstep : Step m m') (hat : m.started[j]? = some c)
    (hwaiter : c.waiter ≠ .unstarted) (hsessions : m'.sessions = m.sessions.erase c.handle) : Out m' j := by
  obtain ⟨c', hat', hlater⟩ := hstep.later hat
  refine ⟨c', hat', hlater.started hwaiter, ?_⟩
  rw [hsessions, hlater.handle, getElem?_erase_eq, if_pos rfl]
  exact nofun

theorem Forgotten.step (hc : Contexts m) (hf : Forgotten m) (hstep : Step m m')
    (htimely : Timely m m') : Forgotten m' := by
  intro j c' hat hfinished
  obtain ⟨hfresh, -⟩ | ⟨c, hc', hchange⟩ := hstep.change hat
  · exact absurd (hfresh.symm.trans hfinished) nofun
  · obtain hold | ⟨hchecking, herr⟩ | ⟨hforget, hsessions⟩ := hchange.finished hfinished
    · exact (hf j c hc' hold).step hstep
    · refine .step ?_ hstep
      have hwaiter : c.waiter ≠ .unstarted := hchecking ▸ nofun
      cases htimely j c c' hc' hat hchecking (hfinished ▸ nofun) with
      | inl hexpired => exact (hc.deadline_or_out hc' hexpired).resolve_left herr
      | inr hsession => exact ⟨c, hc', hwaiter, hsession⟩
    · exact hstep.out_of_forget hc' (hforget ▸ nofun) hsessions

theorem ReachableTimely.reachable (h : ReachableTimely m) : Reachable m :=
  ReflTransGen.mono (fun _ _ hstep => hstep.1) _ _ h

theorem Forgotten.of_reachableTimely (h : ReachableTimely m) : Forgotten m := by
  induction h with
  | refl => exact fun _ _ hat => nomatch hat
  | tail hrun hstep ih =>
    exact ih.step (.of_reachable (ReachableTimely.reachable hrun)) hstep.1 hstep.2

theorem Forgotten.not_leaked (hf : Forgotten m) (j : ℕ) : ¬ m.Leaked j := by
  intro hleaked
  obtain ⟨c, hat, hfinished, -⟩ := id hleaked
  exact (hf j c hat hfinished).not_leaked hleaked

/-- A session that is out of the map or whose waiter is about to take it out. -/
def Leaving (m : Manager) (j : ℕ) : Prop :=
  Out m j ∨ ∃ c, m.started[j]? = some c ∧ c.waiter = .forgetting

theorem Leaving.step (hl : Leaving m j) (hstep : Step m m') : Leaving m' j := by
  cases hl with
  | inl hout => exact .inl (hout.step hstep)
  | inr hforget =>
    obtain ⟨c, hat, hforget⟩ := hforget
    obtain ⟨c', hat', hchange⟩ := hstep.changed hat
    cases hchange.forgetting hforget with
    | inl hstill => exact .inr ⟨c', hat', hstill⟩
    | inr hsessions => exact .inl (hstep.out_of_forget hat (hforget ▸ nofun) hsessions)

theorem Leaving.run (hl : Leaving m j) (hrun : ReflTransGen Step m m') : Leaving m' j := by
  induction hrun with
  | refl => exact hl
  | tail _ hstep ih => exact ih.step hstep

theorem Leaving.not_leaked (hl : Leaving m j) : ¬ m.Leaked j := by
  cases hl with
  | inl hout => exact hout.not_leaked
  | inr hforget =>
    intro hleaked
    obtain ⟨c, hat, hforget⟩ := hforget
    obtain ⟨c', hat', hfinished, -⟩ := hleaked
    cases hat.symm.trans hat'
    exact absurd (hforget.symm.trans hfinished) nofun

/-- A look at `ctx.Err()` after the deadline ends with the session out of the map. -/
theorem Contexts.leaving_of_check (hc : Contexts m) (hstep : Step m m')
    (hat : m.started[j]? = some c) (hchecking : c.waiter = .checking) (hexpired : c.expired = true)
    (hlooked : ∀ c', m'.started[j]? = some c' → c'.waiter ≠ .checking) : Leaving m' j := by
  cases hc.deadline_or_out hat hexpired with
  | inr hout => exact .inl (hout.step hstep)
  | inl hdeadline =>
    obtain ⟨c', hat', hchange⟩ := hstep.changed hat
    refine .inr ⟨c', hat', ?_⟩
    have hleft := hlooked c' hat'
    cases hchange with
    | own hstep =>
      cases hstep with
      | checkExpired => rfl
      | checkOther _ herr => exact absurd hdeadline herr
      | exit | expire => exact absurd hchecking hleft
      | reap hat | finalize hat => exact absurd (hchecking.symm.trans hat) nofun
    | inserted hnew => exact absurd (hchecking.symm.trans hnew) nofun
    | forgotten _ hforget => exact absurd (hchecking.symm.trans hforget) nofun
    | none | canceled | received => exact absurd hchecking hleft

private theorem leaked_of_check (hat : m.started[j]? = some c)
    (hchecking : c.waiter = .checking) (herr : c.err ≠ some .deadlineExceeded)
    (hsession : m.sessions[c.handle]? = some j) :
    ∃ m₁ m₂, Step m m₁ ∧ (∀ c', m₁.started[j]? = some c' → c'.waiter ≠ .checking) ∧
      ReflTransGen Step m₁ m₂ ∧ m₂.Leaked j := by
  have hat₁ := @getElem?_set_self_of_getElem? _ _ _ _ { c with waiter := .finished } hat
  refine ⟨_, _, .session hat (.checkOther hchecking herr), fun c' hat' => ?_,
    .single (.session hat₁ .expire), _, getElem?_set_self_of_getElem? hat₁, rfl, rfl, hsession⟩
  cases hat₁.symm.trans hat'
  exact nofun

theorem Taken.stop_eq (hm : Named m) (ht : Taken m) (hs : Served m) {k' : ℕ} {st st' : Stop}
    (hat : m.stops[k]? = some st) (hat' : m.stops[k']? = some st') (hok : st.Succeeded)
    (hok' : st'.Succeeded) (hhandle : st.handle = st'.handle) : k = k' := by
  obtain ⟨j, htaken⟩ := hs st (mem_of_getElem? hat) hok
  obtain ⟨j', htaken'⟩ := hs st' (mem_of_getElem? hat') hok'
  obtain ⟨c, hc, hown, -⟩ := ht.owned k j st hat htaken
  obtain ⟨c', hc', hown', -⟩ := ht.owned k' j' st' hat' htaken'
  obtain rfl := hm.index_eq hc hc' (hown.trans (hhandle.trans hown'.symm))
  exact ht.once k k' j st st' hat hat' htaken htaken'

theorem Taken.stop_owner (hm : Named m) (ht : Taken m) (hs : Served m) {st : Stop}
    (hat : m.stops[k]? = some st) (hok : st.Succeeded) :
    (∃ c ∈ m.started, c.handle = st.handle) ∧ ∀ c ∈ m.started, c.handle = st.handle → st.uid = 0 ∨ st.uid = c.uid := by
  obtain ⟨j, htaken⟩ := hs st (mem_of_getElem? hat) hok
  obtain ⟨c, hc, hown, howner⟩ := ht.owned k j st hat htaken
  refine ⟨⟨c, mem_of_getElem? hc, hown⟩, fun d hd hhandle => ?_⟩
  obtain ⟨j', hj'⟩ := mem_iff_getElem?.mp hd
  obtain rfl := hm.index_eq hc hj' (hown.trans hhandle.symm)
  cases hc.symm.trans hj'
  exact howner

/-- A stop that returns an error at the lock has changed no session. -/
theorem Step.unchanged_of_refused (hstep : Step m m') {uid : UInt32} {handle : String}
    {taken : Option ℕ} {e : StopError} (hat : m.stops[k]? = some ⟨uid, handle, .begun⟩)
    (hat' : m'.stops[k]? = some ⟨uid, handle, .returned taken (.error e)⟩) :
    m'.started = m.started ∧ m'.sessions = m.sessions := by
  have hnow : m'.stops[k]? ≠ m.stops[k]? := by
    rw [hat, hat']
    exact nofun
  have hset {k' : ℕ} {st : Stop} (h : m'.stops = m.stops.set k' st) :
      k = k' ∧ st = ⟨uid, handle, .returned taken (.error e)⟩ := by
    rw [h] at hat' hnow
    cases getElem?_set_cases hat' with
    | inl hself => exact ⟨hself.1, hself.2.symm⟩
    | inr hother => exact absurd (getElem?_set_ne (Ne.symm hother.1)) hnow
  cases hstep with
  | startFails | launch | insert | session | forget => exact absurd rfl hnow
  | stop | refuse | timeout => exact ⟨rfl, rfl⟩
  | take | cancel => exact nomatch (hset rfl).2
  | receive hk =>
    obtain ⟨rfl, -⟩ := hset rfl
    exact nomatch hat.symm.trans hk

/-- The sessions in every reachable state: a handle is stopped at most once, and by root or by the
user who started it; a refused stop changes no session. No session leaks in a run of timely steps,
and a look at `ctx.Err()` can be followed by a leak exactly when the session is then in the map
and its deadline has not passed. -/
theorem captures_owned_and_forgotten (hm : Reachable m) :
    (∀ (k k' : ℕ) (st st' : Stop), m.stops[k]? = some st → m.stops[k']? = some st' →
      st.Succeeded → st'.Succeeded → st.handle = st'.handle → k = k') ∧
    (∀ (k : ℕ) (st : Stop), m.stops[k]? = some st → st.Succeeded →
      (∃ c ∈ m.started, c.handle = st.handle) ∧
        ∀ c ∈ m.started, c.handle = st.handle → st.uid = 0 ∨ st.uid = c.uid) ∧
    (∀ (m' : Manager) (k : ℕ) (uid : UInt32) (handle : String) (taken : Option ℕ) (e : StopError),
      Step m m' → m.stops[k]? = some ⟨uid, handle, .begun⟩ →
      m'.stops[k]? = some ⟨uid, handle, .returned taken (.error e)⟩ →
      m'.started = m.started ∧ m'.sessions = m.sessions) ∧
    (ReachableTimely m → ∀ j, ¬ m.Leaked j) ∧
    (∀ (j : ℕ) (c : Session), m.started[j]? = some c → c.waiter = .checking →
      ((∃ m₁ m₂, Step m m₁ ∧ (∀ c', m₁.started[j]? = some c' → c'.waiter ≠ .checking) ∧
        ReflTransGen Step m₁ m₂ ∧ m₂.Leaked j) ↔ m.sessions[c.handle]? = some j ∧ c.expired = false)) := by
  have hnamed := Named.of_reachable hm
  have htaken := Taken.of_reachable hm
  have hserved := Served.of_reachable hm
  have hcontexts := Contexts.of_reachable hm
  refine ⟨fun k k' st st' hat hat' hok hok' hhandle =>
      htaken.stop_eq hnamed hserved hat hat' hok hok' hhandle,
    fun k st hat hok => htaken.stop_owner hnamed hserved hat hok,
    fun m' k uid handle taken e hstep hat hat' => hstep.unchanged_of_refused hat hat',
    fun htimely j => (Forgotten.of_reachableTimely htimely).not_leaked j,
    fun j c hat hchecking => ⟨fun hleak => ?_, fun hopen => ?_⟩⟩
  · obtain ⟨m₁, m₂, hstep, hlooked, hrun, hleaked⟩ := hleak
    constructor
    · by_contra hsession
      have hout : Out m j := ⟨c, hat, hchecking ▸ nofun, hsession⟩
      exact ((hout.step hstep).run hrun).not_leaked hleaked
    · by_contra hexpired
      have hleaving := hcontexts.leaving_of_check hstep hat hchecking
        ((Bool.not_eq_false _).mp hexpired) hlooked
      exact (hleaving.run hrun).not_leaked hleaked
  · obtain ⟨hsession, hexpired⟩ := hopen
    refine leaked_of_check hat hchecking (fun herr => ?_) hsession
    exact absurd ((hcontexts.deadline j c hat herr).symm.trans hexpired) nofun

theorem timely_of_running (h : ∀ c ∈ m.started, c.waiter ≠ .checking) : Timely m m' :=
  fun _ c _ hat _ hchecking => absurd hchecking (h c (mem_of_getElem? hat))

/-- A user's stop of their own running capture, whose waiter then looks at `ctx.Err()` and ends. -/
theorem captures_owned_and_forgotten_stopped :
    ∃ m : Manager, (∃ st ∈ m.stops, st.Succeeded) ∧ (∃ c ∈ m.started, c.waiter = .finished) ∧
      ∀ j, ¬ m.Leaked j := by
  have hrun : ∃ m : Manager, ReachableTimely m ∧ (∃ st ∈ m.stops, st.Succeeded) ∧
      ∃ c ∈ m.started, c.waiter = .finished := by
    refine ⟨_, .head ⟨.launch 501 "/captures/501/netcap-1.pcap", timely_of_running (by decide)⟩
      (.head ⟨.insert (j := 0) rfl rfl, timely_of_running (by decide)⟩
      (.head ⟨.stop 501 (handleOf 1), timely_of_running (by decide)⟩
      (.head ⟨.take (k := 0) (j := 0) rfl ?_ ?_ rfl, timely_of_running (by decide)⟩
      (.head ⟨.cancel (k := 0) (j := 0) rfl rfl, timely_of_running (by decide)⟩
      (.head ⟨.session (j := 0) rfl .exit, timely_of_running (by decide)⟩
      (.head ⟨.session (j := 0) rfl (.reap rfl rfl), timely_of_running (by decide)⟩
      (.head ⟨.session (j := 0) rfl (.finalize rfl ⟨none, none, 24⟩), timely_of_running (by decide)⟩
      (.head ⟨.session (j := 0) rfl (.checkOther rfl nofun), ?_⟩
      (.single ⟨.receive (k := 0) (j := 0) rfl rfl rfl, timely_of_running (by decide)⟩))))))))),
      ⟨_, .head _, _, _, rfl⟩, _, .head _, rfl⟩
    · decide +kernel
    · decide +kernel
    · -- the session is no longer in the map when its waiter looks
      intro j c _ hat _ _ _
      cases mem_singleton.mp (mem_of_getElem? hat)
      refine .inr fun hin => ?_
      cases hin.symm.trans Std.ExtTreeMap.getElem?_erase_self
  obtain ⟨m, htimely, hok, hfinished⟩ := hrun
  exact ⟨m, hok, hfinished, (captures_owned_and_forgotten htimely.reachable).2.2.2.1 htimely⟩

/-- tcpdump ends before its deadline: its waiter does not forget the session, which stays in the
map when the deadline passes. -/
theorem early_exit_leaks_session : ∃ (m : Manager) (j : ℕ), Reachable m ∧ m.Leaked j := by
  refine ⟨_, 0, .head (.launch 501 "/captures/501/netcap-1.pcap")
    (.head (.insert (j := 0) rfl rfl)
    (.head (.session (j := 0) rfl .exit)
    (.head (.session (j := 0) rfl (.reap rfl rfl))
    (.head (.session (j := 0) rfl (.finalize rfl ⟨none, none, 24⟩))
    (.head (.session (j := 0) rfl (.checkOther rfl nofun))
    (.single (.session (j := 0) rfl .expire))))))), _, rfl, rfl, rfl, ?_⟩
  exact Std.ExtTreeMap.getElem?_insert_self

end Spectra.Helper.NetCapture
