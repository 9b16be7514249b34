import Spectra.Daemonclient.Client
import Spectra.Library.GoRuntime

/-! Replies reach the call that registered their id. -/
namespace Spectra.Daemonclient
open Library List Option Call State

namespace Call

def reg? : Call → Option Reg
  | writing reg | waiting reg | closing reg | leaving reg _ | returned reg _ => some reg
  | begun | refused | entering => none

def live? : Call → Option Reg
  | writing reg | waiting reg | closing reg | leaving reg _ => some reg
  | returned _ _ | begun | refused | entering => none

def open? : Call → Option Reg
  | writing reg | waiting reg | closing reg => some reg
  | leaving _ _ | returned _ _ | begun | refused | entering => none

def result? : Call → Option (Reg × Outcome)
  | leaving reg o | returned reg o => some (reg, o)
  | writing _ | waiting _ | closing _ | begun | refused | entering => none

theorem reg?_of_result? {c : Call} {reg : Reg} {o : Outcome} (h : c.result? = some (reg, o)) : c.reg? = some reg := by
  cases c <;> simp_all [result?, reg?]

end Call

/-- The reply in a message, if it is one to the call with this id. -/
def replyTo (id : ℕ) : Option Msg → Option Reply
  | none => none
  | some msg => if msg.method = "" ∧ msg.id = some id then some msg.reply else none

namespace State
variable (s : State)

def at? {α : Type} (f : Call → Option α) (i : ℕ) : Option α := s.calls[i]?.bind f

/-- The first reply to a call that was looked up after it registered. -/
def first (reg : Reg) : Option Reply := (s.seen.drop reg.since).findSome? (replyTo reg.id)

/-- The channel of a call holds its first reply, or `readLoop` is about to send it. -/
def Delivered (reg : Reg) : Prop :=
  match s.first reg with
  | none => s.chans[reg.ch]? = some none ∧ ∀ r, s.readLoop ≠ .sending reg.ch r
  | some r => s.chans[reg.ch]? = some (some r) ∨
      s.chans[reg.ch]? = some none ∧ s.readLoop = .sending reg.ch r

end State

/-- A registration, with the number of channels made and of messages looked up. -/
structure RegOk (chans seen : ℕ) (reg : Reg) : Prop where
  id : reg.id = reg.ch + 1
  made : reg.ch < chans
  since : reg.since ≤ seen

/-- Every registration has a channel of its own. -/
structure Registered (s : State) : Prop where
  next : s.next = s.chans.length
  regs : ∀ i reg, s.at? Call.reg? i = some reg → RegOk s.chans.length s.seen.length reg
  distinct : ∀ i j reg reg', s.at? Call.reg? i = some reg → s.at? Call.reg? j = some reg' →
    reg.ch = reg'.ch → i = j

structure Inv (s : State) : Prop extends Registered s where
  sending : ∀ ch r, s.readLoop = .sending ch r → ch < s.chans.length
  pending : ∀ id ch, s.pending[id]? = some ch ↔
    ∃ i reg, s.at? Call.live? i = some reg ∧ reg.id = id ∧ reg.ch = ch
  delivered : ∀ i reg, s.at? Call.open? i = some reg → s.Delivered reg
  decoded : ∀ i reg r, s.at? Call.result? i = some (reg, .decoded r) → s.first reg = some r

section
variable {s t : State} {i : ℕ} {c c' : Call} {α : Type} {f : Call → Option α}

theorem at?_eq (h : s.calls[i]? = some c) : s.at? f i = f c := by
  rw [at?, h, bind_some]

theorem at?_set (h : s.calls[i]? = some c) (ht : t.calls = s.calls.set i c') (j : ℕ) :
    t.at? f j = if j = i then f c' else s.at? f j := by
  have hi := (List.getElem?_eq_some_iff.mp h).1
  rw [at?, ht]
  by_cases hj : j = i
  · subst hj
    simp [getElem?_set_self hi]
  · rw [getElem?_set_ne (Ne.symm hj), if_neg hj, at?]

theorem at?_set_of_eq (h : s.calls[i]? = some c) (ht : t.calls = s.calls.set i c')
    (hf : f c' = f c) (j : ℕ) : t.at? f j = s.at? f j := by
  rw [at?_set h ht]
  split
  · rename_i hj
    rw [hj, at?_eq h, hf]
  · rfl

theorem at?_append (ht : t.calls = s.calls ++ [c]) (hf : f c = none) (j : ℕ) : t.at? f j = s.at? f j := by
  rw [at?, at?, ht]
  rcases Nat.lt_trichotomy j s.calls.length with hlt | rfl | hgt
  · rw [getElem?_append_left hlt]
  · simp [hf]
  · rw [getElem?_eq_none (by simp; omega), getElem?_eq_none (by omega)]

variable {reg : Reg}

theorem at?_reg_of_live (h : s.at? live? i = some reg) : s.at? reg? i = some reg := by
  obtain ⟨c, hc, hlive⟩ := bind_eq_some_iff.mp h
  rw [at?_eq hc]
  cases c <;> simp_all [live?, reg?]

theorem at?_live_of_open (h : s.at? open? i = some reg) : s.at? live? i = some reg := by
  obtain ⟨c, hc, hopen⟩ := bind_eq_some_iff.mp h
  rw [at?_eq hc]
  cases c <;> simp_all [live?, open?]

theorem at?_reg_of_open (h : s.at? open? i = some reg) : s.at? reg? i = some reg :=
  at?_reg_of_live (at?_live_of_open h)

theorem at?_reg_of_result {o : Outcome} (h : s.at? result? i = some (reg, o)) : s.at? reg? i = some reg := by
  obtain ⟨c, hc, hresult⟩ := bind_eq_some_iff.mp h
  rw [at?_eq hc]
  exact reg?_of_result? hresult

end

variable {r : Reply}

section
variable {s t : State} {reg : Reg}

theorem RegOk.mono {chans seen chans' seen' : ℕ} (h : RegOk chans seen reg) (hc : chans ≤ chans')
    (hs : seen ≤ seen') : RegOk chans' seen' reg :=
  ⟨h.id, h.made.trans_le hc, h.since.trans hs⟩

theorem first_append {m : List (Option Msg)} (hseen : t.seen = s.seen ++ m) (hsince : reg.since ≤ s.seen.length) :
    t.first reg = (s.first reg).or (m.findSome? (replyTo reg.id)) := by
  rw [first, hseen, drop_append_of_le_length hsince, findSome?_append, first]

theorem delivered_none_iff (h : s.first reg = none) : s.Delivered reg ↔
    s.chans[reg.ch]? = some none ∧ ∀ r, s.readLoop ≠ .sending reg.ch r := by
  rw [Delivered, h]

theorem delivered_some_iff (h : s.first reg = some r) : s.Delivered reg ↔
    s.chans[reg.ch]? = some (some r) ∨ s.chans[reg.ch]? = some none ∧ s.readLoop = .sending reg.ch r := by
  rw [Delivered, h]

theorem delivered_congr (h : s.Delivered reg) (hfirst : t.first reg = s.first reg)
    (hchan : t.chans[reg.ch]? = s.chans[reg.ch]?)
    (hsend : ∀ r, t.readLoop = .sending reg.ch r ↔ s.readLoop = .sending reg.ch r) : t.Delivered reg := by
  simpa only [Delivered, hfirst, hchan, ne_eq, hsend] using h

theorem lookup_eq_sending {msg : Msg} {ch : ℕ} : s.lookup msg = .sending ch r ↔
    r = msg.reply ∧ ∃ id, msg.id = some id ∧ s.pending[id]? = some ch := by
  rw [State.lookup]
  cases h : msg.id.bind fun id => s.pending[id]? with
  | none =>
    simp only [reduceCtorEq, false_iff]
    rintro ⟨_, id, hid, hch⟩
    rw [hid, bind_some, hch] at h
    cases h
  | some ch' =>
    obtain ⟨id, hid, hch⟩ := bind_eq_some_iff.mp h
    simp only [ReadLoop.sending.injEq, hid, some.injEq, exists_eq_left', hch]
    constructor
    · rintro ⟨rfl, rfl⟩
      exact ⟨rfl, rfl⟩
    · rintro ⟨rfl, rfl⟩
      exact ⟨rfl, rfl⟩

variable (chans : List (Option Reply)) (ch : ℕ) (r : Reply)

private theorem getElem?_offer (k : ℕ) :
    (offer chans ch r)[k]? = if k = ch ∧ chans[k]? = some none then some (some r) else chans[k]? := by
  rw [offer]
  split
  · rename_i hempty
    by_cases hk : k = ch
    · subst hk
      rw [getElem?_set_self (List.getElem?_eq_some_iff.mp hempty).1, if_pos ⟨rfl, hempty⟩]
    · rw [getElem?_set_ne (Ne.symm hk), if_neg fun h => hk h.1]
  · rename_i hfull
    rw [if_neg]
    rintro ⟨rfl, hempty⟩
    exact hfull hempty

private theorem length_offer : (offer chans ch r).length = chans.length := by
  rw [offer]
  split
  · exact length_set
  · rfl

end

theorem Registered.congr {s t : State} (h : Registered s) (hnext : t.next = s.next)
    (hlen : t.chans.length = s.chans.length) (hseen : s.seen.length ≤ t.seen.length)
    (hreg : ∀ j, t.at? reg? j = s.at? reg? j) : Registered t := by
  refine ⟨by rw [hnext, hlen, h.next], fun j reg hj => ?_, fun j k reg reg' hj hk => ?_⟩
  · rw [hreg] at hj
    exact (h.regs j reg hj).mono hlen.ge hseen
  · rw [hreg] at hj hk
    exact h.distinct j k reg reg' hj hk

namespace Inv
variable {s t : State}

section
variable (h : Inv s)
include h

/-- A change of the calls that registers none, lets none return and receives nothing. -/
theorem of_calls {calls : List Call} (ht : t = { s with calls := calls })
    (hreg : ∀ j, t.at? reg? j = s.at? reg? j)
    (hlive : ∀ j, t.at? live? j = s.at? live? j)
    (hopen : ∀ j reg, t.at? open? j = some reg → s.at? open? j = some reg)
    (hdecoded : ∀ j reg r, t.at? result? j = some (reg, .decoded r) →
      s.at? result? j = some (reg, .decoded r)) : Inv t := by
  subst ht
  constructor
  · exact h.congr rfl rfl le_rfl hreg
  · exact h.sending
  · intro id ch
    simp only [hlive]
    exact h.pending id ch
  · intro j reg hj
    exact h.delivered j reg (hopen j reg hj)
  · intro j reg r hj
    exact h.decoded j reg r (hdecoded j reg r hj)

/-- A step of `readLoop` that sends nothing and sees no reply, or one of the dispatcher. -/
theorem of_loop {m : List (Option Msg)} (hnext : t.next = s.next)
    (hpending : t.pending = s.pending) (hchans : t.chans = s.chans) (hcalls : t.calls = s.calls)
    (hseen : t.seen = s.seen ++ m) (hm : ∀ id, m.findSome? (replyTo id) = none)
    (hsend : ∀ ch r, t.readLoop = .sending ch r ↔ s.readLoop = .sending ch r) : Inv t := by
  have hat {α : Type} (f : Call → Option α) (j : ℕ) : t.at? f j = s.at? f j := by
    rw [at?, at?, hcalls]
  have hfirst {reg : Reg} {j : ℕ} (hj : s.at? reg? j = some reg) :
      t.first reg = s.first reg := by
    rw [first_append hseen (h.regs j reg hj).since, hm, or_none]
  constructor
  · exact h.congr hnext (by rw [hchans]) (by simp [hseen]) (hat reg?)
  · intro ch r hr
    rw [hchans]
    exact h.sending ch r ((hsend ch r).mp hr)
  · intro id ch
    simp only [hat, hpending]
    exact h.pending id ch
  · intro j reg hj
    rw [hat] at hj
    exact delivered_congr (h.delivered j reg hj) (hfirst (at?_reg_of_open hj))
      (by rw [hchans]) (hsend reg.ch)
  · intro j reg r hj
    rw [hat] at hj
    rw [hfirst (at?_reg_of_result hj)]
    exact h.decoded j reg r hj

variable {i : ℕ}

theorem advance {c c' : Call} (hcall : s.calls[i]? = some c) (hadvance : Advance s c c') :
    Inv { s with calls := s.calls.set i c' } := by
  refine h.of_calls rfl (fun j => at?_set_of_eq hcall rfl (by cases hadvance <;> rfl) j)
    (fun j => at?_set_of_eq hcall rfl (by cases hadvance <;> rfl) j) ?_ ?_
  · intro j reg hj
    rw [at?_set hcall rfl] at hj
    split at hj
    · rename_i hji
      rw [hji, at?_eq hcall]
      cases hadvance <;> simp_all [open?]
    · exact hj
  · intro j reg r hj
    rw [at?_set hcall rfl] at hj
    split at hj
    · exact absurd hj (by cases hadvance <;> simp [result?])
    · exact hj

theorem call : Inv { s with calls := s.calls ++ [.begun] } := by
  have hat {α : Type} {f : Call → Option α} (hf : f .begun = none) (j : ℕ) :
      at? { s with calls := s.calls ++ [.begun] } f j = s.at? f j := at?_append rfl hf j
  refine h.of_calls rfl (hat rfl) (hat rfl) ?_ ?_
  · intro j reg hj
    rwa [hat rfl] at hj
  · intro j reg r hj
    rwa [hat rfl] at hj

theorem register (hcall : s.calls[i]? = some .entering) : Inv (s.register i) := by
  have hat {α : Type} (f : Call → Option α) (j : ℕ) : (s.register i).at? f j =
      if j = i then f (.writing ⟨s.next + 1, s.chans.length, s.seen.length⟩) else s.at? f j :=
    at?_set hcall rfl j
  have hlen : (s.register i).chans.length = s.chans.length + 1 := length_append
  refine ⟨⟨by rw [hlen, ← h.next]; rfl, ?_, ?_⟩, ?_, ?_, ?_, ?_⟩
  · intro j reg hj
    rw [hat] at hj
    rw [hlen]
    split at hj
    · cases hj
      exact ⟨congrArg (· + 1) h.next, Nat.lt_succ_self _, le_rfl⟩
    · exact (h.regs j reg hj).mono (Nat.le_succ _) le_rfl
  · intro j k reg reg' hj hk hch
    rw [hat] at hj hk
    split at hj <;> split at hk
    · rename_i hji hki
      rw [hji, hki]
    · cases hj
      exact absurd hch (h.regs k reg' hk).made.ne'
    · cases hk
      exact absurd hch (h.regs j reg hj).made.ne
    · exact h.distinct j k reg reg' hj hk hch
  · intro ch r hr
    rw [hlen]
    exact Nat.lt_succ_of_lt (h.sending ch r hr)
  · intro id ch
    have hpending : (s.register i).pending[id]? =
        if s.next + 1 = id then some s.chans.length else s.pending[id]? := getElem?_insert_eq ..
    rw [hpending]
    constructor
    · intro hp
      split at hp
      · rename_i hid
        refine ⟨i, ⟨s.next + 1, s.chans.length, s.seen.length⟩, ?_, hid, some.inj hp⟩
        rw [hat, if_pos rfl]
        rfl
      · obtain ⟨j, reg, hj, hid, hch⟩ := (h.pending id ch).mp hp
        have hji : j ≠ i := by
          rintro rfl
          rw [at?_eq hcall] at hj
          cases hj
        exact ⟨j, reg, by rwa [hat, if_neg hji], hid, hch⟩
    · rintro ⟨j, reg, hj, rfl, rfl⟩
      rw [hat] at hj
      split at hj
      · cases hj
        rw [if_pos rfl]
      · have hreg := h.regs j reg (at?_reg_of_live hj)
        have hid : s.next + 1 ≠ reg.id := by
          rw [h.next, hreg.id]
          exact fun heq => hreg.made.ne' (Nat.succ.inj heq)
        rw [if_neg hid]
        exact (h.pending _ _).mpr ⟨j, reg, hj, rfl, rfl⟩
  · intro j reg hj
    rw [hat] at hj
    split at hj
    · cases hj
      refine (delivered_none_iff (by simp [State.first, State.register])).mpr ⟨?_, ?_⟩
      · exact getElem?_concat_length
      · exact fun r hr => lt_irrefl _ (h.sending _ r hr)
    · have hmade := (h.regs j reg (at?_reg_of_open hj)).made
      exact delivered_congr (h.delivered j reg hj) rfl (getElem?_append_left hmade)
        (fun _ => Iff.rfl)
  · intro j reg r hj
    rw [hat] at hj
    split at hj
    · cases hj
    · exact h.decoded j reg r hj

theorem first_of_ready {reg : Reg} (hopen : s.at? open? i = some reg)
    (hready : s.chans[reg.ch]? = some (some r)) : s.first reg = some r := by
  have hd := h.delivered i reg hopen
  cases hfirst : s.first reg with
  | none =>
    rw [delivered_none_iff hfirst, hready] at hd
    cases hd.1
  | some r' =>
    rw [delivered_some_iff hfirst, hready] at hd
    rcases hd with heq | ⟨heq, _⟩
    · rw [some.inj heq]
    · cases heq

theorem receive {c : Call} {reg : Reg} (hcall : s.calls[i]? = some c)
    (hselect : c = .waiting reg ∨ c = .closing reg) (hready : s.chans[reg.ch]? = some (some r)) :
    Inv (s.receive i reg r) := by
  have hopen : s.at? open? i = some reg := by
    rw [at?_eq hcall]
    rcases hselect with rfl | rfl <;> rfl
  have hat {α : Type} (f : Call → Option α) (j : ℕ) : (s.receive i reg r).at? f j =
      if j = i then f (.leaving reg (.decoded r)) else s.at? f j := at?_set hcall rfl j
  have hregs (j : ℕ) : (s.receive i reg r).at? reg? j = s.at? reg? j :=
    at?_set_of_eq hcall rfl (by rcases hselect with rfl | rfl <;> rfl) j
  have hlives (j : ℕ) : (s.receive i reg r).at? live? j = s.at? live? j :=
    at?_set_of_eq hcall rfl (by rcases hselect with rfl | rfl <;> rfl) j
  have hlen : (s.receive i reg r).chans.length = s.chans.length := length_set
  constructor
  · exact h.congr rfl hlen le_rfl hregs
  · rw [hlen]
    exact h.sending
  · intro id ch
    simp only [hlives]
    exact h.pending id ch
  · intro j reg' hj
    rw [hat] at hj
    split at hj
    · cases hj
    · rename_i hji
      have hne : reg.ch ≠ reg'.ch := fun heq =>
        hji (h.distinct i j reg reg' (at?_reg_of_open hopen) (at?_reg_of_open hj) heq).symm
      exact delivered_congr (h.delivered j reg' hj) rfl (getElem?_set_ne hne)
        (fun _ => Iff.rfl)
  · intro j reg' r' hj
    rw [hat] at hj
    split at hj
    · obtain ⟨rfl, hr⟩ := Prod.mk.inj (some.inj hj)
      obtain rfl := Outcome.decoded.inj hr
      exact h.first_of_ready hopen hready
    · exact h.decoded j reg' r' hj

theorem leave {reg : Reg} {o : Outcome} (hcall : s.calls[i]? = some (.leaving reg o)) : Inv (s.leave i reg o) := by
  have hcalls : (s.leave i reg o).calls = s.calls.set i (.returned reg o) := rfl
  have hregs (j : ℕ) : (s.leave i reg o).at? reg? j = s.at? reg? j :=
    at?_set_of_eq hcall hcalls rfl j
  have hlives (j : ℕ) : (s.leave i reg o).at? live? j =
      if j = i then none else s.at? live? j := at?_set hcall hcalls j
  have hlive : s.at? live? i = some reg := at?_eq hcall
  constructor
  · exact h.congr rfl rfl le_rfl hregs
  · exact h.sending
  · intro id ch
    have hpending : (s.leave i reg o).pending[id]? =
        if reg.id = id then none else s.pending[id]? := getElem?_erase_eq ..
    rw [hpending]
    constructor
    · intro hp
      split at hp
      · cases hp
      · rename_i hid
        obtain ⟨j, reg', hj, hid', hch⟩ := (h.pending id ch).mp hp
        have hji : j ≠ i := by
          rintro rfl
          obtain rfl := mem_unique hlive hj
          exact hid hid'
        exact ⟨j, reg', by rwa [hlives, if_neg hji], hid', hch⟩
    · rintro ⟨j, reg', hj, rfl, rfl⟩
      rw [hlives] at hj
      split at hj
      · cases hj
      · rename_i hji
        have hreg := h.regs i reg (at?_reg_of_live hlive)
        have hreg' := h.regs j reg' (at?_reg_of_live hj)
        have hid : reg.id ≠ reg'.id := by
          intro heq
          rw [hreg.id, hreg'.id] at heq
          exact hji (h.distinct j i reg' reg (at?_reg_of_live hj) (at?_reg_of_live hlive) (Nat.succ.inj heq).symm)
        rw [if_neg hid]
        exact (h.pending _ _).mpr ⟨j, reg', hj, rfl, rfl⟩
  · intro j reg' hj
    rw [at?_set_of_eq hcall hcalls rfl] at hj
    exact h.delivered j reg' hj
  · intro j reg' r hj
    rw [at?_set_of_eq hcall hcalls rfl] at hj
    exact h.decoded j reg' r hj

theorem lookup {msg : Msg} (hmsg : s.readLoop = .handling msg) (hmethod : msg.method = "") :
    Inv (s.handled msg (s.lookup msg)) := by
  constructor
  · exact h.congr rfl rfl (by simp [handled]) fun _ => rfl
  · intro ch r hr
    obtain ⟨_, id, _, hch⟩ := lookup_eq_sending.mp hr
    obtain ⟨j, reg, hj, _, rfl⟩ := (h.pending id ch).mp hch
    exact (h.regs j reg (at?_reg_of_live hj)).made
  · exact h.pending
  · intro j reg hj
    have hlive := at?_live_of_open hj
    have hreg := h.regs j reg (at?_reg_of_live hlive)
    have hfirst : (s.handled msg (s.lookup msg)).first reg =
        (s.first reg).or ([some msg].findSome? (replyTo reg.id)) := first_append rfl hreg.since
    have hd := h.delivered j reg hj
    cases hold : s.first reg with
    | some r =>
      rw [hold] at hfirst
      rw [delivered_some_iff hold, hmsg] at hd
      exact (delivered_some_iff hfirst).mpr (.inl (hd.resolve_right fun hno => nomatch hno.2))
    | none =>
      rw [delivered_none_iff hold] at hd
      by_cases hid : msg.id = some reg.id
      · have hpending := (h.pending reg.id reg.ch).mpr ⟨j, reg, hlive, rfl, rfl⟩
        have hreply : replyTo reg.id (some msg) = some msg.reply := if_pos ⟨hmethod, hid⟩
        rw [hold, findSome?_singleton, hreply] at hfirst
        exact (delivered_some_iff hfirst).mpr
          (.inr ⟨hd.1, lookup_eq_sending.mpr ⟨rfl, reg.id, hid, hpending⟩⟩)
      · have hreply : replyTo reg.id (some msg) = none := if_neg fun hand => hid hand.2
        rw [hold, findSome?_singleton, hreply] at hfirst
        refine (delivered_none_iff hfirst).mpr ⟨hd.1, fun r hr => ?_⟩
        obtain ⟨_, id, hid', hch⟩ := lookup_eq_sending.mp hr
        obtain ⟨k, reg', hk, rfl, hch'⟩ := (h.pending id reg.ch).mp hch
        rw [(h.regs k reg' (at?_reg_of_live hk)).id, hch', ← hreg.id] at hid'
        exact hid hid'
  · intro j reg r hj
    have hreg := h.regs j reg (at?_reg_of_result hj)
    rw [first_append (s := s) rfl hreg.since, h.decoded j reg r hj, some_or]

theorem send {ch : ℕ} (hsend : s.readLoop = .sending ch r) : Inv (s.send ch r) := by
  have hlen : (s.send ch r).chans.length = s.chans.length := length_offer ..
  have hchan (k : ℕ) : (s.send ch r).chans[k]? =
      if k = ch ∧ s.chans[k]? = some none then some (some r) else s.chans[k]? := getElem?_offer ..
  constructor
  · exact h.congr rfl hlen le_rfl fun _ => rfl
  · intro ch' r' hr
    cases hr
  · exact h.pending
  · intro j reg hj
    have hd := h.delivered j reg hj
    cases hfirst : s.first reg with
    | none =>
      rw [delivered_none_iff hfirst] at hd
      have hfirst' : (s.send ch r).first reg = none := hfirst
      refine (delivered_none_iff hfirst').mpr ⟨?_, fun r' hr => nomatch hr⟩
      rw [hchan, if_neg, hd.1]
      rintro ⟨rfl, _⟩
      exact hd.2 r hsend
    | some r' =>
      rw [delivered_some_iff hfirst] at hd
      have hfirst' : (s.send ch r).first reg = some r' := hfirst
      refine (delivered_some_iff hfirst').mpr (.inl ?_)
      rw [hchan]
      rcases hd with hfull | ⟨hempty, hsend'⟩
      · rw [hfull, if_neg fun hand => nomatch hand.2]
      · obtain ⟨rfl, rfl⟩ := ReadLoop.sending.inj (hsend.symm.trans hsend')
        rw [if_pos ⟨rfl, hempty⟩]
  · exact h.decoded

theorem hear {msg : Msg} (hmsg : s.readLoop = .handling msg) (hmethod : msg.method ≠ "") :
    Inv (s.handled msg (s.hear msg)) := by
  refine h.of_loop (m := [some msg]) rfl rfl rfl rfl rfl ?_ ?_
  · intro id
    rw [findSome?_singleton]
    exact if_neg fun hand => hmethod hand.1
  · intro ch r
    have hold : s.readLoop ≠ .sending ch r := by simp [hmsg]
    have hnew : s.hear msg ≠ .sending ch r := by
      rw [State.hear]
      split <;> exact fun heq => nomatch heq
    exact iff_of_false hnew hold

theorem step (hstep : Step s t) : Inv t := by
  cases hstep with
  | call => exact h.call
  | advance hcall hadvance => exact h.advance hcall hadvance
  | register hcall => exact h.register hcall
  | receive hcall hselect hready => exact h.receive hcall hselect hready
  | leave hcall => exact h.leave hcall
  | hear hmsg hmethod => exact h.hear hmsg hmethod
  | lookup hmsg hmethod => exact h.lookup hmsg hmethod
  | send hsend => exact h.send hsend
  | malformed hreading =>
    exact h.of_loop (m := [none]) rfl rfl rfl rfl rfl (fun _ => rfl) (fun _ _ => Iff.rfl)
  | read hloop | readFailed hloop | queue hloop | hangUp hloop =>
    exact h.of_loop rfl rfl rfl rfl (append_nil _).symm (fun _ => rfl) (by simp [hloop])
  | onNotification | pop | run | dispatched =>
    exact h.of_loop rfl rfl rfl rfl (append_nil _).symm (fun _ => rfl) (fun _ _ => Iff.rfl)

end

theorem dialed : Inv .dialed where
  next := rfl
  sending := fun _ _ hr => nomatch hr
  regs := fun _ _ hj => nomatch hj
  distinct := fun _ _ _ _ hj => nomatch hj
  pending := by
    intro id ch
    refine iff_of_false (fun heq => nomatch heq) ?_
    rintro ⟨j, reg, hj, _⟩
    cases hj
  delivered := fun _ _ hj => nomatch hj
  decoded := fun _ _ _ hj => nomatch hj

theorem of_reachable (h : Reachable s) : Inv s := by
  induction h with
  | refl => exact dialed
  | tail _ hstep ih =>
    rcases hstep with hstep | rfl
    · exact ih.step hstep
    · exact ih.of_loop rfl rfl rfl rfl (append_nil _).symm (fun _ => rfl)
        (fun _ _ => Iff.rfl)

end Inv
end Spectra.Daemonclient
