import Spectra.Hostwatch.EngineKey

/-! Episodes of a key. -/
namespace Spectra.Hostwatch
open List

def SameAlert (p : String × ℤ) (l : List Event) : Prop :=
  ∀ ev ∈ l, (ev.alert.id, ev.alert.firedAt) = p

/-- `fired updated*`, all of one alert. -/
def OpenEpisode (p : String × ℤ) (l : List Event) : Prop :=
  SameAlert p l ∧ ∃ f us, l = f :: us ∧ f.type = .fired ∧ ∀ u ∈ us, u.type = .updated

/-- `fired updated* resolved`, all of one alert. -/
def ClosedEpisode (l : List Event) : Prop :=
  ∃ p o r, l = o ++ [r] ∧ OpenEpisode p o ∧ SameAlert p [r] ∧ r.type = .resolved

/-- Closed episodes, and an open one last if the key has an alert. -/
def EpisodesUpTo (l : List Event) : Option (String × ℤ) → Prop
  | none => ∃ eps, l = List.flatten eps ∧ ∀ ep ∈ eps, ClosedEpisode ep
  | some p => ∃ eps o, l = List.flatten eps ++ o ∧ (∀ ep ∈ eps, ClosedEpisode ep) ∧ OpenEpisode p o

/-- A word of `(fired updated* resolved)*`, possibly cut off, one alert per episode. -/
def Episodes (l : List Event) : Prop := ∃ p, EpisodesUpTo l p

namespace EpisodesUpTo
variable {l : List Event} {ev : Event} {p : String × ℤ}

theorem nil : EpisodesUpTo [] none := ⟨[], rfl, by simp⟩

theorem fired (h : EpisodesUpTo l none) (hev : ev.type = .fired) :
    EpisodesUpTo (l ++ [ev]) (some (ev.alert.id, ev.alert.firedAt)) := by
  obtain ⟨eps, rfl, heps⟩ := h
  exact ⟨eps, [ev], rfl, heps, by simp [SameAlert], ev, [], rfl, hev, by simp⟩

theorem updated (h : EpisodesUpTo l (some p)) (hev : ev.type = .updated)
    (hp : (ev.alert.id, ev.alert.firedAt) = p) : EpisodesUpTo (l ++ [ev]) (some p) := by
  obtain ⟨eps, o, rfl, heps, hsame, f, us, rfl, hf, hus⟩ := h
  refine ⟨eps, f :: us ++ [ev], by simp, heps, ?_, f, us ++ [ev], rfl, hf, ?_⟩
  · intro x hx
    rcases mem_append.mp hx with hx | hx
    · exact hsame x hx
    · rw [mem_singleton.mp hx, hp]
  · intro x hx
    rcases mem_append.mp hx with hx | hx
    · exact hus x hx
    · rw [mem_singleton.mp hx, hev]

theorem resolved (h : EpisodesUpTo l (some p)) (hev : ev.type = .resolved)
    (hp : (ev.alert.id, ev.alert.firedAt) = p) : EpisodesUpTo (l ++ [ev]) none := by
  obtain ⟨eps, o, rfl, heps, ho⟩ := h
  refine ⟨eps ++ [o ++ [ev]], by simp, ?_⟩
  intro ep hep
  rcases mem_append.mp hep with hep | hep
  · exact heps ep hep
  · rw [mem_singleton.mp hep]
    exact ⟨p, o, ev, rfl, ho, by simpa [SameAlert] using hp, hev⟩

end EpisodesUpTo

theorem OpenEpisode.head_fired {p : String × ℤ} {ev : Event} {l : List Event}
    (h : OpenEpisode p (ev :: l)) : ev.type = .fired := by
  obtain ⟨_, f, us, he, hf, _⟩ := h
  rw [(cons.inj he).1, hf]

theorem Episodes.head_fired {ev : Event} {l : List Event} (h : Episodes (ev :: l)) : ev.type = .fired := by
  have hclosed {ep rest : List Event} (hep : ClosedEpisode ep) (he : ev :: l = ep ++ rest) :
      ev.type = .fired := by
    obtain ⟨p, o, r, rfl, ho, -⟩ := hep
    obtain ⟨-, f, us, rfl, hf, -⟩ := ho
    rw [(cons.inj he).1, hf]
  obtain ⟨p, h⟩ := h
  cases p with
  | none =>
    obtain ⟨eps, he, heps⟩ := h
    cases eps with
    | nil => cases he
    | cons ep eps => exact hclosed (heps ep (by simp)) he
  | some p =>
    obtain ⟨eps, o, he, heps, ho⟩ := h
    cases eps with
    | nil => exact (he ▸ ho : OpenEpisode p (ev :: l)).head_fired
    | cons ep eps =>
      rw [flatten_cons, append_assoc] at he
      exact hclosed (heps ep (by simp)) he

namespace KeyView
variable {now : ℤ} {scope : Scope} {clearAfter topPID : ℤ} {l : List Event} {v : KeyView}

def tag (v : KeyView) : Option (String × ℤ) := v.alert.map fun a => (a.id, a.firedAt)

variable (h : EpisodesUpTo l v.tag)
include h

theorem episodes_apply {id : String} {c : Condition} :
    EpisodesUpTo (l ++ (v.apply now scope topPID id c).2.toList) (v.apply now scope topPID id c).1.tag := by
  rw [apply]
  cases ha : v.alert with
  | none =>
    have hn : v.tag = none := by simp [tag, ha]
    exact .fired (hn ▸ h) rfl
  | some a =>
    have hs : v.tag = some (a.id, a.firedAt) := by simp [tag, ha]
    rw [hs] at h
    dsimp only
    split
    · exact h.updated rfl rfl
    · simpa [tag, Alert.refresh] using h

theorem episodes_applyAll {id : String} {cs : List Condition} :
    EpisodesUpTo (l ++ (v.applyAll now scope topPID id cs).2) (v.applyAll now scope topPID id cs).1.tag := by
  induction cs generalizing l v with
  | nil => simpa [applyAll] using h
  | cons c cs ih =>
    rw [applyAll_cons]
    have hi := ih (v := (v.apply now scope topPID id c).1) (episodes_apply h)
    simpa using hi

theorem episodes_miss :
    EpisodesUpTo (l ++ (v.miss now clearAfter).2.toList) (v.miss now clearAfter).1.tag := by
  rw [miss]
  cases ha : v.alert with
  | none => simpa using h
  | some a =>
    have hs : v.tag = some (a.id, a.firedAt) := by simp [tag, ha]
    rw [hs] at h
    dsimp only
    split
    · simpa [tag] using h
    · exact h.resolved rfl rfl

end KeyView
end Spectra.Hostwatch
