import Spectra.Diff.Compare

/-! A comparison is reversible, and its keyed sections are patches. -/
namespace Spectra.Diff
open List Snapshot Library Change
open Std (ExtTreeMap)

def ChangeKind.inverse : ChangeKind → ChangeKind
  | .added => .removed
  | .removed => .added
  | .changed => .changed

/-- The change the other way: added and removed, and before and after, exchanged. -/
def Change.inverse (c : Change) : Change := ⟨c.kind.inverse, c.key, c.after, c.before⟩

open Change

theorem map_inverse_fieldChange (k v w : String) : (fieldChange k v w).map inverse = fieldChange k w v := by
  by_cases h : v = w
  · simp [fieldChange, h]
  · simp [fieldChange, h, Ne.symm h, inverse, ChangeKind.inverse]

private theorem map_inverse_appChanges (k : String) (v w : AppInfo) :
    (appChanges k v w).map inverse = appChanges k w v := by
  simp only [appChanges, map_append, map_inverse_fieldChange, apply_ite (map _), ne_comm (a := w.hardenedRuntime),
    ne_comm (a := w.teamID), ne_comm (a := w.gatekeeperStatus) (b := v.gatekeeperStatus),
    and_comm (a := w.gatekeeperStatus ≠ "")]
  rfl

private theorem map_inverse_runtimeChange (name va vb : String) :
    (runtimeChange name va vb).map inverse = runtimeChange name vb va := by
  by_cases h : va = vb
  · simp [runtimeChange, h]
  · by_cases ha : va = ""
    · have hb : vb ≠ "" := fun hb => h (ha.trans hb.symm)
      simp [runtimeChange, ha, hb, inverse, ChangeKind.inverse]
    · by_cases hb : vb = ""
      · simp [runtimeChange, ha, hb, inverse, ChangeKind.inverse]
      · simp [runtimeChange, h, Ne.symm h, ha, hb, inverse, ChangeKind.inverse]

variable (a b : Snapshot)

private theorem diffHost_reverse : (diffHost b a).changes = (diffHost a b).changes.map inverse := by
  have hfields : hostFields b a = (hostFields a b).map fun f => (f.1, f.2.2, f.2.1) := rfl
  rw [diffHost, diffHost, hfields, flatMap_map, map_flatMap]
  exact flatMap_congr fun f _ => (map_inverse_fieldChange _ _ _).symm

private theorem diffActiveRuntimes_reverse :
    (diffActiveRuntimes b a).changes = (diffActiveRuntimes a b).changes.map inverse := by
  rw [diffActiveRuntimes, diffActiveRuntimes, map_flatMap]
  exact flatMap_congr fun l _ => (map_inverse_runtimeChange _ _ _).symm

private theorem diffVPN_reverse : (diffVPN b a).changes = (diffVPN a b).changes.map inverse := by
  rw [diffVPN, diffVPN]
  cases a.vpnActive <;> cases b.vpnActive <;> rfl

theorem diffTexts_reverse (rangeA rangeB rangeA' rangeB' : MapRange String String) (a b : ExtTreeMap String String) :
    (diffTexts rangeB' rangeA' b a).Perm ((diffTexts rangeA rangeB a b).map inverse) :=
  keyedDiff_reverse_perm (fun _ _ => rfl) (fun _ _ => rfl) map_inverse_fieldChange _ _ _ _ _ _

/-- The sections that are the same seen from either snapshot. -/
def reversible : List String :=
  ["host", "apps", "jdks", "brew_formulae", "active_runtimes", "listening_ports", "vpn", "sysctls"]

private theorem reversible_reverse (f : Formats) (r r' : Ranges) (a b : Snapshot) :
    ∀ name ∈ reversible, ((compare f r' b a).changes name).Perm (((compare f r a b).changes name).map inverse) := by
  simp only [reversible, forall_mem_cons, not_mem_nil, false_imp_iff, implies_true, and_true]
  exact ⟨.of_eq (diffHost_reverse a b),
    keyedDiff_reverse_perm (fun _ _ => rfl) (fun _ _ => rfl) map_inverse_appChanges ..,
    by apply keyedDiff_reverse_perm <;> intros <;> rfl,
    diffTexts_reverse _ _ _ _ _ _, .of_eq (diffActiveRuntimes_reverse a b),
    by apply keyedDiff_reverse_perm <;> intros <;> rfl, .of_eq (diffVPN_reverse a b),
    diffTexts_reverse _ _ _ _ _ _⟩

/-- The version of each formula; the last one of a name counts. -/
def formulaView (s : Snapshot) (name : String) : Option String :=
  (s.formulae.reverse.find? fun f => f.name = name).map BrewFormula.version

def runtimesOf (s : Snapshot) (language : String) : List RuntimeInstall :=
  if language = "node" then s.node
  else if language = "python" then s.python
  else if language = "go" then s.go
  else if language = "ruby" then s.ruby
  else []

/-- The version of the first active install of each language. -/
def runtimeView (s : Snapshot) (language : String) : Option String :=
  ((runtimesOf s language).find? RuntimeInstall.active).map RuntimeInstall.version

def portView (s : Snapshot) (port : String) : Bool :=
  s.listeningPorts.any fun p => p.proto ++ ":" ++ GoText.itoa p.port = port

def sysctlView (s : Snapshot) (key : String) : Option String := s.sysctls[key]?

/-- What a change sets its key to, in a map. -/
def Change.edit (c : Change) : String × Option String :=
  (c.key, if c.kind = .removed then none else some c.after)

/-- What a change makes of its key, in a set. -/
def Change.membership (c : Change) : String × Bool := (c.key, decide (c.kind ≠ .removed))

theorem acts_texts : Acts fieldChange (fun k va => { kind := .removed, key := k, before := va })
    (fun k vb => { kind := .added, key := k, after := vb }) id edit where
  edit_removed := fun _ _ => rfl
  edit_added := fun _ _ => rfl
  edit_both := by
    intro k v w c hc
    rw [fieldChange] at hc
    split at hc
    · rw [mem_singleton.mp hc]
      rfl
    · exact nomatch hc
  unchanged := by
    simp [fieldChange]
  absent := fun _ => nofun

theorem acts_ports : Acts (fun (_ : String) (_ _ : Bool) => [])
    (fun k _ => { kind := .removed, key := k }) (fun k _ => { kind := .added, key := k })
    Option.isSome membership where
  edit_removed := fun _ _ => rfl
  edit_added := fun _ _ => rfl
  edit_both := fun _ _ _ _ => nofun
  unchanged := by simp
  absent := fun _ => nofun

theorem runtimeChange_eq_nil_iff {name va vb : String} : runtimeChange name va vb = [] ↔ va = vb := by
  constructor
  · intro h
    by_contra hne
    rw [runtimeChange] at h
    split_ifs at h
  · intro h
    rw [runtimeChange, if_pos h]

theorem edit_of_mem_runtimeChange {name : String} {x y : Option String} {c : Change}
    (hy : y ≠ some "") (h : c ∈ runtimeChange name (x.getD "") (y.getD "")) : c.edit = (name, y) := by
  rw [runtimeChange] at h
  split_ifs at h with heq hadded hremoved
  · exact nomatch h
  all_goals
    rw [mem_singleton.mp h]
    cases y <;> simp_all [edit]

private theorem getD_inj {x y : Option String} (hx : x ≠ some "") (hy : y ≠ some "") :
    x.getD "" = y.getD "" ↔ x = y := by
  cases x <;> cases y <;> simp_all [eq_comm]

private theorem activeVersion_eq (l : List RuntimeInstall) :
    activeVersion l = ((l.find? RuntimeInstall.active).map RuntimeInstall.version).getD "" := by
  induction l with
  | nil => rfl
  | cons r l ih =>
    rw [activeVersion, find?_cons]
    cases r.active <;> simp [ih]

variable {a b : Snapshot}

theorem mem_diffActiveRuntimes {c : Change} : c ∈ (diffActiveRuntimes a b).changes ↔
    ∃ name, c ∈ runtimeChange name ((runtimeView a name).getD "") ((runtimeView b name).getD "") := by
  have hviews (l : String × List RuntimeInstall × List RuntimeInstall) (h : l ∈ langs a b) :
      runtimesOf a l.1 = l.2.1 ∧ runtimesOf b l.1 = l.2.2 := by
    simp only [langs, mem_cons, not_mem_nil, or_false] at h
    obtain rfl | rfl | rfl | rfl := h <;> exact ⟨rfl, rfl⟩
  simp only [diffActiveRuntimes, mem_flatMap, activeVersion_eq, runtimeView]
  constructor
  · rintro ⟨l, hl, hc⟩
    obtain ⟨ha, hb⟩ := hviews l hl
    exact ⟨l.1, by rwa [ha, hb]⟩
  · rintro ⟨name, hc⟩
    suffices h : ∃ l ∈ langs a b, l.1 = name by
      obtain ⟨l, hl, rfl⟩ := h
      obtain ⟨ha, hb⟩ := hviews l hl
      exact ⟨l, hl, by rwa [ha, hb] at hc⟩
    by_contra hnone
    simp only [langs, mem_cons, not_mem_nil, or_false, exists_eq_or_imp, exists_eq_left, not_or] at hnone
    obtain ⟨hnode, hpython, hgo, hruby⟩ := hnone
    simp [runtimesOf, Ne.symm hnode, Ne.symm hpython, Ne.symm hgo, Ne.symm hruby, runtimeChange] at hc

section
variable (ha : ∀ name, runtimeView a name ≠ some "") (hb : ∀ name, runtimeView b name ≠ some "")
include ha hb

theorem patch_diffActiveRuntimes :
    patch (runtimeView a) ((diffActiveRuntimes a b).changes.map edit) = runtimeView b := by
  refine patch_eq (fun e he => ?_) fun name hrest => ?_
  · obtain ⟨c, hc, rfl⟩ := mem_map.mp he
    obtain ⟨name, hc⟩ := mem_diffActiveRuntimes.mp hc
    rw [edit_of_mem_runtimeChange (hb name) hc]
  · rw [← getD_inj (ha name) (hb name), ← runtimeChange_eq_nil_iff, eq_nil_iff_forall_not_mem]
    intro c hc
    exact hrest _ (mem_map_of_mem (mem_diffActiveRuntimes.mpr ⟨name, hc⟩))
      (congrArg Prod.fst (edit_of_mem_runtimeChange (hb name) hc))

private theorem diffActiveRuntimes_eq_nil_iff :
    (diffActiveRuntimes a b).changes = [] ↔ runtimeView a = runtimeView b := by
  constructor
  · intro h
    have hpatch := patch_diffActiveRuntimes ha hb
    rwa [h] at hpatch
  · intro h
    refine eq_nil_iff_forall_not_mem.mpr fun c hc => ?_
    obtain ⟨name, hc⟩ := mem_diffActiveRuntimes.mp hc
    rw [h, runtimeChange_eq_nil_iff.mpr rfl] at hc
    exact nomatch hc

end

theorem formulaView_eq (s : Snapshot) : formulaView s = fun name : String => id (formulaMap s)[name]? :=
  funext fun name => (getElem?_foldl_insert _ _ s.formulae name).symm

theorem portView_eq (s : Snapshot) : portView s = fun port : String => (portSet s)[port]?.isSome := by
  refine funext fun port => ?_
  rw [portSet, getElem?_foldl_insert, Option.isSome_map, Bool.eq_iff_iff]
  simp [portView]

/-- The sections that both snapshots have alike are reversed by exchanging the snapshots, in
whatever order maps are ranged over; and the keyed sections lead from the first snapshot to the
second, so that they are empty exactly if the two show the same. For the active runtimes this needs
that no active version is the empty text. -/
theorem compare_reverses_and_patches (f : Formats) (r r' : Ranges) (a b : Snapshot) :
    (∀ name ∈ reversible, ((Snapshot.compare f r' b a).changes name).Perm
      (((Snapshot.compare f r a b).changes name).map Change.inverse)) ∧
    (patch (formulaView a) (((Snapshot.compare f r a b).changes "brew_formulae").map Change.edit) =
        formulaView b ∧
      ((Snapshot.compare f r a b).changes "brew_formulae" = [] ↔ formulaView a = formulaView b)) ∧
    ((∀ name, runtimeView a name ≠ some "") → (∀ name, runtimeView b name ≠ some "") →
      patch (runtimeView a)
        (((Snapshot.compare f r a b).changes "active_runtimes").map Change.edit) = runtimeView b ∧
      ((Snapshot.compare f r a b).changes "active_runtimes" = [] ↔ runtimeView a = runtimeView b)) ∧
    (patch (portView a)
        (((Snapshot.compare f r a b).changes "listening_ports").map Change.membership) =
        portView b ∧
      ((Snapshot.compare f r a b).changes "listening_ports" = [] ↔ portView a = portView b)) ∧
    (patch (sysctlView a) (((Snapshot.compare f r a b).changes "sysctls").map Change.edit) =
        sysctlView b ∧ ((Snapshot.compare f r a b).changes "sysctls" = [] ↔ sysctlView a = sysctlView b)) := by
  rw [formulaView_eq, formulaView_eq, portView_eq, portView_eq]
  exact ⟨reversible_reverse f r r' a b,
    ⟨acts_texts.patch_keyedDiff _ _ _ _, acts_texts.keyedDiff_eq_nil_iff _ _ _ _⟩,
    fun ha hb => ⟨patch_diffActiveRuntimes ha hb, diffActiveRuntimes_eq_nil_iff ha hb⟩,
    ⟨acts_ports.patch_keyedDiff _ _ _ _, acts_ports.keyedDiff_eq_nil_iff _ _ _ _⟩,
    ⟨acts_texts.patch_keyedDiff _ _ _ _, acts_texts.keyedDiff_eq_nil_iff _ _ _ _⟩⟩

/-- An active install without a version is not told from no active install. -/
theorem active_runtimes_empty_version :
    let a : Snapshot := default
    let b : Snapshot := { a with node := [⟨"", true⟩] }
    (Snapshot.compare default default a b).changes "active_runtimes" = [] ∧
      runtimeView a "node" = none ∧ runtimeView b "node" = some "" := by
  exact ⟨rfl, rfl, rfl⟩

end Spectra.Diff
