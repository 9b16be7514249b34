import Spectra.Cache.Sharded
import Spectra.Library.Slots
import Mathlib.Data.Set.Basic

/-! The cache of app detections. -/
namespace Spectra.Snapshot
open List Option Cache Library Relation

/-- The parts of a host that do not change: its files (by the components of a path), what `plutil`
says of a plist (trimmed, empty on an error), detection itself, JSON and SHA-256. -/
structure Host (Opts Result Err : Type) where
  readFile : List String → Option Bytes
  plistExecutableName : List String → String
  detectWith : String → Opts → Except Err Result
  marshal : Result → Bytes
  unmarshal : Bytes → Option Result
  unmarshal_marshal : ∀ r, unmarshal (marshal r) = some r
  sha256 : Bytes → Bytes
  length_sha256 : ∀ bs, (sha256 bs).length = 32

/-- A call of `detectWithCache` that is past its look at the store. -/
inductive Stage (Result Err : Type)
  | detecting
  | returned (result : Except Err Result)

structure DetectCall (Result Err : Type) where
  appPath : String
  stage : Stage Result Err

/-- A store that may be missing, the writes on their way to it, and the calls so far. -/
structure Detections (Result Err : Type) where
  store : Option Store
  pending : List WriteJob
  calls : List (DetectCall Result Err)

section

variable {Opts Result Err : Type} (h : Host Opts Result Err)

/-- `Key` of the cache: the hash of the chunks one after another. -/
def Host.key (chunks : List Bytes) : Bytes := h.sha256 chunks.flatten

/-- The first 64 KiB of the main executable, as far as it can be read. -/
def Host.exeBytes (appPath : String) : Bytes :=
  match h.plistExecutableName [appPath, "Contents", "Info.plist"] with
  | "" => []
  | name => match h.readFile [appPath, "Contents", "MacOS", name] with
    | none => []
    | some bs => bs.take (64 * 1024)

/-- The bytes that `detectCacheKey` hashes. -/
def Host.keyBytes (appPath : String) : Option Bytes :=
  (h.readFile [appPath, "Contents", "Info.plist"]).map fun plist => plist ++ h.exeBytes appPath

def Host.detectCacheKey (appPath : String) : Option Bytes :=
  (h.readFile [appPath, "Contents", "Info.plist"]).map fun plist =>
    h.key [plist, h.exeBytes appPath]

theorem Host.detectCacheKey_eq (appPath : String) : h.detectCacheKey appPath = (h.keyBytes appPath).map h.sha256 := by
  simp [detectCacheKey, keyBytes, key, Function.comp_def]

theorem Host.sha256_ne_nil (bs : Bytes) : h.sha256 bs ≠ [] := fun hnil => by
  simpa [hnil] using h.length_sha256 bs

/-- The cached result of a bundle, if there is one that decodes. -/
def Host.lookup (s : Detections Result Err) (appPath : String) : Option Result :=
  s.store.bind fun st => (h.detectCacheKey appPath).bind fun key =>
    (st.get key).join.bind h.unmarshal

/-- The write that follows a live detection: none for an error or without a key. -/
def Host.writes (s : Detections Result Err) (appPath : String) (result : Except Err Result) :
    List WriteJob :=
  match s.store, h.detectCacheKey appPath, result with
  | some _, some key, .ok r => [⟨key, h.marshal r⟩]
  | _, _, _ => []

/-- The steps of any number of calls of `detectWithCache` on the given bundles, all with the same
options, and of the writes: each may reach the store at any later time, or never. -/
inductive Host.Step (opts : Opts) (paths : Set String) (s : Detections Result Err) :
    Detections Result Err → Prop
  | hit {appPath : String} {r : Result} (hpath : appPath ∈ paths)
    (hlookup : h.lookup s appPath = some r) :
    Host.Step opts paths s { s with calls := s.calls ++ [⟨appPath, .returned (.ok r)⟩] }
  | miss {appPath : String} (hpath : appPath ∈ paths) (hlookup : h.lookup s appPath = none) :
    Host.Step opts paths s { s with calls := s.calls ++ [⟨appPath, .detecting⟩] }
  | detected {i : ℕ} {appPath : String} (hat : s.calls[i]? = some ⟨appPath, .detecting⟩) :
    Host.Step opts paths s
      { s with
        pending := s.pending ++ h.writes s appPath (h.detectWith appPath opts)
        calls := s.calls.set i ⟨appPath, .returned (h.detectWith appPath opts)⟩ }
  | stored {st st' : Store} {job : WriteJob} (hjob : job ∈ s.pending) (hstore : s.store = some st)
    (hput : st.put job.key job.data = some st') : Host.Step opts paths s { s with store := some st' }

/-- Any interleaving, with a store that is missing or empty at first. -/
def Host.Reachable (opts : Opts) (paths : Set String) (s : Detections Result Err) : Prop :=
  ∃ store : Option Store, (∀ st ∈ store, ∀ p, st p = none) ∧
    ReflTransGen (h.Step opts paths) ⟨store, [], []⟩ s

/-- The key of the cache tells the key bytes of the bundles apart. -/
def Host.CollisionFree (paths : Set String) : Prop :=
  ∀ p ∈ paths, ∀ q ∈ paths, ∀ a b, h.keyBytes p = some a → h.keyBytes q = some b →
    h.sha256 a = h.sha256 b → a = b

/-- `blob` is the encoded result of a bundle that has been detected under `key`. -/
def Host.Origin (opts : Opts) (paths : Set String) (s : Detections Result Err)
    (key blob : Bytes) : Prop :=
  ∃ q ∈ paths, ∃ r, (⟨q, .returned (.ok r)⟩ : DetectCall Result Err) ∈ s.calls ∧
    h.detectWith q opts = .ok r ∧ h.detectCacheKey q = some key ∧ blob = h.marshal r

/-- What the cache returns for a bundle: its own live result, or that of a bundle with the same
key bytes that was detected before. -/
def Host.Returns (opts : Opts) (paths : Set String) (s : Detections Result Err) (appPath : String)
    (result : Except Err Result) : Prop :=
  result = h.detectWith appPath opts ∨
    ∃ q ∈ paths, ∃ r, (⟨q, .returned (.ok r)⟩ : DetectCall Result Err) ∈ s.calls ∧
      h.detectWith q opts = .ok r ∧ result = .ok r ∧
      ∃ bs, h.keyBytes q = some bs ∧ h.keyBytes appPath = some bs

variable {h} {opts : Opts} {paths : Set String} {s s' : Detections Result Err}

/-- The calls that have returned, in the one state and still in the other. -/
def Kept (s s' : Detections Result Err) : Prop :=
  ∀ c ∈ s.calls, c.stage ≠ .detecting → c ∈ s'.calls

theorem Host.Step.kept (hstep : h.Step opts paths s s') : Kept s s' := by
  intro c hc hstage
  cases hstep with
  | hit _ _ | miss _ _ => exact mem_append_left _ hc
  | detected hat => exact mem_set_of_mem hat hc fun heq => hstage (heq ▸ rfl)
  | stored _ _ _ => exact hc

theorem Host.Origin.mono {key blob : Bytes} (horigin : h.Origin opts paths s key blob)
    (hkept : Kept s s') : h.Origin opts paths s' key blob := by
  obtain ⟨q, hq, r, hmem, hlive⟩ := horigin
  exact ⟨q, hq, r, hkept _ hmem nofun, hlive⟩

theorem Host.Returns.mono {appPath : String} {result : Except Err Result}
    (hreturns : h.Returns opts paths s appPath result) (hkept : Kept s s') :
    h.Returns opts paths s' appPath result := by
  cases hreturns with
  | inl hlive => exact .inl hlive
  | inr hshared =>
    obtain ⟨q, hq, r, hmem, hlive⟩ := hshared
    exact .inr ⟨q, hq, r, hkept _ hmem nofun, hlive⟩

/-- Everything in the store, or on its way there, is the live result of a bundle with the same
key. -/
structure Host.Sound (h : Host Opts Result Err) (opts : Opts) (paths : Set String)
    (s : Detections Result Err) : Prop where
  pending : ∀ job ∈ s.pending, h.Origin opts paths s job.key job.data
  store : ∀ st ∈ s.store, ∀ key blob, st.get key = some (some blob) →
    h.Origin opts paths s key blob
  known : ∀ c ∈ s.calls, c.appPath ∈ paths
  calls : ∀ c ∈ s.calls, ∀ result, c.stage = .returned result →
    h.Returns opts paths s c.appPath result

theorem Host.Sound.init {store : Option Store} (hempty : ∀ st ∈ store, ∀ p, st p = none) :
    h.Sound opts paths ⟨store, [], []⟩ where
  pending _ hjob := absurd hjob not_mem_nil
  store st hst key blob hget := by
    obtain ⟨p, -, hp⟩ := map_eq_some_iff.mp hget
    exact nomatch (hempty st hst p).symm.trans hp
  known _ hc := nomatch hc
  calls _ hc := nomatch hc

/-- A step that adds a call whose result the cache may return. -/
theorem Host.Sound.append (hs : h.Sound opts paths s) {c : DetectCall Result Err} (hpath : c.appPath ∈ paths)
    (hc : ∀ result, c.stage = .returned result → h.Returns opts paths s c.appPath result) :
    h.Sound opts paths { s with calls := s.calls ++ [c] } := by
  have hkept : Kept s { s with calls := s.calls ++ [c] } := fun d hd _ =>
    mem_append_left _ hd
  refine ⟨fun job hjob => (hs.pending job hjob).mono hkept,
    fun st hst key blob hget => (hs.store st hst key blob hget).mono hkept, ?_, ?_⟩
  · intro d hd
    cases mem_append.mp hd with
    | inl hmem => exact hs.known d hmem
    | inr hnew => exact mem_singleton.mp hnew ▸ hpath
  · intro d hd result hstage
    cases mem_append.mp hd with
    | inl hmem => exact (hs.calls d hmem result hstage).mono hkept
    | inr hnew =>
      cases mem_singleton.mp hnew
      exact (hc result hstage).mono hkept

/-- A hit is the live result of a bundle with the same key bytes. -/
theorem Host.Sound.lookup (hs : h.Sound opts paths s) (hfree : h.CollisionFree paths)
    {appPath : String} (hpath : appPath ∈ paths) {r : Result}
    (hlookup : h.lookup s appPath = some r) : h.Returns opts paths s appPath (.ok r) := by
  obtain ⟨st, hst, hbind⟩ := bind_eq_some_iff.mp hlookup
  obtain ⟨key, hkey, hbind⟩ := bind_eq_some_iff.mp hbind
  obtain ⟨blob, hblob, hdecode⟩ := bind_eq_some_iff.mp hbind
  obtain ⟨q, hq, r', hmem, hlive, hkey', rfl⟩ :=
    hs.store st hst key blob (join_eq_some_iff.mp hblob)
  rw [h.unmarshal_marshal] at hdecode
  cases hdecode
  rw [h.detectCacheKey_eq] at hkey hkey'
  obtain ⟨bs, hbs, hsha⟩ := map_eq_some_iff.mp hkey
  obtain ⟨bs', hbs', hsha'⟩ := map_eq_some_iff.mp hkey'
  have heq := hfree q hq appPath hpath bs' bs hbs' hbs (hsha'.trans hsha.symm)
  exact .inr ⟨q, hq, r, hmem, hlive, rfl, bs, heq ▸ hbs', hbs⟩

theorem Host.Sound.step (hs : h.Sound opts paths s) (hfree : h.CollisionFree paths)
    (hstep : h.Step opts paths s s') : h.Sound opts paths s' := by
  have hkept := hstep.kept
  cases hstep with
  | hit hpath hlookup =>
    refine hs.append hpath fun result hstage => ?_
    cases hstage
    exact hs.lookup hfree hpath hlookup
  | miss hpath hlookup => exact hs.append hpath nofun
  | @detected i appPath hat =>
    have hpath := hs.known _ (mem_of_getElem? hat)
    refine ⟨fun job hjob => ?_, fun st hst key blob hget => (hs.store st hst key blob hget).mono hkept, ?_, ?_⟩
    · cases mem_append.mp hjob with
      | inl hmem => exact (hs.pending job hmem).mono hkept
      | inr hnew =>
        unfold Host.writes at hnew
        split at hnew
        · rename_i st key r _ hkey hlive
          cases mem_singleton.mp hnew
          refine ⟨appPath, hpath, r, ?_, hlive, hkey, rfl⟩
          rw [← hlive]
          exact mem_set_of_getElem? hat
        · exact nomatch hnew
    · exact forall_mem_set hs.known hpath
    · intro c hc result hstage
      cases mem_or_eq_of_mem_set hc with
      | inl hmem => exact (hs.calls c hmem result hstage).mono hkept
      | inr heq =>
        subst heq
        cases hstage
        exact .inl rfl
  | stored hjob hstore hput =>
    refine ⟨fun job hjob => (hs.pending job hjob).mono hkept, ?_, hs.known,
      fun c hc result hstage => (hs.calls c hc result hstage).mono hkept⟩
    intro st hst key blob hget
    cases hst
    rw [Store.get_put hput] at hget
    split at hget
    · rename_i hkey
      cases hget
      exact hkey ▸ (hs.pending _ hjob).mono hkept
    · exact (hs.store _ hstore key blob hget).mono hkept

theorem Host.Reachable.sound (hfree : h.CollisionFree paths) (hs : h.Reachable opts paths s) :
    h.Sound opts paths s := by
  obtain ⟨store, hempty, hsteps⟩ := hs
  induction hsteps with
  | refl => exact .init hempty
  | tail _ hstep ih => exact ih.step hfree hstep

/-- Two bundles with the same key bytes, one after the other: the second gets the result of the
first. -/
theorem Host.shared_result {p q : String} {bs : Bytes} {r : Result} (hp : p ∈ paths)
    (hq : q ∈ paths) (hpbs : h.keyBytes p = some bs) (hqbs : h.keyBytes q = some bs)
    (hlive : h.detectWith p opts = .ok r) : ∃ s, h.Reachable opts paths s ∧ ⟨q, .returned (.ok r)⟩ ∈ s.calls := by
  have hpkey : h.detectCacheKey p = some (h.sha256 bs) := by rw [h.detectCacheKey_eq, hpbs]; rfl
  have hqkey : h.detectCacheKey q = some (h.sha256 bs) := by rw [h.detectCacheKey_eq, hqbs]; rfl
  have hpath := path_of_ne_nil (h.sha256_ne_nil bs)
  obtain ⟨st, hst⟩ : ∃ st, Store.put (fun _ => none) (h.sha256 bs) (h.marshal r) = some st := by
    rw [Store.put, hpath]
    exact ⟨_, rfl⟩
  have hmiss : h.lookup (⟨some fun _ => none, [], []⟩ : Detections Result Err) p = none := by
    simp [lookup, hpkey, Store.get, hpath]
  have hget : st.get (h.sha256 bs) = some (some (h.marshal r)) := by
    rw [Store.get_put hst, if_pos rfl]
  have hjob : (⟨h.sha256 bs, h.marshal r⟩ : WriteJob) ∈
      [] ++ h.writes ⟨some fun _ => none, [], [⟨p, .detecting⟩]⟩ p (h.detectWith p opts) := by
    simp [Host.writes, hpkey, hlive]
  have hempty : ∀ st ∈ some fun _ => none, ∀ p : Path, (st p : Option Bytes) = none := by
    intro st hst p
    cases hst
    rfl
  refine ⟨_, ⟨some fun _ => none, hempty, .head (.miss hp hmiss) (.head (.detected (i := 0) rfl)
    (.head (.stored hjob rfl hst) (.single (.hit (r := r) hq ?_))))⟩,
    mem_append_right _ (.head _)⟩
  simp [lookup, hqkey, hget, h.unmarshal_marshal]

/-- With one set of options the cache returns a bundle's own live result or that of a bundle with
the same `Info.plist` followed by the same start of the executable; it is transparent exactly for
the bundles on which these bytes settle the result. -/
theorem detect_cache_transparent_iff (h : Host Opts Result Err) (opts : Opts) (paths : Set String)
    (hfree : h.CollisionFree paths) :
    (∀ s, h.Reachable opts paths s → ∀ c ∈ s.calls, ∀ result, c.stage = .returned result →
        h.Returns opts paths s c.appPath result) ∧
      ((∀ s, h.Reachable opts paths s → ∀ c ∈ s.calls, ∀ result, c.stage = .returned result →
          result = h.detectWith c.appPath opts) ↔
        ∀ p ∈ paths, ∀ q ∈ paths, ∀ bs r, h.keyBytes p = some bs → h.keyBytes q = some bs →
          h.detectWith p opts = .ok r → h.detectWith q opts = .ok r) := by
  refine ⟨fun s hs => (hs.sound hfree).calls, fun htransparent => ?_, fun hsettled => ?_⟩
  · intro p hp q hq bs r hpbs hqbs hlive
    obtain ⟨s, hs, hmem⟩ := Host.shared_result hp hq hpbs hqbs hlive
    exact (htransparent s hs _ hmem _ rfl).symm
  · intro s hs c hc result hstage
    have hsound := hs.sound hfree
    cases hsound.calls c hc result hstage with
    | inl hlive => exact hlive
    | inr hshared =>
      obtain ⟨q, hq, r, -, hlive, rfl, bs, hqbs, hbs⟩ := hshared
      exact (hsettled q hq c.appPath (hsound.known c hc) bs r hqbs hbs hlive).symm

end

/-- A host on which all bundles but `/C.app` have the same `Info.plist` and nothing else, and a
result is the path it was detected at. -/
def copies : Host Unit Bytes Unit where
  readFile path := if path.getLast? = some "Info.plist" then
    some [if path.head? = some "/C.app" then 61 else 60] else none
  plistExecutableName _ := ""
  detectWith appPath _ := .ok (appPath.toList.map fun c => UInt8.ofNat c.toNat)
  marshal := id
  unmarshal := some
  unmarshal_marshal _ := rfl
  sha256 bs := (bs ++ List.replicate 32 0).take 32
  length_sha256 bs := by simp

theorem detect_cache_transparent_iff_pair :
    copies.CollisionFree {"/A.app", "/C.app"} ∧
      ∀ s, copies.Reachable () {"/A.app", "/C.app"} s → ∀ c ∈ s.calls, ∀ result,
        c.stage = .returned result → result = copies.detectWith c.appPath () := by
  have hfree : copies.CollisionFree {"/A.app", "/C.app"} := by
    rintro p (rfl | rfl) q (rfl | rfl) _ _ ⟨⟩ ⟨⟩ h
    all_goals first | rfl | exact absurd h (by decide)
  refine ⟨hfree, (detect_cache_transparent_iff copies () _ hfree).2.mpr ?_⟩
  rintro p (rfl | rfl) q (rfl | rfl) _ r ⟨⟩ hq hlive
  all_goals first | exact hlive | cases hq

/-- Of two copies of a bundle the second is reported at the path of the first. -/
theorem copy_reported_at_other_path :
    ∃ s r, copies.Reachable () Set.univ s ∧ copies.detectWith "/A.app" () = .ok r ∧
      ⟨"/B.app", .returned (.ok r)⟩ ∈ s.calls ∧ copies.detectWith "/B.app" () ≠ .ok r := by
  obtain ⟨s, hs, hmem⟩ := @Host.shared_result _ _ _ copies () Set.univ "/A.app" "/B.app" [60] _
    (Set.mem_univ _) (Set.mem_univ _) rfl rfl rfl
  exact ⟨s, _, hs, rfl, hmem, by decide⟩

end Spectra.Snapshot
