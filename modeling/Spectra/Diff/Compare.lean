import Spectra.Library.GoText
import Spectra.Library.KeyedDiff

/-! The structured diff of two snapshots. -/
namespace Spectra.Diff

open Library
open Std (ExtTreeMap)

inductive ChangeKind
  | added
  | removed
  | changed
  deriving DecidableEq

/-- One leaf difference; `before` is empty for an added and `after` for a removed key. -/
structure Change where
  kind : ChangeKind
  key : String
  before : String := ""
  after : String := ""
  deriving DecidableEq

structure Section where
  name : String
  changes : List Change

structure Result where
  aID : String
  bID : String
  sections : List Section

structure TMDestination where
  id : String
  name : String
  mountPoint : String

structure HostInfo where
  hostname : String
  osVersion : String
  osBuild : String
  cpuBrand : String
  cpuCores : ℤ
  ramBytes : ℕ
  compressorOccupied : ℕ
  compressorStored : ℕ
  swapUsedBytes : ℕ
  pressureLevel : String
  destinations : List TMDestination
  localSnapshots : List String
  architecture : String
  spectraVersion : String
  deriving Inhabited

structure AppResult where
  bundleID : String
  path : String
  appVersion : String
  hardenedRuntime : Bool
  gatekeeperStatus : String
  teamID : String

structure JDKInstall where
  path : String
  source : String
  versionMajor : ℤ
  versionMinor : ℤ
  versionPatch : ℤ
  vendor : String

structure BrewFormula where
  name : String
  version : String

structure RuntimeInstall where
  version : String
  active : Bool

structure ListeningPort where
  port : ℤ
  proto : String

/-- A `time.Time`: its instant, and the offset of the zone in which it is shown. -/
structure Time where
  instant : ℤ
  zoneOffset : ℤ

structure InstallEntry where
  name : String
  version : String
  source : String
  installDate : Time
  packageIDs : List String

/-- The parts of a snapshot that are compared. -/
structure Snapshot where
  id : String
  host : HostInfo
  apps : List AppResult
  jdks : List JDKInstall
  formulae : List BrewFormula
  node : List RuntimeInstall
  python : List RuntimeInstall
  go : List RuntimeInstall
  ruby : List RuntimeInstall
  pathDirs : List String
  listeningPorts : List ListeningPort
  vpnActive : Bool
  ptyPct : ℚ
  filesPct : ℚ
  procsPct : ℚ
  procsPerUIDPct : ℚ
  sysctls : ExtTreeMap String String
  history : List InstallEntry
  deriving Inhabited

/-- How `fmt` and `time` print: `%.1f` of a percentage, the instant of an installation in UTC, as
keys have it, and its time in the zone it came with, as labels have it. -/
structure Formats where
  pct : ℚ → String
  dateKey : ℤ → String
  dateLabel : Time → String
  deriving Inhabited

structure AppInfo where
  version : String
  path : String
  hardenedRuntime : Bool
  gatekeeperStatus : String
  teamID : String

abbrev JDKKey := ℤ ×ₗ ℤ ×ₗ ℤ ×ₗ String

/-- The orders of the loops over maps in one comparison. -/
structure Ranges where
  appsA : MapRange String AppInfo
  appsB : MapRange String AppInfo
  jdksA : MapRange JDKKey JDKInstall
  jdksB : MapRange JDKKey JDKInstall
  formulaeA : MapRange String String
  formulaeB : MapRange String String
  portsA : MapRange String Bool
  portsB : MapRange String Bool
  sysctlsA : MapRange String String
  sysctlsB : MapRange String String
  deriving Inhabited

def sortStrings (keys : List String) : List String := keys.mergeSort fun a b => decide (a ≤ b)

def tmDestinationKeys (s : Snapshot) : List String :=
  sortStrings (s.host.destinations.filterMap fun d =>
    let key := if d.id = "" then d.name else d.id
    let key := if key = "" then d.mountPoint else key
    if key ≠ "" then some key else none)

def tmSnapshotKeys (s : Snapshot) : List String :=
  sortStrings (s.host.localSnapshots.filter (· ≠ ""))

def hostFields (a b : Snapshot) : List (String × String × String) :=
  [("hostname", a.host.hostname, b.host.hostname),
    ("os_version", a.host.osVersion, b.host.osVersion),
    ("os_build", a.host.osBuild, b.host.osBuild),
    ("cpu_brand", a.host.cpuBrand, b.host.cpuBrand),
    ("cpu_cores", GoText.itoa a.host.cpuCores, GoText.itoa b.host.cpuCores),
    ("ram_bytes", GoText.itoa a.host.ramBytes, GoText.itoa b.host.ramBytes),
    ("memory.compressor_occupied", GoText.itoa a.host.compressorOccupied, GoText.itoa b.host.compressorOccupied),
    ("memory.compressor_stored", GoText.itoa a.host.compressorStored, GoText.itoa b.host.compressorStored),
    ("memory.swap_used", GoText.itoa a.host.swapUsedBytes, GoText.itoa b.host.swapUsedBytes),
    ("memory.pressure_level", a.host.pressureLevel, b.host.pressureLevel),
    ("time_machine.destinations", ",".intercalate (tmDestinationKeys a), ",".intercalate (tmDestinationKeys b)),
    ("time_machine.local_snapshots", ",".intercalate (tmSnapshotKeys a), ",".intercalate (tmSnapshotKeys b)),
    ("arch", a.host.architecture, b.host.architecture),
    ("spectra_version", a.host.spectraVersion, b.host.spectraVersion)]

def fieldChange (key before after : String) : List Change :=
  if before ≠ after then [⟨.changed, key, before, after⟩] else []

def diffHost (a b : Snapshot) : Section :=
  ⟨"host", (hostFields a b).flatMap fun f => fieldChange f.1 f.2.1 f.2.2⟩

/-- The applications by bundle ID, or by path if that is empty; a later one replaces an earlier
one. -/
def appMap (s : Snapshot) : ExtTreeMap String AppInfo :=
  s.apps.foldl (fun m r =>
    m.insert (if r.bundleID = "" then r.path else r.bundleID)
      ⟨r.appVersion, r.path, r.hardenedRuntime, r.gatekeeperStatus, r.teamID⟩) ∅

def boolString (v : Bool) : String := if v then "true" else "false"

def teamIDChange (key before after : String) : Change :=
  ⟨.changed, key ++ ":team-id", if before = "" then "(unsigned)" else before,
    if after = "" then "(unsigned)" else after⟩

def appChanges (k : String) (ia ib : AppInfo) : List Change :=
  fieldChange k ia.version ib.version ++
  (if ia.hardenedRuntime ≠ ib.hardenedRuntime then
    [⟨.changed, k ++ ":hardened-runtime", boolString ia.hardenedRuntime, boolString ib.hardenedRuntime⟩]
  else []) ++
  (if ia.gatekeeperStatus ≠ ib.gatekeeperStatus ∧ ia.gatekeeperStatus ≠ "" ∧
      ib.gatekeeperStatus ≠ "" then
    [⟨.changed, k ++ ":gatekeeper", ia.gatekeeperStatus, ib.gatekeeperStatus⟩]
  else []) ++
  if ia.teamID ≠ ib.teamID then [teamIDChange k ia.teamID ib.teamID] else []

def diffApps (r : Ranges) (a b : Snapshot) : Section :=
  ⟨"apps", keyedDiff r.appsA r.appsB appChanges
    (fun k ia => { kind := .removed, key := k, before := ia.version })
    (fun k ib => { kind := .added, key := k, after := ib.version }) (appMap a) (appMap b)⟩

def jdkKey (j : JDKInstall) : JDKKey :=
  toLex (j.versionMajor, toLex (j.versionMinor, toLex (j.versionPatch, j.vendor)))

def jdkLabel (j : JDKInstall) : String :=
  GoText.itoa j.versionMajor ++ "." ++ GoText.itoa j.versionMinor ++ "." ++
    GoText.itoa j.versionPatch ++ "/" ++ j.vendor ++ "@" ++ j.source

def jdkMap (s : Snapshot) : ExtTreeMap JDKKey JDKInstall :=
  s.jdks.foldl (fun m j => m.insert (jdkKey j) j) ∅

def diffJDKs (r : Ranges) (a b : Snapshot) : Section :=
  ⟨"jdks", keyedDiff r.jdksA r.jdksB (fun _ _ _ => [])
    (fun _ ja => { kind := .removed, key := jdkLabel ja, before := ja.path })
    (fun _ jb => { kind := .added, key := jdkLabel jb, after := jb.path }) (jdkMap a) (jdkMap b)⟩

def diffTexts (rangeA rangeB : MapRange String String) (a b : ExtTreeMap String String) :
    List Change :=
  keyedDiff rangeA rangeB fieldChange (fun k va => { kind := .removed, key := k, before := va })
    (fun k vb => { kind := .added, key := k, after := vb }) a b

def formulaMap (s : Snapshot) : ExtTreeMap String String :=
  s.formulae.foldl (fun m f => m.insert f.name f.version) ∅

def diffBrewFormulae (r : Ranges) (a b : Snapshot) : Section :=
  ⟨"brew_formulae", diffTexts r.formulaeA r.formulaeB (formulaMap a) (formulaMap b)⟩

/-- The version of the first active runtime, empty if there is none. -/
def activeVersion : List RuntimeInstall → String
  | [] => ""
  | r :: rest => if r.active then r.version else activeVersion rest

def runtimeChange (name va vb : String) : List Change :=
  if va = vb then []
  else if va = "" ∧ vb ≠ "" then [{ kind := .added, key := name, after := vb }]
  else if va ≠ "" ∧ vb = "" then [{ kind := .removed, key := name, before := va }]
  else [⟨.changed, name, va, vb⟩]

def langs (a b : Snapshot) : List (String × List RuntimeInstall × List RuntimeInstall) :=
  [("node", a.node, b.node), ("python", a.python, b.python), ("go", a.go, b.go), ("ruby", a.ruby, b.ruby)]

def diffActiveRuntimes (a b : Snapshot) : Section :=
  ⟨"active_runtimes", (langs a b).flatMap fun l => runtimeChange l.1 (activeVersion l.2.1) (activeVersion l.2.2)⟩

/-- The listening ports as a set; the map only has `true`, so that looking up a key asks for
membership. -/
def portSet (s : Snapshot) : ExtTreeMap String Bool :=
  s.listeningPorts.foldl (fun m p => m.insert (p.proto ++ ":" ++ GoText.itoa p.port) true) ∅

def diffListeningPorts (r : Ranges) (a b : Snapshot) : Section :=
  ⟨"listening_ports", keyedDiff r.portsA r.portsB (fun _ _ _ => [])
    (fun k _ => { kind := .removed, key := k }) (fun k _ => { kind := .added, key := k })
    (portSet a) (portSet b)⟩

def diffVPN (a b : Snapshot) : Section :=
  ⟨"vpn",
    if a.vpnActive ≠ b.vpnActive then
      [⟨.changed, "vpn_active", if a.vpnActive then "true" else "false",
        if b.vpnActive then "true" else "false"⟩]
    else []⟩

def positions (dirs : List String) : ExtTreeMap String ℕ :=
  dirs.zipIdx.foldl (fun m d => m.insert d.1 d.2) ∅

def posText (positions : ExtTreeMap String ℕ) (d : String) : String :=
  "pos " ++ GoText.itoa (positions.getD d 0)

def diffPathDirs (a b : Snapshot) : Section :=
  let posA := positions a.pathDirs
  let posB := positions b.pathDirs
  ⟨"path_dirs",
    (a.pathDirs.filterMap fun d =>
      if d ∈ posB then none else some { kind := .removed, key := d, before := posText posA d }) ++
    b.pathDirs.filterMap fun d =>
      if d ∉ posA then some { kind := .added, key := d, after := posText posB d }
      else if posA.getD d 0 ≠ posB.getD d 0 then some ⟨.changed, d, posText posA d, posText posB d⟩
      else none⟩

def diffSystemLimits (f : Formats) (a b : Snapshot) : Section :=
  ⟨"system_limits",
    [("pty", a.ptyPct, b.ptyPct), ("files", a.filesPct, b.filesPct),
      ("procs", a.procsPct, b.procsPct),
      ("procs_per_uid", a.procsPerUIDPct, b.procsPerUIDPct)].flatMap
      fun r => fieldChange (r.1 ++ ":pct") (f.pct r.2.1) (f.pct r.2.2)⟩

def diffSysctls (r : Ranges) (a b : Snapshot) : Section :=
  ⟨"sysctls", diffTexts r.sysctlsA r.sysctlsB a.sysctls b.sysctls⟩

def installEntryKey (f : Formats) (e : InstallEntry) : String :=
  "\x00".intercalate
    [e.name, e.version, e.source, f.dateKey e.installDate.instant, ",".intercalate e.packageIDs]

def installEntryLabel (f : Formats) (e : InstallEntry) : String :=
  " · ".intercalate
    ([f.dateLabel e.installDate] ++ (if e.version ≠ "" then ["version " ++ e.version] else []) ++
      if e.source ≠ "" then [e.source] else [])

def diffInstallHistory (f : Formats) (a b : Snapshot) : Section :=
  let seen := a.history.map (installEntryKey f)
  ⟨"install_history", b.history.filterMap fun e =>
    if installEntryKey f e ∈ seen then none
    else some { kind := .added, key := e.name, after := installEntryLabel f e }⟩

def Snapshot.compare (f : Formats) (r : Ranges) (a b : Snapshot) : Result where
  aID := a.id
  bID := b.id
  sections :=
    [diffHost a b, diffApps r a b, diffJDKs r a b, diffBrewFormulae r a b, diffActiveRuntimes a b,
      diffListeningPorts r a b, diffVPN a b, diffPathDirs a b, diffSystemLimits f a b,
      diffSysctls r a b, diffInstallHistory f a b]

def Result.changes (result : Result) (name : String) : List Change :=
  ((result.sections.find? fun s => s.name = name).map Section.changes).getD []

end Spectra.Diff
