import Spectra.Hostwatch.Probe
import Spectra.Library.GoTime
import Spectra.Library.Pattern

/-! The detail of a sustained alert as it is written, and what is read back from it. -/
namespace Spectra.Hostwatch

open Library Pattern GoTime

/-- A time as an instant: the zero time is one too. -/
def timeOf (t : Option ℤ) : ℤ := t.getD zeroTime

section

/-- The fixed texts of a detail. -/
def pidText : Text := " (pid ".toList

def averagedText : Text := ") averaged ".toList

def cpuText : Text := "% CPU for ".toList

def sinceText : Text := " since ".toList

def upText : Text := "up ".toList

def startedText : Text := "(started ".toList

def ownerChainText : Text := "owner chain: ".toList

def hintText : Text := "hint: ".toList

def nextText : Text := "next: ".toList

def partSep : Text := "; ".toList

end

section

def formatLink (l : ChainLink) : Text := l.name.toList ++ '(' :: (GoText.itoa l.pid).toList ++ [')']

def formatChain (chain : List ChainLink) : Text := " > ".toList.intercalate (chain.map formatLink)

def unifiedLogHint : String :=
  "sustained load usually means a client is polling or streaming the unified log (`log stream`, `log show`, OSLogStore); look for those clients"

def spotlightHint : String :=
  "Spotlight is re-indexing or a client keeps triggering indexing; check `mdutil -s /` and recently changed large directories"

/-- `unicode.ToLower` as far as it gives ASCII. -/
def lowerRune (c : Char) : Char :=
  if c = '\u212A' then 'k' else if c = '\u0130' then 'i' else c.toLower

def offenderHint (name : String) : String :=
  let base := (GoPath.base name).map lowerRune
  if base = "diagnosticd" ∨ base = "oslogservice" then unifiedLogHint
  else if base = "mds_stores" then spotlightHint
  else ""

def suggestNextCommand (os : Os) (pid : ℤ) : Text :=
  if os = .darwin then "sample ".toList ++ (GoText.itoa pid).toList ++ " 10".toList
  else "top -H -p ".toList ++ (GoText.itoa pid).toList

def upDescription (f : SustainedFinding) (now : ℤ) : Text :=
  let up := upText ++ formatDuration (roundTo (sub now (timeOf f.started)) minute)
  match f.started with
  | none => up
  | some started => up ++ ' ' :: (startedText ++ (formatRFC3339 started ++ [')']))

/-- What comes after the name in the first part of a detail. -/
def loadText (f : SustainedFinding) : Text :=
  pidText ++ ((GoText.itoa f.pid).toList ++ (averagedText ++ (formatRounded f.avgCPU ++ (cpuText ++
    (formatDuration (roundTo f.duration minute) ++ (sinceText ++ formatRFC3339 f.since))))))

/-- The parts before the command to run next. -/
def frontParts (f : SustainedFinding) (now : ℤ) (chain : List ChainLink) (summary : String) :
    List Text :=
  (f.name.toList ++ loadText f) :: upDescription f now ::
    ((if chain = [] then [] else [ownerChainText ++ formatChain chain]) ++
      (if offenderHint f.name = "" then [] else [hintText ++ (offenderHint f.name).toList]) ++
      (if summary = "" then [] else [summary.toList]))

def detailParts (f : SustainedFinding) (now : ℤ) (chain : List ChainLink) (os : Os)
    (summary : String) : List Text :=
  frontParts f now chain summary ++ [nextText ++ suggestNextCommand os f.pid]

def sustainedDetail (f : SustainedFinding) (now : ℤ) (chain : List ChainLink) (os : Os)
    (summary : String) : String :=
  String.ofList (partSep.intercalate (detailParts f now chain os summary))

end

section

/-- The class `\S`. -/
def nonSpace (x : Char) : Bool := x ∉ ['\t', '\n', '\x0c', '\r', ' ']

/-- The expression `(\S+?);` after its literal. -/
def sinceField : Matcher := lit sinceText (capture nonSpace ';')

/-- The expression `\) averaged [^;]* since (\S+?);`. -/
def detailSinceRe : Matcher := lit averagedText (many (· ≠ ';') sinceField)

/-- The expression `\(started (\S+?)\)`. -/
def detailStartedRe : Matcher := lit startedText (capture nonSpace ')')

/-- A time that is read back; the zero time stands for none, and for an error. -/
def restoredTime (other : Text → Option ℤ) (s : Text) : Option ℤ :=
  (parseTime other s).filter (· ≠ zeroTime)

def parseRestoredIdent (other : Text → Option ℤ) (detail : String) : RestoredIdent where
  since := (find detailSinceRe detail.toList).bind (restoredTime other)
  started := (find detailStartedRe detail.toList).bind (restoredTime other)

end

def detailText (other : Text → Option ℤ) : DetailText where
  render := sustainedDetail
  parse := parseRestoredIdent other

end Spectra.Hostwatch
