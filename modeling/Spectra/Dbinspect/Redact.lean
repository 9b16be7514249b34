import Spectra.Library.GoUrl

/-! `RedactDSN`, which masks the password of a database connection string. -/
namespace Spectra.Dbinspect

open Library GoBytes GoUrl

def redacted : Bytes := ascii "[redacted]"

def maskPassword (u : URL) : URL :=
  match u.user with
  | some ⟨username, some _⟩ => { u with user := some ⟨username, some redacted⟩ }
  | _ => u

def redactURLDSN (parseHost : Bytes → Bytes → Option Bytes) (dsn : Bytes) :
    Bytes :=
  match parse parseHost dsn with
  | none => redacted
  | some u => replaceFirst (maskPassword u).string (escape .queryComponent redacted) redacted

def redactField (f : Bytes) : Bytes :=
  match cut f [byte '='] with
  | none => f
  | some (key, _) => if equalFold key (ascii "password") then key ++ ascii "=" ++ redacted else f

/-- The keyword form of libpq. -/
def redactKeywordDSN (dsn : Bytes) : Bytes :=
  (ascii " ").intercalate ((fields dsn).map redactField)

def redactDSN (parseHost : Bytes → Bytes → Option Bytes) (dsn : Bytes) :
    Bytes :=
  if dsn = [] then []
  else if contains dsn (ascii "://") then redactURLDSN parseHost dsn
  else if contains dsn (ascii "=") then redactKeywordDSN dsn
  else redacted

end Spectra.Dbinspect
