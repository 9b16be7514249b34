import Spectra.Library.GoBytes
import Spectra.Library.GoText

/-! The parser of HTTP/1.x header blocks. -/
namespace Spectra.Netproto

open Library GoBytes

/-- The errors of the parser; `statusCode` has the text that is no number. -/
inductive HTTPError
  | empty
  | malformedResponseLine
  | statusCode (text : Bytes)
  | malformedRequestLine
  | tokenTooLong
  deriving DecidableEq

structure HTTPHeader where
  name : Bytes
  value : Bytes
  redacted : Bool
  deriving DecidableEq

structure HTTPMessage where
  isRequest : Bool := false
  method : Bytes := []
  target : Bytes := []
  statusCode : ℤ := 0
  reason : Bytes := []
  version : Bytes := []
  headers : List HTTPHeader := []
  webSocket : Bool := false
  truncated : Bool := false
  deriving DecidableEq

def redactedHeaderValue : Bytes := ascii "[redacted]"

def sensitiveHTTPHeaders : List Bytes :=
  [ascii "authorization", ascii "cookie", ascii "proxy-authorization", ascii "set-cookie", ascii "x-api-key"]

def maxTokenSize : ℕ := 256 * 1024

/-- The header block of a stream, and whether the stream ends before the block does. -/
def splitHTTPHeaderBlock (data : Bytes) : Bytes × Bool :=
  match index (ascii "\r\n\r\n") data with
  | some idx => (data.take (idx + 2), false)
  | none =>
    match index (ascii "\n\n") data with
    | some idx => (data.take (idx + 1), false)
    | none => (data, true)

def parseHTTPStartLine (line : Bytes) : Except HTTPError HTTPMessage :=
  if (ascii "HTTP/").isPrefixOf line then
    match splitN line (ascii " ") 3 with
    | version :: code :: reason =>
      match GoText.atoi (GoText.ofBytes code) with
      | none => .error (.statusCode code)
      | some statusCode => .ok { version, statusCode, reason := reason.headD [] }
    | _ => .error .malformedResponseLine
  else
    match splitN line (ascii " ") 3 with
    | [method, target, version] =>
      if (ascii "HTTP/").isPrefixOf version then .ok { isRequest := true, method, target, version }
      else .error .malformedRequestLine
    | _ => .error .malformedRequestLine

/-- The header of a line; a line without a colon or without a name has none. -/
def parseHTTPHeader (line : Bytes) : Option HTTPHeader :=
  match cut line (ascii ":") with
  | none => none
  | some (name, value) =>
    let name := trimSpace name
    let header : HTTPHeader :=
      if toLower name ∈ sensitiveHTTPHeaders then ⟨name, redactedHeaderValue, true⟩
      else ⟨name, trimSpace value, false⟩
    if name = [] then none else some header

def scanHeaders : List Bytes → Except HTTPError (List HTTPHeader)
  | [] => .ok []
  | line :: rest =>
    if maxTokenSize ≤ line.length then .error .tokenTooLong
    else if dropCR line = [] then .ok []
    else
      match parseHTTPHeader (dropCR line) with
      | some header => (scanHeaders rest).map (header :: ·)
      | none => scanHeaders rest

/-- One header's part in `isWebSocketUpgrade`: a `Connection` that has `upgrade` counts for good,
of several `Upgrade` headers the last one counts. -/
def upgradeStep (found : Bool × Bool) (h : HTTPHeader) : Bool × Bool :=
  if toLower h.name = ascii "connection" then
    (found.1 || ((toLower h.value).splitOn 44).any fun part => trimSpace part = ascii "upgrade", found.2)
  else if toLower h.name = ascii "upgrade" then
    (found.1, decide (trimSpace (toLower h.value) = ascii "websocket"))
  else found

def isWebSocketUpgrade (msg : HTTPMessage) : Bool :=
  let (hasConnectionUpgrade, hasUpgradeWebSocket) := msg.headers.foldl upgradeStep (false, false)
  if msg.isRequest then hasConnectionUpgrade && hasUpgradeWebSocket
  else decide (msg.statusCode = 101) && hasConnectionUpgrade && hasUpgradeWebSocket

/-- A message with its headers and what follows from them. -/
def HTTPMessage.withHeaders (msg : HTTPMessage) (truncated : Bool) (headers : List HTTPHeader) :
    HTTPMessage :=
  let msg := { msg with truncated, headers }
  { msg with webSocket := isWebSocketUpgrade msg }

def parseHTTP1Headers (data : Bytes) : Except HTTPError HTTPMessage :=
  let (headerBlock, truncated) := splitHTTPHeaderBlock data
  match scan maxTokenSize (lines headerBlock) with
  | .done | .tooLong => .error .empty
  | .token line rest => do
    let msg ← parseHTTPStartLine line
    let headers ← scanHeaders rest
    return msg.withHeaders truncated headers

end Spectra.Netproto
