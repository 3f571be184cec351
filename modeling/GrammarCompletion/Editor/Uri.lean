import GrammarCompletion.Text.Path
import GrammarCompletion.Text.Quoted

/-!
# Names of documents

A document is named by a URI. One with the scheme `file` and an authority stands for a path of the
file system: authority, query and fragment are dropped, and percent escapes are decoded. Any other
name is taken for a path as it is.
-/

namespace GrammarCompletion.Uri

inductive Fault where
  | controlCharacter
  /-- A percent sign without two hexadecimal digits, or an escape that is not allowed there. -/
  | escape (text : Bytes)
  | hostCharacter (b : UInt8)
  | unclosedBracket
  /-- Digits should follow the colon behind a host. -/
  | hostEnd (text : Bytes)
  | userInfo
  deriving DecidableEq

structure Error where
  uri : Bytes
  fault : Fault
  deriving DecidableEq

namespace Fault

def message : Fault → Bytes
  | .controlCharacter => "net/url: invalid control character in URL"
  | .escape text => "invalid URL escape " ++ Quoted.quote text
  | .hostCharacter b => "invalid character " ++ Quoted.quote [b] ++ " in host name"
  | .unclosedBracket => "missing ']' in host"
  | .hostEnd text => "invalid port " ++ Quoted.quote text ++ " after host"
  | .userInfo => "net/url: invalid userinfo"

end Fault

namespace Error

def message (e : Error) : Bytes := "parse " ++ Quoted.quote e.uri ++ ": " ++ e.fault.message

end Error

/-- The part of a text before the first occurrence of a byte, and the part behind it. -/
def cut (sep : UInt8) (text : Bytes) : Bytes × Bytes :=
  (text.takeWhile (· ≠ sep), (text.dropWhile (· ≠ sep)).drop 1)

def cutLast (sep : UInt8) (text : Bytes) : Option Bytes × Bytes :=
  if text.contains sep then
    (some ((text.reverse.dropWhile (· ≠ sep)).drop 1).reverse,
      (text.reverse.takeWhile (· ≠ sep)).reverse)
  else (none, text)

def decode : Bytes → Except Fault Bytes
  | [] => .ok []
  | b :: rest =>
    if b = 0x25 then
      match rest with
      | x :: y :: more =>
        match Bytes.hexValue? x, Bytes.hexValue? y with
        | some hi, some lo => (decode more).map ((16 * hi + lo).toUInt8 :: ·)
        | _, _ => .error (.escape [b, x, y])
      | _ => .error (.escape (b :: rest))
    else (decode rest).map (b :: ·)

def isAlphanumeric (b : UInt8) : Bool :=
  (0x30 ≤ b && b ≤ 0x39) || (0x41 ≤ b && b ≤ 0x5A) || (0x61 ≤ b && b ≤ 0x7A)

def isHostByte (b : UInt8) : Bool :=
  0x80 ≤ b || isAlphanumeric b || ("!$&'()*+,;=:[]<>\"-_.~" : Bytes).contains b

def isUserByte (b : UInt8) : Bool :=
  isAlphanumeric b || ("-._:~!$&'()*+,;=%@" : Bytes).contains b

/-- Whether a byte of a host may be written as an escape: bytes beyond ASCII and the percent sign. -/
def isHostEscape (b : UInt8) : Bool := 0x80 ≤ b || b == 0x25

/-- Whether a byte of a zone may be written as an escape: the percent sign, a blank and the ASCII
bytes that may also stand there as they are. -/
def isZoneEscape (b : UInt8) : Bool := b == 0x25 || b == 0x20 || (b < 0x80 && isHostByte b)

def checkHostBytes (isEscape : UInt8 → Bool) : Bytes → Except Fault Unit
  | [] => .ok ()
  | b :: rest =>
    if b = 0x25 then
      match rest with
      | x :: y :: more =>
        match Bytes.hexValue? x, Bytes.hexValue? y with
        | some hi, some lo =>
          if isEscape (16 * hi + lo).toUInt8 then checkHostBytes isEscape more
          else .error (.escape [b, x, y])
        | _, _ => .error (.escape [b, x, y])
      | _ => .error (.escape (b :: rest))
    else if isHostByte b then checkHostBytes isEscape rest
    else .error (.hostCharacter b)

/-- Split an address at its zone, which starts with an escaped percent sign. -/
def cutZone : Bytes → Bytes × Bytes
  | [] => ([], [])
  | b :: rest =>
    if ("%25" : Bytes).isPrefixOf (b :: rest) then ([], b :: rest)
    else
      let (address, zone) := cutZone rest
      (b :: address, zone)

def isHostEnd : Bytes → Bool
  | [] => true
  | b :: rest => b == 0x3A && rest.all fun d => 0x30 ≤ d && d ≤ 0x39

/-- Whether a host is well formed. An address in brackets may name a zone. -/
def checkHost (host : Bytes) : Except Fault Unit :=
  if host.head? = some 0x5B then
    match cutLast 0x5D host with
    | (none, _) => .error .unclosedBracket
    | (some bracketed, ending) => do
      unless isHostEnd ending do throw (.hostEnd ending)
      let (address, zone) := cutZone bracketed
      checkHostBytes isHostEscape address
      checkHostBytes isZoneEscape zone
      checkHostBytes isHostEscape ending
  else do
    match cutLast 0x3A host with
    | (none, _) => pure ()
    | (some _, digits) => unless isHostEnd (0x3A :: digits) do throw (.hostEnd (0x3A :: digits))
    checkHostBytes isHostEscape host

def checkAuthority (authority : Bytes) : Except Fault Unit := do
  let (user?, host) := cutLast 0x40 authority
  checkHost host
  match user? with
  | none => return
  | some user =>
    unless user.all isUserByte do throw .userInfo
    let (name, secret) := cut 0x3A user
    let _ ← decode name
    let _ ← decode secret

def fileScheme : Bytes := "file://"

def decodedPath (uri : Bytes) : Except Fault Bytes := do
  if uri.any fun b => b < 0x20 || b = 0x7F then throw .controlCharacter
  let (hierarchy, _) := cut 0x3F (uri.drop fileScheme.length)
  checkAuthority (hierarchy.takeWhile (· ≠ Path.slash))
  decode (hierarchy.dropWhile (· ≠ Path.slash))

def path (uri : Bytes) : Except Error Bytes :=
  if fileScheme.isPrefixOf uri then
    let (main, fragment) := cut 0x23 uri
    match decodedPath main with
    | .error fault => .error ⟨main, fault⟩
    | .ok decoded =>
      match decode fragment with
      | .error fault => .error ⟨uri, fault⟩
      | .ok _ => .ok (Path.clean decoded)
  else .ok uri

end GrammarCompletion.Uri
