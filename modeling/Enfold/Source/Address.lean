import Enfold.Text.Identifier
import Enfold.Value.Shown

/-! # Addresses

An address on the network starts with a scheme and a colon, then two slashes and the host. A host
in brackets must be a numeric address of the longer kind, and no host may hold a character that
can be taken for a sign between the parts of an address.
-/

namespace Enfold.Address

inductive AddressError where
  | brackets
  | futureHost
  | shortHost
  | unknownHost (host : String)
  | misleading (host : String)
  deriving DecidableEq, Repr

def AddressError.message : AddressError → String
  | brackets => "Invalid IPv6 URL"
  | futureHost => "IPvFuture address is invalid"
  | shortHost => "An IPv4 address cannot be in brackets"
  | unknownHost host => Text.quoted host ++ " does not appear to be an IPv4 or IPv6 address"
  | misleading host =>
    "netloc '" ++ host ++ "' contains invalid characters under NFKC normalization"

def isHexDigit (c : Char) : Bool :=
  Text.isAsciiDigit c || ('a' ≤ c && c ≤ 'f') || ('A' ≤ c && c ≤ 'F')

/-- A number up to 255 in decimal digits, without zeros in front. -/
def isOctet (s : List Char) : Bool :=
  !s.isEmpty && s.length ≤ 3 && s.all Text.isAsciiDigit && (s = ['0'] || s.head? ≠ some '0') &&
    s.foldl (fun n c => n * 10 + (c.toNat - '0'.toNat)) 0 ≤ 255

def isShort (s : List Char) : Bool :=
  let octets := Text.splitAt '.' s
  octets.length = 4 && octets.all isOctet

def isHextet (s : List Char) : Bool := !s.isEmpty && s.length ≤ 4 && s.all isHexDigit

/-- The groups of an address, of which the last may be a short address. -/
def groups? (s : List Char) : Option (List (List Char)) :=
  let parts := Text.splitAt ':' s
  let last := (parts.getLast?).getD []
  if parts.length < 3 then none
  else if last.contains '.' then
    if isShort last then some (parts.dropLast ++ [['0'], ['0']]) else none
  else some parts

/-- The groups on one side of a gap, of which there may be none. -/
def side? (parts : List (List Char)) (outer : Option (List Char)) : Option (List (List Char)) :=
  if outer = some [] then if parts.length = 1 then some [] else none else some parts

def isLong (s : List Char) : Bool :=
  match groups? s with
  | none => false
  | some parts =>
    let inner := (parts.drop 1).dropLast
    match inner.findIdx? List.isEmpty with
    | none => parts.length = 8 && parts.all isHextet
    | some i =>
      let before := parts.take (i + 1)
      let after := parts.drop (i + 2)
      parts.length ≤ 9 && !(inner.drop (i + 1)).any List.isEmpty &&
        match side? before before.head?, side? after after.getLast? with
        | some before, some after =>
          before.length + after.length < 8 && (before ++ after).all isHextet
        | _, _ => false

/-- A long address with the name of a zone after it, if it has one. -/
def isZoned (s : List Char) : Bool :=
  match Text.cutAt '%' s with
  | (_, none) => isLong s
  | (host, some zone) => !zone.isEmpty && !zone.contains '%' && isLong host

/-- Hexadecimal digits and a point, with more to follow. -/
def isFuture (s : List Char) : Bool :=
  let version := s.takeWhile isHexDigit
  !version.isEmpty &&
    match s.dropWhile isHexDigit with
    | '.' :: _ :: _ => true
    | _ => false

def checkBracketed (host : List Char) : Except AddressError Unit :=
  match host with
  | 'v' :: r => if isFuture r then .ok () else .error .futureHost
  | _ =>
    if isShort host then .error .shortHost
    else if isZoned host then .ok ()
    else .error (.unknownHost (String.ofList host))

/-- The characters whose compatible forms hold one of the signs that part an address. -/
def misleadingChars : List Char :=
  ['\u2047', '\u2048', '\u2049', '\u2100', '\u2101', '\u2105', '\u2106', '\u2a74', '\ufe13',
    '\ufe16', '\ufe55', '\ufe56', '\ufe5f', '\ufe6b', '\uff03', '\uff0f', '\uff1a', '\uff1f',
    '\uff20']

def checkBrackets (host : List Char) : Except AddressError Unit :=
  if host.contains '[' != host.contains ']' then .error .brackets
  else match Text.cutAt '[' host with
    | (_, some r) => checkBracketed (Text.cutAt ']' r).1
    | _ => .ok ()

def checkHost (host : List Char) : Except AddressError Unit := do
  checkBrackets host
  if host.any misleadingChars.contains then .error (.misleading (String.ofList host))

def isSchemeChar (c : Char) : Bool :=
  Text.isAsciiLetter c || Text.isAsciiDigit c || c = '+' || c = '-' || c = '.'

def splitScheme (s : List Char) : List Char × List Char :=
  match Text.cutAt ':' s with
  | (c :: scheme, some rest) =>
    if Text.isAsciiLetter c && scheme.all isSchemeChar then (c :: scheme, rest) else ([], s)
  | _ => ([], s)

/-- The host of an address without its scheme, which stands after two slashes. -/
def hostOf : List Char → List Char
  | '/' :: '/' :: r => r.takeWhile fun c => c ≠ '/' && c ≠ '?' && c ≠ '#'
  | _ => []

/-- Whether an address names both a scheme and a host, blanks in front aside. -/
def isComplete (address : String) : Except AddressError Bool := do
  let s := (address.toList.dropWhile fun c => c.toNat ≤ 0x20).filter fun c =>
    c ≠ '\t' && c ≠ '\r' && c ≠ '\n'
  let (scheme, rest) := splitScheme s
  let host := hostOf rest
  checkHost host
  return !scheme.isEmpty && !host.isEmpty

end Enfold.Address
