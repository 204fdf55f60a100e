import Enfold.Text.Identifier
import Enfold.Xml.Name

/-! # Tokens of a document

The text of a document is cut into tags, runs of characters, references, and what has no meaning
of its own: comments, processing instructions and the declaration of a document type. What cannot
be cut is not well-formed.
-/

namespace Enfold.Xml

structure PrefixedName where
  space : Option String
  localName : String
  deriving DecidableEq, Repr, Inhabited

inductive Token where
  | opening (name : PrefixedName) (attributes : List (PrefixedName × String)) (closed : Bool)
  | closing (name : PrefixedName)
  /-- Characters that stand for themselves. -/
  | characters (s : List Char)
  /-- Characters that were marked as standing for themselves, or that a reference stands for. -/
  | verbatim (s : List Char)
  | remark
  | documentType
  deriving Repr, Inhabited

abbrev Scan (α : Type) := List Char → Option (α × List Char)

/-- Control characters and the two that are no characters cannot stand in a document. -/
def isDocumentChar (c : Char) : Bool :=
  (0x20 ≤ c.toNat && c.toNat ≠ 0xFFFE && c.toNat ≠ 0xFFFF) || c = '\t' || c = '\n' || c = '\r'

def isSpace (c : Char) : Bool := c = ' ' || c = '\t' || c = '\n' || c = '\r'

def skipSpace (s : List Char) : List Char := s.dropWhile isSpace

def expect? (word : String) (s : List Char) : Option (List Char) :=
  if word.toList.isPrefixOf s then some (s.drop word.length) else none

def upTo? (word : List Char) : Scan (List Char)
  | [] => none
  | c :: r =>
    if word.isPrefixOf (c :: r) then some ([], (c :: r).drop word.length)
    else (upTo? word r).map fun p => (c :: p.1, p.2)

def scanLocalName : Scan String
  | [] => none
  | c :: r =>
    if isNameStart c then
      some (String.ofList (c :: r.takeWhile isNameChar), r.dropWhile isNameChar)
    else none

/-- A name with at most one colon in it. -/
def scanName : Scan PrefixedName := fun s =>
  match scanLocalName s with
  | none => none
  | some (first, ':' :: r) => (scanLocalName r).map fun p => (⟨some first, p.1⟩, p.2)
  | some (first, r) => some (⟨none, first⟩, r)

def predefinedEntities : List (String × Char) :=
  [("amp", '&'), ("lt", '<'), ("gt", '>'), ("quot", '"'), ("apos", '\'')]

def digitValue? (base : Nat) (c : Char) : Option Nat :=
  let value :=
    if Text.isAsciiDigit c then some (c.toNat - '0'.toNat)
    else if 'a' ≤ c ∧ c ≤ 'f' then some (c.toNat - 'a'.toNat + 10)
    else if 'A' ≤ c ∧ c ≤ 'F' then some (c.toNat - 'A'.toNat + 10)
    else none
  value.filter (· < base)

/-- The character of a written code, if it can stand in a document. -/
def codeChar? (base : Nat) (digits : List Char) : Option Char := do
  let values ← digits.mapM (digitValue? base)
  let code := values.foldl (fun n d => n * base + d) 0
  if digits.isEmpty || !code.isValidChar then none
  else if isDocumentChar (Char.ofNat code) then some (Char.ofNat code) else none

def scanReference : Scan Char := fun s => do
  match Text.cutAt ';' s with
  | (_, none) => none
  | ('#' :: 'x' :: digits, some rest) => (codeChar? 16 digits).map (·, rest)
  | ('#' :: digits, some rest) => (codeChar? 10 digits).map (·, rest)
  | (name, some rest) =>
    (predefinedEntities.lookup (String.ofList name)).map (·, rest)

/-- A blank of any kind counts as a space unless a reference stands for it. -/
def attributeValue? (s : List Char) : Option (List Char) :=
  match s with
  | [] => some []
  | '<' :: _ => none
  | '&' :: r =>
    match scanReference r with
    | none => none
    | some (c, rest) =>
      if rest.length ≤ r.length then (attributeValue? rest).map (c :: ·) else none
  | c :: r => (attributeValue? r).map fun v => (if isSpace c then ' ' else c) :: v
termination_by s.length

def scanQuoted : Scan (List Char)
  | q :: r =>
    if q = '"' ∨ q = '\'' then
      match Text.cutAt q r with
      | (value, some rest) => some (value, rest)
      | (_, none) => none
    else none
  | [] => none

def scanAttribute : Scan (PrefixedName × String) := fun s => do
  let (name, rest) ← scanName s
  let rest ← expect? "=" (skipSpace rest)
  let (raw, rest) ← scanQuoted (skipSpace rest)
  let value ← attributeValue? raw
  return ((name, String.ofList value), rest)

def scanAttributes (s : List Char) :
    Option (List (PrefixedName × String) × Bool × List Char) :=
  if let some r := expect? ">" (skipSpace s) then some ([], false, r)
  else if let some r := expect? "/>" (skipSpace s) then some ([], true, r)
  else if (s.head?.map isSpace).getD false then
    match scanAttribute (skipSpace s) with
    | none => none
    | some (a, rest) =>
      if rest.length < s.length then (scanAttributes rest).map fun p => (a :: p.1, p.2) else none
  else none
termination_by s.length

def scanOpening : Scan Token := fun s => do
  let (name, rest) ← scanName s
  let (attributes, closed, rest) ← scanAttributes rest
  return (.opening name attributes closed, rest)

def scanClosing : Scan Token := fun s => do
  let (name, rest) ← scanName s
  return (.closing name, ← expect? ">" (skipSpace rest))

/-- A comment after its opening, which ends at the first two hyphens. -/
def scanComment : Scan Token := fun s => do
  let (_, rest) ← upTo? ['-', '-'] s
  return (.remark, ← expect? ">" rest)

/-- A processing instruction, whose target must not be the reserved one in any case. -/
def scanInstruction : Scan Token := fun s => do
  let (target, rest) ← scanLocalName s
  if target.toLower = "xml" then none else
    match rest with
    | '?' :: '>' :: rest => return (.remark, rest)
    | c :: r =>
      if isSpace c then
        let (_, rest) ← upTo? ['?', '>'] r
        return (.remark, rest)
      else none
    | [] => none

def publicIdChars : List Char := "-'()+,./:=?;!*#@$_% \n\r".toList

def isPublicIdChar (c : Char) : Bool :=
  Text.isAsciiLetter c || Text.isAsciiDigit c || publicIdChars.contains c

def scanExternalId (s : List Char) : Option (List Char) :=
  match expect? "SYSTEM" s with
  | some (c :: r) => if isSpace c then (scanQuoted (skipSpace r)).map Prod.snd else none
  | some [] => none
  | none =>
    match expect? "PUBLIC" s with
    | some (c :: r) => do
      if !isSpace c then none
      let (id, rest) ← scanQuoted (skipSpace r)
      if !id.all isPublicIdChar then none
      match rest with
      | d :: r => if isSpace d then (scanQuoted (skipSpace r)).map Prod.snd else none
      | [] => none
    | _ => some s

/-- The declaration of a document type, with nothing declared in it. -/
def scanDocumentType : Scan Token := fun s => do
  match s with
  | c :: r =>
    if !isSpace c then none
    let (_, rest) ← scanName (skipSpace r)
    match rest with
    | c :: r =>
      let rest ← if isSpace c then scanExternalId (skipSpace r) else some rest
      return (.documentType, ← expect? ">" (skipSpace rest))
    | [] => none
  | [] => none

/-- Characters up to the next markup, without the end of a protected part. -/
def scanCharacters (s : List Char) : Option (Token × List Char) :=
  let run := s.takeWhile fun c => c ≠ '<' && c ≠ '&'
  match upTo? [']', ']', '>'] run with
  | some _ => none
  | none => some (.characters run, s.drop run.length)

def scanToken (s : List Char) : Option (Token × List Char) :=
  match s with
  | '<' :: '/' :: r => scanClosing r
  | '<' :: '?' :: r => scanInstruction r
  | '<' :: '!' :: '-' :: '-' :: r => scanComment r
  | '<' :: '!' :: r =>
    match expect? "[CDATA[" r with
    | some r => (upTo? [']', ']', '>'] r).map fun p => (.verbatim p.1, p.2)
    | none => (expect? "DOCTYPE" r).bind scanDocumentType
  | '<' :: r => scanOpening r
  | '&' :: r => (scanReference r).map fun p => (.verbatim [p.1], p.2)
  | s => scanCharacters s

def tokens? (s : List Char) : Option (List Token) :=
  if s.isEmpty then some [] else
    match scanToken s with
    | none => none
    | some (t, rest) => if rest.length < s.length then (tokens? rest).map (t :: ·) else none
termination_by s.length

def scanDeclared (name : String) (s : List Char) : Option (List Char × List Char) := do
  if (s.head?.map isSpace).getD false then
    let rest ← expect? name (skipSpace s)
    let rest ← expect? "=" (skipSpace rest)
    scanQuoted (skipSpace rest)
  else none

def isVersionChar (c : Char) : Bool :=
  Text.isAsciiLetter c || Text.isAsciiDigit c || c = '_' || c = '.' || c = ':' || c = '-'

def isEncodingName : List Char → Bool
  | [] => false
  | c :: r => Text.isAsciiLetter c &&
    r.all fun c => Text.isAsciiLetter c || Text.isAsciiDigit c || c = '.' || c = '_' || c = '-'

/-- Skips an entry with a value of the right kind, which may be missing. -/
def skipDeclared? (name : String) (isValue : List Char → Bool) (s : List Char) :
    Option (List Char) :=
  match scanDeclared name s with
  | some (value, rest) => if isValue value then some rest else none
  | none => some s

/-- Skips the declaration at the very start of a document, if there is one. -/
def skipDeclaration? (s : List Char) : Option (List Char) :=
  match expect? "<?xml" s with
  | some (c :: r) =>
    if isSpace c then do
      let (version, rest) ← scanDeclared "version" (c :: r)
      if !version.all isVersionChar then none
      let rest ← skipDeclared? "encoding" isEncodingName rest
      let rest ← skipDeclared? "standalone" (fun v => v = "yes".toList || v = "no".toList) rest
      expect? "?>" (skipSpace rest)
    else some s
  | _ => some s

end Enfold.Xml
