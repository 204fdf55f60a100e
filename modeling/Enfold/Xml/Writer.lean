import Enfold.Text.Identifier
import Enfold.Xml.Element

/-! # Writing documents

An element is written with the namespaces of all its names declared on it. A few namespaces have
prefixes of their own, the others are numbered in the order in which they occur.
-/

namespace Enfold.Xml

def wellKnownPrefixes : Assoc String String :=
  [(xmlNamespace, "xml"), ("http://www.w3.org/1999/xhtml", "html"),
    ("http://www.w3.org/1999/02/22-rdf-syntax-ns#", "rdf"),
    ("http://schemas.xmlsoap.org/wsdl/", "wsdl"), ("http://www.w3.org/2001/XMLSchema", "xs"),
    ("http://www.w3.org/2001/XMLSchema-instance", "xsi"),
    ("http://purl.org/dc/elements/1.1/", "dc")]

/-- A name starts with a brace that is never closed. -/
structure UnclosedNamespace where
  name : String
  deriving DecidableEq, Repr

def splitName (name : String) : Except UnclosedNamespace (Option (String × String)) :=
  match name.toList with
  | '\x7b' :: r =>
    match Text.cutAtLast '\x7d' r with
    | (some uri, localName) => .ok (some (String.ofList uri, String.ofList localName))
    | (none, _) => .error ⟨name⟩
  | _ => .ok none

/-- The prefixes of namespaces in the order in which they were first needed. -/
abbrev Prefixes := Assoc String String

namespace Prefixes

/-- The prefix of a namespace, and the prefixes with it. -/
def claim (ps : Prefixes) (uri : String) : Prefixes × String :=
  match Assoc.get? uri ps with
  | some p => (ps, p)
  | none =>
    let p := (Assoc.get? uri wellKnownPrefixes).getD ("ns" ++ toString ps.length)
    if p = "xml" then (ps, p) else (Assoc.put uri p ps, p)

def addName (ps : Prefixes) (name : String) : Except UnclosedNamespace Prefixes :=
  (splitName name).map fun
    | some (uri, _) => (ps.claim uri).1
    | none => ps

mutual

/-- Adds the namespaces of all names of an element, in the order of the document. -/
def addElement (ps : Prefixes) : Element → Except UnclosedNamespace Prefixes
  | ⟨tag, attributes, _, _, children⟩ => do
    let ps ← ps.addName tag
    let ps ← attributes.foldlM (fun ps a => addName ps a.1) ps
    addElements ps children

def addElements (ps : Prefixes) : List Element → Except UnclosedNamespace Prefixes
  | [] => .ok ps
  | e :: r => do addElements (← addElement ps e) r

end

def writtenName (ps : Prefixes) (name : String) : String :=
  match splitName name with
  | .ok (some (uri, localName)) =>
    let p := (ps.claim uri).2
    if p = "" then localName else p ++ ":" ++ localName
  | _ => name

/-- The declarations, in the order of the prefixes. -/
def declarations (ps : Prefixes) : List (String × String) :=
  (ps.map fun e => ("xmlns:" ++ e.2, e.1)).mergeSort fun a b => !(b.1 < a.1)

end Prefixes

def escapeText (s : String) : String :=
  String.join (s.toList.map fun c =>
    if c = '&' then "&amp;" else if c = '<' then "&lt;" else if c = '>' then "&gt;"
    else c.toString)

def escapeAttribute (s : String) : String :=
  String.join (s.toList.map fun c =>
    if c = '&' then "&amp;" else if c = '<' then "&lt;" else if c = '>' then "&gt;"
    else if c = '"' then "&quot;" else if c = '\r' then "&#13;" else if c = '\n' then "&#10;"
    else if c = '\t' then "&#09;" else c.toString)

def writeAttributes (attributes : List (String × String)) : String :=
  String.join (attributes.map fun a => " " ++ a.1 ++ "=\"" ++ escapeAttribute a.2 ++ "\"")

mutual

/-- Writes an element with further attributes before its own. -/
def writeElement (ps : Prefixes) (extra : List (String × String)) : Element → String
  | ⟨tag, attributes, text, tail, children⟩ =>
    let name := ps.writtenName tag
    let start := "<" ++ name ++
      writeAttributes (extra ++ attributes.map fun a => (ps.writtenName a.1, a.2))
    (if text = "" && children.isEmpty then start ++ " />"
      else start ++ ">" ++ escapeText text ++ writeElements ps children ++ "</" ++ name ++ ">") ++
    escapeText tail

def writeElements (ps : Prefixes) : List Element → String
  | [] => ""
  | e :: r => writeElement ps [] e ++ writeElements ps r

end

def write (e : Element) : Except UnclosedNamespace String := do
  let ps ← Prefixes.addElement [] e
  return writeElement ps ps.declarations e

end Enfold.Xml
