import Enfold.Text.Blank
import Enfold.Text.Case
import Enfold.Text.Identifier
import Enfold.Value.Shown

/-! # Collections

How a wrapper holds its items: the family and the concrete type of the collection, the interface
under which it is declared, and when its container comes into being. Each is chosen by an option
value, whose spelling is forgiving about case and blanks.
-/

namespace Enfold

inductive CollectionKind where
  | ordered
  | unordered
  | sorted
  deriving DecidableEq, Repr, Inhabited

/-- Whether a container is made with the wrapper, at the first use, or by the caller. -/
inductive Instantiation where
  | eager
  | lazy
  | byCaller
  deriving DecidableEq, Repr, Inhabited

/-- A family of collections and a concrete type of it. -/
structure Collection where
  kind : CollectionKind
  typeName : String
  deriving DecidableEq, Repr, Inhabited

namespace CollectionKind

def name : CollectionKind → String
  | ordered => "ordered"
  | unordered => "unordered"
  | sorted => "sorted"

def ofName? (s : String) : Option CollectionKind :=
  [ordered, unordered, sorted].find? (·.name = s)

end CollectionKind

namespace Instantiation

def name : Instantiation → String
  | eager => "eager"
  | lazy => "lazy"
  | byCaller => "none"

def ofName? (s : String) : Option Instantiation := [eager, lazy, byCaller].find? (·.name = s)

end Instantiation

inductive OptionError where
  | invalidCollection (given : Value)
  | unsupportedCollection (given : Value)
  | invalidInstantiation (given : Value)
  | invalidInterface (given : Value)
  | notBoolean (option : String)
  | invalidMaxSuffix (given : Value)
  | controlNotFound (path : String)

def supportedCollections : Assoc String Collection :=
  [("arraylist", ⟨.ordered, "list"⟩), ("deque", ⟨.ordered, "deque"⟩),
    ("frozenset", ⟨.unordered, "frozenset"⟩), ("hashset", ⟨.unordered, "set"⟩),
    ("linkedhashset", ⟨.unordered, "set"⟩), ("linkedlist", ⟨.ordered, "deque"⟩),
    ("list", ⟨.ordered, "list"⟩), ("set", ⟨.unordered, "set"⟩),
    ("sortedlist", ⟨.sorted, "SortedList"⟩), ("sortedset", ⟨.sorted, "SortedSet"⟩),
    ("treeset", ⟨.sorted, "SortedSet"⟩), ("tuple", ⟨.ordered, "tuple"⟩)]

namespace OptionError

def message : OptionError → String
  | invalidCollection v => "Invalid collection type: " ++ v.shown
  | unsupportedCollection v =>
    "Unsupported collection type: " ++ v.shown ++ " (supported: " ++
      ", ".intercalate (Assoc.keys supportedCollections) ++ ")"
  | invalidInstantiation v =>
    "Invalid instantiation mode: " ++ v.shown ++ " (expected eager, lazy or none)"
  | invalidInterface v => "Invalid collection interface: " ++ v.shown
  | notBoolean option => "Option '" ++ option ++ "' must be a boolean"
  | invalidMaxSuffix v => "Invalid max_suffix: " ++ v.shown
  | controlNotFound path => "Control file not found: " ++ path

end OptionError

/-- The part of a name that may stand before that of a collection. -/
def collectionNamespace : String := "java.util."

def Text.dropStart (start s : String) : String :=
  if start.toList.isPrefixOf s.toList then String.ofList (s.toList.drop start.length) else s

def Collection.resolve (v : Value) : Except OptionError Collection :=
  match v with
  | .text s =>
    let key := Text.trim s
    if key = "" then .error (.invalidCollection v) else
      match Assoc.get? (Text.lower (Text.dropStart collectionNamespace key)) supportedCollections with
      | some c => .ok c
      | none => .error (.unsupportedCollection v)
  | _ => .error (.invalidCollection v)

/-- A value is taken by the text that it prints as, so nothing means `none`. -/
def Instantiation.resolve (v : Value) : Except OptionError Instantiation :=
  match Instantiation.ofName? (Text.lower (Text.trim v.plain)) with
  | some i => .ok i
  | none => .error (.invalidInstantiation v)

/-- An interface is a dotted name. -/
def validateInterface (v : Value) : Except OptionError String :=
  match v with
  | .text s =>
    if Text.isDottedName (Text.trim s).toList then .ok (Text.trim s) else .error (.invalidInterface v)
  | _ => .error (.invalidInterface v)

end Enfold
