import Enfold.Text.Blank
import Enfold.Xml.Element
import Enfold.Xml.Token

/-! # Reading documents

Tokens are taken one by one. Each open element has a level of its own, with the namespaces that
are in force, the text that was read and the children that are complete. A document holds exactly
one element outside all others.
-/

namespace Enfold.Xml

/-- The namespaces by prefix; the empty prefix stands for names without one. -/
abbrev Namespaces := Assoc String String

structure OpenElement where
  name : PrefixedName
  element : Element
  scope : Namespaces
  /-- The children that are complete, the last one first. -/
  children : List Element := []
  deriving Inhabited

structure ReaderState where
  /-- The open elements, the innermost one first. -/
  levels : List OpenElement := []
  root : Option Element := none
  /-- Whether a document type was declared. -/
  typed : Bool := false
  deriving Inhabited

namespace Namespaces

/-- The prefix that an attribute declares, if it is a declaration. -/
def declared? (name : PrefixedName) : Option String :=
  match name.space with
  | none => if name.localName = "xmlns" then some "" else none
  | some space => if space = "xmlns" then some name.localName else none

def isBindable (space uri : String) : Bool :=
  space ≠ "xmlns" && (space = "" || uri ≠ "") && (space = "xml") == (uri = xmlNamespace) &&
    uri ≠ declarationNamespace && !uri.toList.contains '\x7d'

def declare? (scope : Namespaces) :
    List (PrefixedName × String) → Option Namespaces
  | [] => some scope
  | (name, uri) :: r =>
    match declared? name with
    | none => declare? scope r
    | some space => if isBindable space uri then declare? (Assoc.put space uri scope) r else none

/-- The full name of an element or attribute; a prefix must have been declared. -/
def resolve? (scope : Namespaces) (inherits : Bool) (name : PrefixedName) : Option String :=
  match name.space with
  | some space =>
    if space = "xml" then some (expandedName xmlNamespace name.localName)
    else (Assoc.get? space scope).map (expandedName · name.localName)
  | none =>
    match (if inherits then Assoc.get? "" scope else none).filter (· ≠ "") with
    | some uri => some (expandedName uri name.localName)
    | none => some name.localName

end Namespaces

def openElement? (outer : Namespaces) (name : PrefixedName)
    (attributes : List (PrefixedName × String)) : Option OpenElement := do
  if !(attributes.map Prod.fst).Nodup then none
  let scope ← Namespaces.declare? outer attributes
  let tag ← scope.resolve? true name
  let plain := attributes.filter fun a => (Namespaces.declared? a.1).isNone
  let resolved ← plain.mapM fun a => (scope.resolve? false a.1).map (·, a.2)
  if !(resolved.map Prod.fst).Nodup then none
  return { name, scope, element := { tag, attributes := resolved } }

namespace OpenElement

/-- Adds text after the last child, or before all of them. -/
def addText (o : OpenElement) (s : String) : OpenElement :=
  match o.children with
  | [] => { o with element := { o.element with text := o.element.text ++ s } }
  | c :: r => { o with children := { c with tail := c.tail ++ s } :: r }

def addChild (o : OpenElement) (c : Element) : OpenElement := { o with children := c :: o.children }

def closed (o : OpenElement) : Element := { o.element with children := o.children.reverse }

end OpenElement

namespace ReaderState

def place? (st : ReaderState) (e : Element) : Option ReaderState :=
  match st.levels with
  | o :: outer => some { st with levels := o.addChild e :: outer }
  | [] => if st.root.isSome then none else some { st with root := some e }

def step (st : ReaderState) : Token → Option ReaderState
  | .opening name attributes closed => do
    let scope := match st.levels with
      | o :: _ => o.scope
      | [] => []
    let o ← openElement? scope name attributes
    if closed then st.place? o.closed
    else if st.levels.isEmpty && st.root.isSome then none
    else some { st with levels := o :: st.levels }
  | .closing name =>
    match st.levels with
    | o :: outer =>
      if o.name = name then ({ st with levels := outer }).place? o.closed else none
    | [] => none
  | .characters s =>
    match st.levels with
    | o :: outer => some { st with levels := o.addText (String.ofList s) :: outer }
    | [] => if s.all isSpace then some st else none
  | .verbatim s =>
    match st.levels with
    | o :: outer => some { st with levels := o.addText (String.ofList s) :: outer }
    | [] => none
  | .remark => some st
  | .documentType =>
    if st.levels.isEmpty && st.root.isNone && !st.typed then some { st with typed := true } else none

end ReaderState

def byteOrderMark : Char := '\uFEFF'

def skipByteOrderMark (s : List Char) : List Char :=
  if s.head? = some byteOrderMark then s.drop 1 else s

/-- Reads a document into its outermost element. -/
def parse? (text : String) : Option Element := do
  let s := Text.foldNewlines (skipByteOrderMark text.toList)
  if !s.all isDocumentChar then none
  let tokens ← tokens? (← skipDeclaration? s)
  let st ← tokens.foldlM ReaderState.step {}
  if st.levels.isEmpty then st.root else none

end Enfold.Xml
