import Enfold.Model.Walk
import Enfold.Xml.Element

/-! # Bound data

What a document holds, as a model sees it: scalars, elements that are kept as they are, objects of
the classes of the model, and containers of any of these. An object holds its values by field.
-/

namespace Enfold

inductive ContainerKind where
  | list
  | deque
  deriving DecidableEq, Repr

inductive Datum where
  | scalar (v : Value)
  | element (e : Xml.Element)
  | object (cls : ClassId) (values : List (String × Datum))
  | container (kind : ContainerKind) (items : List Datum)
  /-- An object or a container that is kept elsewhere, so that several data can share it. -/
  | shared (cell : Nat)
  deriving Inhabited

abbrev Fields := Assoc String Datum

/-- The field that tells under which element an object was read. -/
def elementField : String := "__element__"

/-- The field that holds the text of an object without child elements. -/
def textField : String := "value"

namespace Datum

def null : Datum := .scalar .null

def text (s : String) : Datum := .scalar (.text s)

def isNull : Datum → Bool
  | scalar v => v.isNull
  | _ => false

/-- What is empty counts as false. -/
def isTruthy : Datum → Bool
  | scalar v => v.isTruthy
  | element e => !e.children.isEmpty
  | container _ items => !items.isEmpty
  | object .. | shared _ => true

variable (m : Model)

mutual

def shown : Datum → String
  | scalar v => v.shown
  | element e => "<Element " ++ Text.quoted e.tag ++ ">"
  | object c values =>
    "BoundObject(" ++ m.qualifiedName c ++ ", \x7b" ++ ", ".intercalate (shownFields values) ++ "\x7d)"
  | container .list items => "[" ++ ", ".intercalate (shownItems items) ++ "]"
  | container .deque items => "deque([" ++ ", ".intercalate (shownItems items) ++ "])"
  | shared _ => "..."

def shownItems : List Datum → List String
  | [] => []
  | d :: r => shown d :: shownItems r

def shownFields : List (String × Datum) → List String
  | [] => []
  | (k, d) :: r => (Text.quoted k ++ ": " ++ shown d) :: shownFields r

end

def plain : Datum → String
  | scalar v => v.plain
  | d => shown m d

end Datum
end Enfold
