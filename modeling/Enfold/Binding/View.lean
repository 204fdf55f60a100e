import Enfold.Binding.Datum
import Enfold.Model.View

/-! # Views of bound data

A view shows what a document holds as a value. Objects are told apart from elements and from
containers of either kind by the name of the first member.
-/

namespace Enfold

/-- A text of an element, of which the empty one is absent. -/
def Value.ofPresent (s : String) : Value := if s = "" then .null else .text s

namespace Xml

mutual

def Element.view : Element → Value
  | ⟨tag, attributes, text, tail, children⟩ =>
    .object [("tag", .text tag), ("attrib", .object (attributes.map fun a => (a.1, .text a.2))),
      ("text", .ofPresent text), ("tail", .ofPresent tail), ("children", .list (views children))]

def views : List Element → List Value
  | [] => []
  | e :: r => e.view :: views r

end

end Xml

namespace Datum

variable (m : Model)

mutual

def view : Datum → Value
  | scalar v => v
  | element e => .object [("xml", e.view)]
  | object c values =>
    .object [("bound", .text (m.qualifiedName c)), ("values", .object (viewFields values))]
  | container .list items => .list (viewItems items)
  | container .deque items => .object [("deque", .list (viewItems items))]
  | shared _ => .null

def viewItems : List Datum → List Value
  | [] => []
  | d :: r => view d :: viewItems r

def viewFields : List (String × Datum) → List (String × Value)
  | [] => []
  | (k, d) :: r => (k, view d) :: viewFields r

end

end Datum
end Enfold
