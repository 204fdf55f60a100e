import Enfold.Json.Token

/-! # Reading JSON text

The tokens of a text are taken one by one, with the lists and objects that are still open on a
stack. Of two members of an object with one name the later gives the value.
-/

namespace Enfold.Json

/-- A container that is still open, with its parts in reverse. -/
inductive Frame where
  | list (items : List Value)
  | object (members : List (String × Value)) (key : String)

inductive Expects where
  | value
  | valueOrClose
  | name
  | nameOrClose
  | colon
  | commaOrClose
  | nothing
  deriving DecidableEq

structure Reader where
  stack : List Frame := []
  expects : Expects := .value
  result : Option Value := none

namespace Reader

def place (v : Value) (r : Reader) : Reader :=
  match r.stack with
  | [] => ⟨[], .nothing, some v⟩
  | .list items :: s => ⟨.list (v :: items) :: s, .commaOrClose, none⟩
  | .object ms k :: s => ⟨.object ((k, v) :: ms) k :: s, .commaOrClose, none⟩

def expectsValue (r : Reader) : Bool := r.expects = .value || r.expects = .valueOrClose

def step (r : Reader) : Token → Option Reader
  | .openList =>
    if r.expectsValue then some ⟨.list [] :: r.stack, .valueOrClose, none⟩ else none
  | .openObject =>
    if r.expectsValue then some ⟨.object [] "" :: r.stack, .nameOrClose, none⟩ else none
  | .closeList =>
    match r.stack with
    | .list items :: s =>
      if r.expects = .valueOrClose ∨ r.expects = .commaOrClose then
        some (place (.list items.reverse) ⟨s, .value, none⟩)
      else none
    | _ => none
  | .closeObject =>
    match r.stack with
    | .object ms _ :: s =>
      if r.expects = .nameOrClose ∨ r.expects = .commaOrClose then
        some (place (.object (Assoc.ofList ms.reverse)) ⟨s, .value, none⟩)
      else none
    | _ => none
  | .comma =>
    if r.expects = .commaOrClose then
      match r.stack with
      | .list _ :: _ => some { r with expects := .value }
      | .object _ _ :: _ => some { r with expects := .name }
      | [] => none
    else none
  | .colon => if r.expects = .colon then some { r with expects := .value } else none
  | .string t =>
    if r.expectsValue then some (r.place (.text t))
    else if r.expects = .name ∨ r.expects = .nameOrClose then
      match r.stack with
      | .object ms _ :: s => some ⟨.object ms t :: s, .colon, none⟩
      | _ => none
    else none
  | .scalar v => if r.expectsValue then some (r.place v) else none

end Reader

/-- The value of a JSON text, if it is one. -/
def parse? (s : String) : Option Value := do
  let ts ← tokens [] s.toList
  let r ← ts.foldlM Reader.step {}
  r.result

end Enfold.Json
