import Enfold.Failure
import Enfold.Value.Same

/-! # Values as mappings

Where a mapping is asked for, an object will do, and so will a sequence of pairs: a list of
two-part values, or a text of two characters.
-/

namespace Enfold.Value

/-- Items, characters, or names of members. -/
def parts? : Value → Option (List Value)
  | text s => some (s.toList.map fun c => .text c.toString)
  | list items => some items
  | object members => some (members.map fun m => .text m.1)
  | null | bool _ | int _ | decimal _ => none

def pairAt (place : Nat) (v : Value) : Except Misuse (Value × Value) :=
  match v.parts? with
  | none => .error .wrongKind
  | some [k, a] => if k.isKey then .ok (k, a) else .error .wrongKind
  | some parts =>
    .error (.invalid ("dictionary update sequence element #" ++ toString place ++ " has length " ++
      toString parts.length ++ "; 2 is required"))

/-- A pair of which the key is a text. -/
def pair (place : Nat) (v : Value) : Except Misuse (String × Value) := do
  match ← pairAt place v with
  | (.text k, a) => .ok (k, a)
  | _ => .error .wrongKind

/-- A key that is there keeps its place, a new one comes last. -/
def putPair (k a : Value) : List (Value × Value) → List (Value × Value)
  | [] => [(k, a)]
  | (k', b) :: r => if same k' k then (k', a) :: r else (k', b) :: putPair k a r

/-- The pairs of a mapping of which the keys may be of any kind. -/
def toPairs (v : Value) : Except Misuse (List (Value × Value)) :=
  match v with
  | object members => .ok (members.map fun m => (.text m.1, m.2))
  | _ =>
    match v.parts? with
    | none => .error .wrongKind
    | some parts => (parts.zipIdx.mapM fun p => pairAt p.2 p.1).map
        fun pairs => pairs.foldl (fun acc p => putPair p.1 p.2 acc) []

def toMapping (v : Value) : Except Misuse (Assoc String Value) :=
  match v with
  | object members => .ok members
  | _ =>
    match v.parts? with
    | none => .error .wrongKind
    | some parts => (parts.zipIdx.mapM fun p => pair p.2 p.1).map Assoc.ofList

/-- A value that counts as false stands for the empty mapping. -/
def toMappingOrEmpty (v : Value) : Except Misuse (Assoc String Value) :=
  if v.isTruthy then v.toMapping else .ok []

end Enfold.Value
