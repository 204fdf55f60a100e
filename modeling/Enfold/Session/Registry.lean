import Enfold.Session.Basic

/-! # Calls on the episode and the factories

The registries of a model can be asked and changed directly. A call names what is to be done, and
does it only if it was given as many texts as it takes.
-/

namespace Enfold.Model

variable (m : Model)

/-- A call on the episode; a new one takes the place of the old. -/
def callEpisode (call : String) (given : List String) : StepM (Model × Value) :=
  let done (e : Episode) (v : Value) : StepM (Model × Value) :=
    .ok ({ m with episode := some e }, v)
  match call, m.episode with
  | "new", _ =>
    let e := Episode.ofList given
    done e (.int e.refs.length)
  | _, none => .error .noEpisode
  | call, some e =>
    match call, given with
    | "add", [ref] => done (e.add ref) .null
    | "remove", [ref] => done (e.remove ref) .null
    | "rename", [old, new] => done (e.rename old new) .null
    | "contains", [ref] => done e (.bool (e.contains ref))
    | "len", _ => done e (.int e.refs.length)
    | _, _ => .error (.misuse .wrongKind)

/-- A call on the factory of a package, which is there from then on. -/
def callFactory (package : Option String) (call : String) (given : List String) :
    Model × StepM Value :=
  let m := m.modifyFactory package id
  let f := (Assoc.get? package m.factories).getD []
  match call, given with
  | "register", [interface, implementation] =>
    (m.modifyFactory package (Assoc.put interface implementation), .ok .null)
  | "rename", [old, new] =>
    (if Assoc.contains old f then m.modifyFactory package (Assoc.rename old new) else m, .ok .null)
  | "implementation_for", [interface] =>
    (m, .ok (match Assoc.get? interface f with
      | some i => .text i
      | none => .null))
  | _, _ => (m, .error (.misuse .wrongKind))

end Enfold.Model
