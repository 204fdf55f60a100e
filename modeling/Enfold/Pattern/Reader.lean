import Enfold.Pattern.Token

/-! # Reading patterns

Tokens are taken one by one. Each open parenthesis has a level of its own, with the alternatives
that are complete and the parts of the one that is being read.

The patterns are those that describe a regular set of texts in any order of trying: characters, sets,
categories, anchors, repetitions, groups, looking ahead and back, and the flags `i`, `m`, `s` and
`u`. What depends on the text of a group or on the order of trying (references, conditions, atomic
groups, possessive repetitions) is refused, and so are the flags `x` and `a`, characters by name and
group names outside ASCII.
-/

namespace Enfold.Pattern

/-- A part of a pattern, by what may be said of it next. -/
inductive Part where
  | simple (p : Pattern)
  /-- A condition on a place cannot be repeated. -/
  | anchor (p : Pattern)
  /-- A repetition cannot be repeated. -/
  | repeated (p : Pattern)

def Part.pattern : Part → Pattern
  | simple p | anchor p | repeated p => p

structure Nesting where
  opening : Opening
  flags : Flags
  /-- The alternatives that are complete. -/
  done : Option Pattern := none
  /-- The parts of the current alternative, the last one first. -/
  parts : List Part := []

structure ReaderState where
  level : Nesting
  outer : List Nesting := []
  names : List String := []

def Flags.set (value : Bool) (f : Flags) : Char → Flags
  | 'i' => { f with ignoreCase := value }
  | 's' => { f with dotAll := value }
  | 'm' => { f with multiline := value }
  | _ => f

def Flags.change (f : Flags) (change : FlagChange) : Flags :=
  change.off.foldl (Flags.set false) (change.on.foldl (Flags.set true) f)

namespace Nesting

def current (n : Nesting) : Pattern := n.parts.foldl (fun acc p => .seq p.pattern acc) .empty

def pattern (n : Nesting) : Pattern :=
  match n.done with
  | some p => .alt p n.current
  | none => n.current

def add (n : Nesting) (p : Part) : Nesting := { n with parts := p :: n.parts }

def nextAlternative (n : Nesting) : Nesting := { n with done := some n.pattern, parts := [] }

def repeatLast (n : Nesting) (min : Nat) (max : Option Nat) : Option Nesting :=
  match n.parts with
  | .simple p :: r => some { n with parts := .repeated (.repetition min max p) :: r }
  | _ => none

/-- A level once it is closed; to look back, one has to know how far. -/
def closed? (n : Nesting) : Option Part :=
  match n.opening with
  | .ahead negated => some (.simple (.look 0 negated n.pattern))
  | .behind negated => n.pattern.fixedWidth?.map fun w => .simple (.look w negated n.pattern)
  | _ => some (.simple n.pattern)

end Nesting

namespace ReaderState

def enter (st : ReaderState) (o : Opening) (flags : Flags) : ReaderState :=
  { st with level := { opening := o, flags }, outer := st.level :: st.outer }

/-- Whether flags for the whole pattern may still come. -/
def isFresh (st : ReaderState) : Bool :=
  st.outer.isEmpty && st.level.done.isNone && st.level.parts.isEmpty

def step (st : ReaderState) : Token → Option ReaderState
  | .char t => some { st with level := st.level.add (.simple (.char st.level.flags t)) }
  | .anchor a => some { st with level := st.level.add (.anchor (.anchor st.level.flags a)) }
  | .repetition min max => (st.level.repeatLast min max).map fun l => { st with level := l }
  | .bar => some { st with level := st.level.nextAlternative }
  | .opening (.named name) =>
    if st.names.contains name then none
    else some (({ st with names := name :: st.names }).enter (.named name) st.level.flags)
  | .opening (.flagged change) => some (st.enter (.flagged change) (st.level.flags.change change))
  | .opening o => some (st.enter o st.level.flags)
  | .closing =>
    match st.outer with
    | l :: outer => st.level.closed?.map fun part => { st with level := l.add part, outer }
    | [] => none
  | .flags on =>
    if st.isFresh then
      some { st with level := { st.level with flags := st.level.flags.change ⟨on, []⟩ } }
    else none
  | .remark => some st

end ReaderState

/-- Reads a written pattern, unless a bound of a repetition is too great. -/
def parse? (text : String) : Option Pattern := do
  let tokens ← tokens? text.toList
  let st ← tokens.foldlM ReaderState.step { level := { opening := .group, flags := {} } }
  if st.outer.isEmpty then some st.level.pattern else none

end Enfold.Pattern
