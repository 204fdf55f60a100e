import Enfold.Assoc
import Enfold.Pass.Summary
import Enfold.Text.Blank
import Enfold.Text.Word
import Enfold.Value.Shown

/-! # Templates

A template is text with places in double braces. A place holds the name of a variable, and may
ask for it to be counted with a noun.
-/

namespace Enfold

inductive TemplatePart where
  | literal (s : String)
  | variable (name : String)
  | counted (name noun : String)
  deriving DecidableEq, Repr

inductive TemplateError where
  | missing (template : String)
  | undefined (template name : String)
  | malformed (template : String)
  deriving DecidableEq, Repr

def TemplateError.message : TemplateError → String
  | missing t => "Failed to render template " ++ t ++ ": " ++ t
  | undefined t name => "Failed to render template " ++ t ++ ": '" ++ name ++ "' is undefined"
  | malformed t => "Failed to render template " ++ t ++ ": "

namespace Template

def expect? (word : String) (s : List Char) : Option (List Char) :=
  let s := s.dropWhile Text.isBlank
  if word.toList.isPrefixOf s then some (s.drop word.length) else none

def nameAt? (s : List Char) : Option (String × List Char) :=
  let s := s.dropWhile Text.isBlank
  let name := s.takeWhile Text.isWordChar
  match name with
  | [] => none
  | c :: _ => if Text.isDecimalDigit c then none else some (String.ofList name, s.drop name.length)

/-- A text between quotes of either kind. -/
def quotedAt? (s : List Char) : Option (String × List Char) :=
  match s.dropWhile Text.isBlank with
  | q :: r =>
    if q = '\'' ∨ q = '"' then
      match Text.cutAt q r with
      | (text, some rest) => some (String.ofList text, rest)
      | (_, none) => none
    else none
  | [] => none

def closing : String := "\x7d\x7d"

def place? (s : List Char) : Option (TemplatePart × List Char) := do
  let (name, rest) ← nameAt? s
  match expect? closing rest with
  | some rest => some (.variable name, rest)
  | none =>
    let rest ← expect? "plural_count" (← expect? "|" rest)
    let (noun, rest) ← quotedAt? (← expect? "(" rest)
    let rest ← expect? closing (← expect? ")" rest)
    some (.counted name noun, rest)

/-- Reads a template, with the literal text before the current character in reverse. -/
def parts? (literal : List Char) (s : List Char) : Option (List TemplatePart) :=
  let flushed : List TemplatePart :=
    if literal.isEmpty then [] else [.literal (String.ofList literal.reverse)]
  match s with
  | [] => some flushed
  | '\x7b' :: '\x7b' :: r =>
    match place? r with
    | none => none
    | some (part, rest) =>
      if rest.length ≤ r.length then (parts? [] rest).map fun ps => flushed ++ part :: ps else none
  | c :: r => parts? (c :: literal) r
termination_by s.length

def lookUp (template : String) (context : Assoc String Value) (name : String) :
    Except TemplateError String :=
  match Assoc.get? name context with
  | some v => .ok v.plain
  | none => .error (.undefined template name)

def renderPart (template : String) (context : Assoc String Value) :
    TemplatePart → Except TemplateError String
  | .literal s => .ok s
  | .variable name => lookUp template context name
  | .counted name noun => (lookUp template context name).map fun n => Counters.counted n noun

def render (templates : Assoc String String) (name : String) (context : Assoc String Value) :
    Except TemplateError String :=
  match Assoc.get? name templates with
  | none => .error (.missing name)
  | some text =>
    match parts? [] (Text.foldNewlines text.toList) with
    | none => .error (.malformed name)
    | some parts => (parts.mapM (renderPart name context)).map String.join

end Template
end Enfold
