import Enfold.Pattern.Reader

/-! # Compilers of patterns

A compiler says which texts a written pattern matches. It may refuse what is no pattern, and it may
fail in a way of its own, as on a repetition that is too large for it. Nothing in a control file
depends on which compiler is used.
-/

namespace Enfold

/-- A compiled pattern: its text, and the texts that it matches as a whole. -/
structure Matcher where
  text : String
  accepts : String → Bool

variable {ε : Type}

inductive CompileError (ε : Type) where
  | invalid
  /-- A failure that is not about the text, and that is passed on. -/
  | foreign (cause : ε)

abbrev Compiler (ε : Type) := String → Except (CompileError ε) (String → Bool)

def Compiler.matcher (compile : Compiler ε) (text : String) : Except (CompileError ε) Matcher :=
  (compile text).map fun accepts => ⟨text, accepts⟩

/-- The compiler at hand, which fails in no way of its own. -/
def Pattern.compile : Compiler Empty := fun text =>
  match Pattern.parse? text with
  | some p => .ok p.accepts
  | none => .error .invalid

end Enfold
