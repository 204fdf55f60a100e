/-! # Blanks and line ends

The characters that count as blank, the trimming and splitting that go by them, and the
characters that end a line.
-/

namespace Enfold.Text

/-- The blank characters of Unicode together with the four separators from U+001C on. -/
def isBlank (c : Char) : Bool :=
  let n := c.toNat
  (0x09 ≤ n && n ≤ 0x0D) || (0x1C ≤ n && n ≤ 0x20) || n = 0x85 || n = 0xA0 || n = 0x1680 ||
  (0x2000 ≤ n && n ≤ 0x200A) || n = 0x2028 || n = 0x2029 || n = 0x202F || n = 0x205F || n = 0x3000

def trimWhere (p : Char → Bool) (s : List Char) : List Char :=
  ((s.dropWhile p).reverse.dropWhile p).reverse

def trim (s : String) : String := String.ofList (trimWhere isBlank s.toList)

/-- The maximal runs of characters that are not blank. -/
def splitBlanks (s : List Char) : List (List Char) :=
  (s.foldr (fun c (acc : List Char × List (List Char)) =>
      if isBlank c then ([], if acc.1.isEmpty then acc.2 else acc.1 :: acc.2)
      else (c :: acc.1, acc.2)) ([], [])
    |> fun acc => if acc.1.isEmpty then acc.2 else acc.1 :: acc.2)

def words (s : String) : List String := (splitBlanks s.toList).map String.ofList

/-- The ends of lines; a carriage return and a line feed are one. -/
def isLineEnd (c : Char) : Bool :=
  let n := c.toNat
  (0x0A ≤ n && n ≤ 0x0D) || (0x1C ≤ n && n ≤ 0x1E) || n = 0x85 || n = 0x2028 || n = 0x2029

/-- The line up to the first line end, and what follows that. -/
def cutLine : List Char → List Char × Option (List Char)
  | [] => ([], none)
  | '\r' :: '\n' :: r => ([], some r)
  | c :: r => if isLineEnd c then ([], some r) else
    let (line, rest) := cutLine r
    (c :: line, rest)

theorem length_of_cutLine {s l r : List Char} (h : cutLine s = (l, some r)) :
    r.length < s.length := by
  fun_induction cutLine s generalizing l with
  | case1 => simp at h
  | case2 r' =>
    simp only [Prod.mk.injEq, Option.some.injEq] at h
    rw [← h.2, List.length_cons, List.length_cons]
    omega
  | case3 c r' _ hc =>
    simp only [Prod.mk.injEq, Option.some.injEq] at h
    rw [← h.2, List.length_cons]
    omega
  | case4 c r' _ hc line rest hcut ih =>
    simp only [Prod.mk.injEq] at h
    obtain ⟨-, rfl⟩ := h
    have := ih hcut
    rw [List.length_cons]
    omega

/-- The lines of a text, with no empty one after a line end that comes last. -/
def splitLines (s : List Char) : List (List Char) :=
  if s.isEmpty then [] else
    match _h : cutLine s with
    | (line, none) => [line]
    | (line, some rest) => line :: splitLines rest
termination_by s.length
decreasing_by exact length_of_cutLine ‹_›

def lines (s : String) : List String := (splitLines s.toList).map String.ofList

def foldNewlines : List Char → List Char
  | [] => []
  | '\r' :: '\n' :: r => '\n' :: foldNewlines r
  | c :: r => (if c = '\r' then '\n' else c) :: foldNewlines r

end Enfold.Text
