set_option autoImplicit false

/-!
# Lines

A byte string falls into lines at each line feed.  A carriage return right before the line feed
belongs to the line end; what follows the last line feed is a line unless it is empty.
`physicalLines_append` says that a text ending in a line feed keeps its lines whatever follows.

A line is trimmed of the twenty-five code points with the Unicode property `White_Space`, a class
that contains the ASCII one of core (`isBlank_of_isWhitespace`).
-/

namespace TemplateTrace.Text

/-! ## Physical lines -/

/-- The byte that ends a line. -/
def lineFeed : UInt8 := 10

/-- The byte that may stand before a line feed as part of the line end. -/
def carriageReturn : UInt8 := 13

/-- The bytes of a line from those before its line feed, last one first. -/
def closeLine : List UInt8 → List UInt8
  | [] => []
  | b :: line => if b = carriageReturn then line.reverse else (b :: line).reverse

/-- The lines of a byte string of which the bytes `line`, last one first, were read already. -/
def physicalLinesFrom (line : List UInt8) : List UInt8 → List (List UInt8)
  | [] => if line.isEmpty then [] else [line.reverse]
  | b :: rest =>
      if b = lineFeed then closeLine line :: physicalLinesFrom [] rest
      else physicalLinesFrom (b :: line) rest

/-- The lines of a byte string, without their line ends. -/
def physicalLines (bytes : List UInt8) : List (List UInt8) :=
  physicalLinesFrom [] bytes

theorem physicalLinesFrom_append (line a b : List UInt8) :
    physicalLinesFrom line (a ++ lineFeed :: b)
      = physicalLinesFrom line (a ++ [lineFeed]) ++ physicalLines b := by
  induction a generalizing line with
  | nil => simp [physicalLinesFrom, physicalLines]
  | cons x a ih =>
    by_cases h : x = lineFeed
    · simp [physicalLinesFrom, h, ih]
    · simp [physicalLinesFrom, h, ih]

/-- What follows a line feed does not change the lines before it. -/
theorem physicalLines_append (a b : List UInt8) :
    physicalLines (a ++ [lineFeed] ++ b) = physicalLines (a ++ [lineFeed]) ++ physicalLines b := by
  simpa [physicalLines] using physicalLinesFrom_append [] a b

/-- The text of a line; `none` when its bytes are not UTF-8. -/
def lineText? (line : List UInt8) : Option String :=
  String.fromUTF8? ⟨line.toArray⟩

/-! ## Blank characters -/

/-- A code point with the property `White_Space`. -/
def isBlank (c : Char) : Bool :=
  let n := c.toNat
  (0x09 ≤ n && n ≤ 0x0D) || n == 0x20 || n == 0x85 || n == 0xA0 || n == 0x1680
    || (0x2000 ≤ n && n ≤ 0x200A) || n == 0x2028 || n == 0x2029 || n == 0x202F
    || n == 0x205F || n == 0x3000

/-- Every character that core calls white space is blank. -/
theorem isBlank_of_isWhitespace (c : Char) (h : c.isWhitespace = true) : isBlank c = true := by
  simp only [Char.isWhitespace, Bool.or_eq_true, decide_eq_true_eq] at h
  rcases h with ((h | h) | h) | h <;> subst h <;> decide

/-- A list of characters without the blank ones at its two ends. -/
def trimChars (cs : List Char) : List Char :=
  ((cs.dropWhile isBlank).reverse.dropWhile isBlank).reverse

/-- A text without the blank characters at its two ends. -/
def trim (s : String) : String :=
  String.ofList (trimChars s.toList)

end TemplateTrace.Text
