import TemplateTrace.Json.SyntaxFault
import TemplateTrace.Text.Hex
set_option autoImplicit false

/-!
# The text of JSON strings

Writing a string between quotation marks, reading one back, and passing over one whose content is
of no interest.  Passing over checks escapes letter by letter only; reading also pairs escaped
surrogates.  The main statement is `read_escape`: what is written reads back, followed by any text.
-/

namespace TemplateTrace.Json.StringText

open TemplateTrace.Text

/-! ## Writing -/

/-- How a character stands in a written string: quotation mark, backslash and control characters
are escaped, all others stand for themselves. -/
def escapeChar (c : Char) : List Char :=
  if c = '"' then ['\\', '"']
  else if c = '\\' then ['\\', '\\']
  else if c = '\x08' then ['\\', 'b']
  else if c = '\t' then ['\\', 't']
  else if c = '\n' then ['\\', 'n']
  else if c = '\x0c' then ['\\', 'f']
  else if c = '\r' then ['\\', 'r']
  else if c.toNat < 0x20 then
    ['\\', 'u', '0', '0', Hex.digit (c.toNat / 16), Hex.digit c.toNat]
  else [c]

/-- The characters of a written string, marks included. -/
def escape (cs : List Char) : List Char :=
  '"' :: cs.flatMap escapeChar ++ ['"']

/-! ## Pieces -/

/-- What stands first in the body of a string, with the characters after it. -/
inductive Piece where
  /-- the quotation mark that ends the string -/
  | close (rest : List Char)
  /-- a character, plain or as a one-letter escape -/
  | char (c : Char) (rest : List Char)
  /-- an escaped code unit of sixteen bits -/
  | unit (n : Nat) (rest : List Char)
  /-- an escaped code unit that cannot be read -/
  | badUnit (fault : SyntaxFault)
  /-- the end of the text -/
  | cut
  /-- anything that may not stand in a string -/
  | bad (fault : SyntaxFault)
  deriving DecidableEq, Repr

/-- The character that a letter after a backslash stands for. -/
def escapeLetter? (c : Char) : Option Char :=
  if c = '"' then some '"'
  else if c = '\\' then some '\\'
  else if c = '/' then some '/'
  else if c = 'b' then some '\x08'
  else if c = 'f' then some '\x0c'
  else if c = 'n' then some '\n'
  else if c = 'r' then some '\r'
  else if c = 't' then some '\t'
  else none

/-- The sixteen bits written by four hexadecimal digits. -/
def unit? (a b c d : Char) : Option Nat := do
  let a ← Hex.value? a
  let b ← Hex.value? b
  let c ← Hex.value? c
  let d ← Hex.value? d
  return ((a * 16 + b) * 16 + c) * 16 + d

/-- The piece after a backslash and the letter of a code unit: four digits are needed, and the
text has ended when fewer than four bytes of it are left. -/
def unitPiece : List Char → Piece
  | a :: b :: c :: d :: rest =>
      match unit? a b c d with
      | some n => .unit n rest
      | none => .badUnit .badEscape
  | short =>
      if (String.ofList short).utf8ByteSize < 4 then .badUnit .endInString else .badUnit .badEscape

/-- The first piece of the body of a string. -/
def piece : List Char → Piece
  | [] => .cut
  | c :: rest =>
      if c = '"' then .close rest
      else if c = '\\' then
        match rest with
        | [] => .cut
        | e :: rest =>
            if e = 'u' then unitPiece rest
            else
              match escapeLetter? e with
              | some c => .char c rest
              | none => .bad .badEscape
      else if c.toNat < 0x20 then .bad .controlCharacter
      else .char c rest

/-- The characters after a piece, if the string can go on or end there. -/
def Piece.rest? : Piece → Option (List Char)
  | .close rest | .char _ rest | .unit _ rest => some rest
  | .badUnit _ | .cut | .bad _ => none

theorem unitPiece_rest_length {cs rest : List Char} (h : (unitPiece cs).rest? = some rest) :
    rest.length < cs.length := by
  unfold unitPiece at h
  split at h
  · split at h
    · simp only [Piece.rest?, Option.some.injEq] at h
      subst h
      simp only [List.length_cons]
      omega
    · simp [Piece.rest?] at h
  · split at h <;> simp [Piece.rest?] at h

/-- A piece takes at least one character. -/
theorem piece_rest_length {cs rest : List Char} (h : (piece cs).rest? = some rest) :
    rest.length < cs.length := by
  unfold piece at h
  split at h
  · simp [Piece.rest?] at h
  · split at h
    · simp only [Piece.rest?, Option.some.injEq] at h
      subst h
      simp
    · split at h
      · split at h
        · simp [Piece.rest?] at h
        · split at h
          · have := unitPiece_rest_length h
            simp only [List.length_cons]
            omega
          · split at h
            · simp only [Piece.rest?, Option.some.injEq] at h
              subst h
              simp only [List.length_cons]
              omega
            · simp [Piece.rest?] at h
      · split at h
        · simp [Piece.rest?] at h
        · simp only [Piece.rest?, Option.some.injEq] at h
          subst h
          simp

/-! ## Reading -/

/-- Whether a code unit is the first of a surrogate pair. -/
def isLeading (n : Nat) : Bool := 0xD800 ≤ n && n ≤ 0xDBFF

/-- Whether a code unit is the second of a surrogate pair. -/
def isTrailing (n : Nat) : Bool := 0xDC00 ≤ n && n ≤ 0xDFFF

/-- The character of a surrogate pair. -/
def pair (leading trailing : Nat) : Char :=
  Char.ofNat ((leading - 0xD800) * 0x400 + (trailing - 0xDC00) + 0x10000)

/-- Reads the body of a string up to and with its closing mark; gives the content and the
characters after it.  `leading` is an escaped leading surrogate that still waits for its partner,
and `done` the content before it, last character first. -/
def readBody (leading : Option Nat) (done : List Char) (cs : List Char) :
    Except SyntaxFault (List Char × List Char) :=
  match _found : piece cs with
  | .cut => .error .endInString
  | .badUnit fault => .error fault
  | .bad fault => if leading.isSome then .error .brokenPair else .error fault
  | .close rest => if leading.isSome then .error .brokenPair else .ok (done.reverse, rest)
  | .char c rest =>
      if leading.isSome then .error .brokenPair else readBody none (c :: done) rest
  | .unit n rest =>
      match leading with
      | some first =>
          if isTrailing n then readBody none (pair first n :: done) rest
          else .error .loneSurrogate
      | none =>
          if isTrailing n then .error .loneSurrogate
          else if isLeading n then readBody (some n) done rest
          else readBody none (Char.ofNat n :: done) rest
termination_by cs.length
decreasing_by all_goals exact piece_rest_length (by simp [_found, Piece.rest?])

/-- Passes over the body of a string; gives the characters after its closing mark. -/
def skipBody (cs : List Char) : Except SyntaxFault (List Char) :=
  match _found : piece cs with
  | .cut => .error .endInString
  | .badUnit fault | .bad fault => .error fault
  | .close rest => .ok rest
  | .char _ rest | .unit _ rest => skipBody rest
termination_by cs.length
decreasing_by all_goals exact piece_rest_length (by simp [_found, Piece.rest?])

/-- Passing over a string takes at least its closing mark. -/
theorem skipBody_rest_length {cs rest : List Char} (h : skipBody cs = .ok rest) :
    rest.length < cs.length := by
  fun_induction skipBody cs with
  | case1 | case2 | case3 => simp at h
  | case4 cs rest' hp =>
    cases h
    exact piece_rest_length (by simp [hp, Piece.rest?])
  | case5 cs c rest' hp ih | case6 cs n rest' hp ih =>
    have : rest'.length < cs.length := piece_rest_length (by simp [hp, Piece.rest?])
    have := ih h
    omega

/-! ## What is written reads back -/

/-- What a written character is taken for. -/
theorem piece_escapeChar (c : Char) (rest : List Char) :
    piece (escapeChar c ++ rest) = .char c rest
      ∨ (piece (escapeChar c ++ rest) = .unit c.toNat rest ∧ c.toNat < 0x20) := by
  unfold escapeChar
  split
  · next h => left; subst h; simp [piece, escapeLetter?]
  split
  · next h => left; subst h; simp [piece, escapeLetter?]
  split
  · next h => left; subst h; simp [piece, escapeLetter?]
  split
  · next h => left; subst h; simp [piece, escapeLetter?]
  split
  · next h => left; subst h; simp [piece, escapeLetter?]
  split
  · next h => left; subst h; simp [piece, escapeLetter?]
  split
  · next h => left; subst h; simp [piece, escapeLetter?]
  split
  · next low =>
    right
    refine ⟨?_, low⟩
    have high : Hex.value? (Hex.digit (c.toNat / 16)) = some (c.toNat / 16) :=
      Hex.value?_digit _ (by omega)
    have last : Hex.value? (Hex.digit c.toNat) = some (c.toNat % 16) := by
      have same : Hex.digit c.toNat = Hex.digit (c.toNat % 16) := by simp [Hex.digit]
      rw [same]
      exact Hex.value?_digit _ (by omega)
    have zero : Hex.value? '0' = some 0 := by decide
    have whole : ((0 * 16 + 0) * 16 + c.toNat / 16) * 16 + c.toNat % 16 = c.toNat := by omega
    simp [piece, unitPiece, unit?, high, last, zero]
    omega
  · next h1 h2 _ _ _ _ _ h3 => left; simp [piece, h1, h2, h3]

theorem readBody_escapeChar (c : Char) (done rest : List Char) :
    readBody none done (escapeChar c ++ rest) = readBody none (c :: done) rest := by
  rcases piece_escapeChar c rest with h | ⟨h, low⟩
  · rw [readBody]
    split <;> simp_all
  · have notTrailing : isTrailing c.toNat = false := by
      simp only [isTrailing, Bool.and_eq_false_iff, decide_eq_false_iff_not]
      omega
    have notLeading : isLeading c.toNat = false := by
      simp only [isLeading, Bool.and_eq_false_iff, decide_eq_false_iff_not]
      omega
    have back : Char.ofNat c.toNat = c := Char.ofNat_toNat c
    rw [readBody]
    split <;> simp_all

theorem readBody_flatMap_escapeChar (cs done rest : List Char) :
    readBody none done (cs.flatMap escapeChar ++ '"' :: rest)
      = .ok (done.reverse ++ cs, rest) := by
  induction cs generalizing done with
  | nil =>
    rw [readBody]
    split <;> simp_all [piece]
  | cons c cs ih =>
    rw [List.flatMap_cons, List.append_assoc, readBody_escapeChar, ih]
    simp

/-- The content of a written string and the characters after it. -/
def read (cs : List Char) : Except SyntaxFault (List Char × List Char) :=
  readBody none [] cs

/-- A written string reads back, whatever follows it. -/
theorem read_escape (cs rest : List Char) :
    read (cs.flatMap escapeChar ++ '"' :: rest) = .ok (cs, rest) := by
  simpa [read] using readBody_flatMap_escapeChar cs [] rest

end TemplateTrace.Json.StringText
