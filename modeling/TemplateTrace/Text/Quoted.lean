import TemplateTrace.Text.Hex
import TemplateTrace.Text.Shown
set_option autoImplicit false

/-!
# Quoted text in messages

A message that names a string it met shows it between quotation marks, with every character that
could not be read back from the message escaped.  `quoteChars_shown` says that plain text is only
put between the marks.
-/

namespace TemplateTrace.Text

/-- How one character stands in a quoted text: short escapes for the common control characters,
the mark and the backslash; the code point in braces for what is not shown; else itself. -/
def quoteChar (c : Char) : List Char :=
  if c = '\x00' then ['\\', '0']
  else if c = '\t' then ['\\', 't']
  else if c = '\r' then ['\\', 'r']
  else if c = '\n' then ['\\', 'n']
  else if c = '\\' then ['\\', '\\']
  else if c = '"' then ['\\', '"']
  else if isShown c then [c]
  else ['\\', 'u', '\x7b'] ++ Hex.ofNat c.toNat ++ ['\x7d']

/-- The characters of a quoted text, marks included. -/
def quoteChars (cs : List Char) : List Char :=
  '"' :: cs.flatMap quoteChar ++ ['"']

/-- A text between quotation marks. -/
def quote (s : String) : String :=
  String.ofList (quoteChars s.toList)

theorem quoteChar_shown (c : Char) (shown : isShown c = true) (mark : c ≠ '"')
    (backslash : c ≠ '\\') : quoteChar c = [c] := by
  have ne : ∀ d, isShown d = false → c ≠ d := by
    intro d hidden same
    simp [← same, shown] at hidden
  have nul : c ≠ '\x00' := ne _ (by decide +kernel)
  have tab : c ≠ '\t' := ne _ (by decide +kernel)
  have carriage : c ≠ '\r' := ne _ (by decide +kernel)
  have feed : c ≠ '\n' := ne _ (by decide +kernel)
  simp [quoteChar, nul, tab, carriage, feed, backslash, mark, shown]

/-- Shown characters other than the mark and the backslash stand between the marks unchanged. -/
theorem quoteChars_shown (cs : List Char)
    (plain : ∀ c ∈ cs, isShown c = true ∧ c ≠ '"' ∧ c ≠ '\\') :
    quoteChars cs = '"' :: cs ++ ['"'] := by
  have body : cs.flatMap quoteChar = cs := by
    induction cs with
    | nil => rfl
    | cons c rest ih =>
      obtain ⟨shown, mark, backslash⟩ := plain c (by simp)
      rw [List.flatMap_cons, quoteChar_shown c shown mark backslash,
        ih fun d hd => plain d (List.mem_cons_of_mem _ hd)]
      rfl
  simp [quoteChars, body]

end TemplateTrace.Text
