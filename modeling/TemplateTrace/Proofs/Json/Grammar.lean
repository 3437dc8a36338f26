import TemplateTrace.Json.Printer
import TemplateTrace.Proofs.Json.Spelling
set_option autoImplicit false

/-!
# The texts of a value

A value has many texts: blanks may stand between tokens, strings may be escaped in several ways, and
numbers may be written with more digits than needed.  `ValueText` is the grammar of these texts, in
which the reading of a single number or string is taken as it is.  All texts of a value fall into
the same tokens (`ValueText.tokens_eq`), so that a reader makes the same of all of them
(`wholeText_of_writes`).
-/

namespace TemplateTrace.Json

open TemplateTrace.Decimal
open NumberText (Legible Stops stops_nil stops_cons numeral numeral_append)

/-! ## Strings before other text -/

namespace StringText

/-- A piece with more text behind it. -/
def Piece.before (rest : List Char) : Piece → Piece
  | .close after => .close (after ++ rest)
  | .char c after => .char c (after ++ rest)
  | .unit n after => .unit n (after ++ rest)
  | other => other

theorem unitPiece_append {cs after : List Char} (found : (unitPiece cs).rest? = some after)
    (rest : List Char) : unitPiece (cs ++ rest) = (unitPiece cs).before rest := by
  match cs with
  | a :: b :: c :: d :: more =>
    simp only [unitPiece, List.cons_append] at found ⊢
    split <;> simp_all [Piece.before]
  | [] | [_] | [_, _] | [_, _, _] =>
    simp only [unitPiece] at found
    split at found <;> cases found

/-- A piece with which a string goes on or ends does not depend on the text behind it. -/
theorem piece_append {cs after : List Char} (found : (piece cs).rest? = some after)
    (rest : List Char) : piece (cs ++ rest) = (piece cs).before rest := by
  cases cs with
  | nil => cases found
  | cons c cs =>
    simp only [piece, List.cons_append] at found ⊢
    by_cases closes : c = '"'
    · simp [closes, Piece.before]
    by_cases escapes : c = '\\'
    · simp only [escapes] at found ⊢
      cases cs with
      | nil => cases found
      | cons e cs =>
        simp only [List.cons_append, Char.reduceEq, if_true, if_false] at found ⊢
        by_cases unit : e = 'u'
        · simp only [unit, if_true] at found ⊢
          exact unitPiece_append found rest
        · simp only [unit, if_false] at found ⊢
          cases letter : escapeLetter? e with
          | none => simp [letter, Piece.rest?] at found
          | some d => rfl
    · simp only [closes, escapes, if_false] at found ⊢
      split <;> rfl


/-- A string is read before other text as it is read alone. -/
theorem readBody_append {leading : Option Nat} {done cs content after : List Char}
    (h : readBody leading done cs = .ok (content, after)) (rest : List Char) :
    readBody leading done (cs ++ rest) = .ok (content, after ++ rest) := by
  fun_induction readBody leading done cs with
  | case6 | case8 | case9 | case12 | case13 =>
    have found := ‹piece _ = _›
    have same := piece_append (by rw [found]; rfl) rest
    rw [found] at same
    rw [readBody]
    split <;> simp_all [Piece.before]
  | _ => cases h

/-- A string that can be read can be passed over. -/
theorem skipBody_of_readBody {leading : Option Nat} {done cs content after : List Char}
    (h : readBody leading done cs = .ok (content, after)) : skipBody cs = .ok after := by
  fun_induction readBody leading done cs with
  | case6 | case8 | case9 | case12 | case13 =>
    have found := ‹piece _ = _›
    rw [skipBody]
    split <;> simp_all
  | _ => cases h

end StringText

/-! ## Single tokens -/

namespace Token

/-- The characters that are tokens by themselves. -/
def mark? (c : Char) : Option Token :=
  if c = '\x7b' then some (.opening .curly)
  else if c = '\x7d' then some (.closing .curly)
  else if c = '[' then some (.opening .square)
  else if c = ']' then some (.closing .square)
  else if c = ':' then some .colon
  else if c = ',' then some .comma
  else none

theorem tokens_mark {c : Char} {t : Token} (mark : mark? c = some t) (cs : List Char) :
    tokens (c :: cs) = t :: tokens cs := by
  unfold mark? at mark
  repeat' split at mark
  all_goals
    first
    | cases mark
      subst_vars
      rw [tokens]
      rfl
    | cases mark

theorem tokens_null (cs : List Char) :
    tokens ('n' :: 'u' :: 'l' :: 'l' :: cs) = .null :: tokens cs := by
  rw [tokens]
  simp [isSpace, word]

theorem tokens_bool (b : Bool) (cs : List Char) :
    tokens ((toString b).toList ++ cs) = .bool b :: tokens cs := by
  cases b with
  | false =>
    change tokens ('f' :: (['a', 'l', 's', 'e'] ++ cs)) = _
    rw [tokens]
    simp [isSpace, word]
  | true =>
    change tokens ('t' :: (['r', 'u', 'e'] ++ cs)) = _
    rw [tokens]
    simp [isSpace, word]

/-- A text that starts like a number starts with one, or breaks off in one. -/
theorem tokens_of_start {c : Char} (start : c = '-' ∨ c.isDigit = true) (cs : List Char) :
    tokens (c :: cs) = match numeral (c :: cs) with
      | .ok (t, rest) => .number (numberLexeme t) :: tokens rest
      | .error rest => [.number (brokenNumber rest)] := by
  have others : ∀ d ∈ [' ', '\n', '\t', '\r', '\x7b', '\x7d', '[', ']', ':', ',', '"', 'n', 't',
      'f'], c ≠ d := by
    rintro d member rfl
    simp only [List.mem_cons, List.not_mem_nil, or_false] at member
    rcases start with rfl | digit
    · revert member
      decide
    · rcases member with rfl | rfl | rfl | rfl | rfl | rfl | rfl | rfl | rfl | rfl | rfl | rfl | rfl
        | rfl <;> cases digit
  rw [tokens]
  simp only [isSpace, Bool.or_eq_true, beq_iff_eq, List.mem_cons, Char.reduceEq, List.not_mem_nil,
    or_self, or_false, others, or_true, ↓reduceIte, start]
  split
  · next found => rw [found]
  · next found => rw [found]

theorem tokens_numeral {c : Char} {cs rest : List Char} {t : Numeral}
    (h : numeral (c :: cs) = .ok (t, rest)) :
    tokens (c :: cs) = .number (numberLexeme t) :: tokens rest := by
  rw [tokens_of_start (NumberText.start_of_numeral h), h]

/-- A string that can be passed over is one token. -/
theorem tokens_string {cs rest : List Char} (skipped : StringText.skipBody cs = .ok rest) :
    tokens ('"' :: cs) = .string ⟨stringContent cs, .ok ()⟩ :: tokens rest := by
  rw [tokens]
  simp only [show isSpace '"' = false by decide, Char.reduceEq, Bool.false_eq_true, if_false,
    if_true]
  split
  · next found =>
    obtain rfl := Except.ok.inj (skipped.symm.trans found)
    rfl
  · next found => exact nomatch skipped.symm.trans found

/-- A text that is a number from end to end is one token, unless the text after it goes on with the
number. -/
theorem tokens_number {cs : List Char} {t : Numeral} {n : Number} (read : numeral cs = .ok (t, []))
    (value : t.value? = some n) {rest : List Char} (stops : Stops rest) :
    tokens (cs ++ rest) = .number (.of n) :: tokens rest := by
  have whole := numeral_append read stops
  have lexeme : numberLexeme t = .of n := by
    rw [numberLexeme, value]
    rfl
  cases cs with
  | nil => exact absurd (NumberText.numeral_rest_length read) (Nat.not_lt_zero _)
  | cons c cs =>
    rw [List.cons_append] at whole ⊢
    rw [tokens_numeral whole, lexeme, List.nil_append]

theorem tokens_render {n : Number} (legible : Legible n) {rest : List Char} (stops : Stops rest) :
    tokens ((NumberText.render n).toList ++ rest) = .number (.of n) :: tokens rest := by
  obtain ⟨t, read, value⟩ := legible
  exact tokens_number read value stops

end Token

/-! ## The grammar -/

/-- Characters that may stand between any two tokens. -/
def Blank (cs : List Char) : Prop :=
  ∀ c ∈ cs, Token.isSpace c = true

/-- The ways to write a number. -/
def Denotes (n : Number) (cs : List Char) : Prop :=
  ∃ t, numeral cs = .ok (t, []) ∧ t.value? = some n

/-- The ways to write a string, marks included. -/
def Quotes (s : String) (cs : List Char) : Prop :=
  ∃ body, cs = '"' :: body ∧ StringText.read body = .ok (s.toList, [])

/-- What stands before an item or a member: a comma unless it is the first one. -/
def commaText (first : Bool) : List Char :=
  if first then [] else [',']

mutual

/-- The texts of a value, from its first token to its last. -/
inductive ValueText : Json → List Char → Prop
  | null : ValueText .null ['n', 'u', 'l', 'l']
  | bool (b : Bool) : ValueText (.bool b) (toString b).toList
  | number {n : Number} {cs : List Char} (denotes : Denotes n cs) : ValueText (.number n) cs
  | string {s : String} {cs : List Char} (quotes : Quotes s cs) : ValueText (.string s) cs
  | array {values : List Json} {cs : List Char} (items : ItemsText true values cs) :
      ValueText (.array values) ('[' :: (cs ++ [']']))
  | object {fields : List (String × Json)} {cs : List Char} (members : MembersText true fields cs) :
      ValueText (.object fields) ('\x7b' :: (cs ++ ['\x7d']))

/-- The texts of the items of an array up to its closing bracket. -/
inductive ItemsText : Bool → List Json → List Char → Prop
  | nil (first : Bool) {blanks : List Char} (blank : Blank blanks) : ItemsText first [] blanks
  | cons (first : Bool) {j : Json} {values : List Json} {before cs after more : List Char}
      (blankBefore : Blank before) (value : ValueText j cs) (blankAfter : Blank after)
      (rest : ItemsText false values more) :
      ItemsText first (j :: values) (commaText first ++ (before ++ (cs ++ (after ++ more))))

/-- The texts of the members of an object up to its closing brace. -/
inductive MembersText : Bool → List (String × Json) → List Char → Prop
  | nil (first : Bool) {blanks : List Char} (blank : Blank blanks) : MembersText first [] blanks
  | cons (first : Bool) {name : String} {j : Json} {fields : List (String × Json)}
      {before quoted between inner cs after more : List Char} (blankBefore : Blank before)
      (quotes : Quotes name quoted) (blankBetween : Blank between) (blankInner : Blank inner)
      (value : ValueText j cs) (blankAfter : Blank after) (rest : MembersText false fields more) :
      MembersText first ((name, j) :: fields) (commaText first ++ (before ++ (quoted ++ (between
        ++ ':' :: (inner ++ (cs ++ (after ++ more)))))))

end

/-- A text that is a value, with blanks around it. -/
def Writes (text : String) (j : Json) : Prop :=
  ∃ before cs after, text.toList = before ++ (cs ++ after) ∧ Blank before ∧ ValueText j cs
    ∧ Blank after

/-! ## Tokens of a text -/

open Token (tokens)

theorem Blank.tokens_eq {blanks : List Char} (blank : Blank blanks) (rest : List Char) :
    tokens (blanks ++ rest) = tokens rest := by
  induction blanks with
  | nil => rfl
  | cons c blanks ih =>
    obtain ⟨space, blank⟩ := List.forall_mem_cons.1 blank
    exact (Token.tokens_space space _).trans (ih blank)

theorem Blank.stops {blanks rest : List Char} (blank : Blank blanks) (stops : Stops rest) :
    Stops (blanks ++ rest) := by
  cases blanks with
  | nil => exact stops
  | cons c blanks =>
    have space := blank c List.mem_cons_self
    simp only [Token.isSpace, Bool.or_eq_true, beq_iff_eq] at space
    refine stops_cons ?_ _
    rcases space with ((rfl | rfl) | rfl) | rfl <;> decide

theorem Quotes.tokens_eq {s : String} {cs : List Char} (quotes : Quotes s cs) (rest : List Char) :
    tokens (cs ++ rest) = .string (.of s) :: tokens rest := by
  obtain ⟨body, rfl, read⟩ := quotes
  have whole : StringText.read (body ++ rest) = .ok (s.toList, rest) :=
    StringText.readBody_append read rest
  have skipped : StringText.skipBody (body ++ rest) = .ok rest :=
    StringText.skipBody_of_readBody whole
  rw [List.cons_append, Token.tokens_string skipped, Token.stringContent, whole]
  simp [Except.map, Lexeme.of]

theorem commaText_tokens (first : Bool) (rest : List Char) :
    tokens (commaText first ++ rest) = separator first ++ tokens rest := by
  cases first with
  | true => rfl
  | false => exact Token.tokens_mark rfl rest

theorem ItemsText.stops {values : List Json} {cs : List Char} (items : ItemsText false values cs)
    (rest : List Char) : Stops (cs ++ ']' :: rest) := by
  cases items with
  | nil first blank => exact blank.stops (stops_cons (by decide) rest)
  | cons => exact stops_cons (by decide) _

theorem MembersText.stops {fields : List (String × Json)} {cs : List Char}
    (members : MembersText false fields cs) (rest : List Char) : Stops (cs ++ '\x7d' :: rest) := by
  cases members with
  | nil first blank => exact blank.stops (stops_cons (by decide) rest)
  | cons => exact stops_cons (by decide) _

mutual

/-- All texts of a value fall into its spelling, whatever stands behind them that does not go on
with a number. -/
theorem ValueText.tokens_eq {j : Json} {cs : List Char} (value : ValueText j cs)
    {rest : List Char} (stops : Stops rest) : tokens (cs ++ rest) = j.spelling ++ tokens rest := by
  cases value with
  | null => exact Token.tokens_null rest
  | bool b => exact Token.tokens_bool b rest
  | number denotes =>
    obtain ⟨t, read, value⟩ := denotes
    exact Token.tokens_number read value stops
  | string quotes => exact quotes.tokens_eq rest
  | array items =>
    rw [List.cons_append, Token.tokens_mark rfl, List.append_assoc, List.singleton_append,
      items.tokens_eq]
    simp [spelling]
  | object members =>
    rw [List.cons_append, Token.tokens_mark rfl, List.append_assoc, List.singleton_append,
      members.tokens_eq]
    simp [spelling]

theorem ItemsText.tokens_eq {first : Bool} {values : List Json} {cs : List Char}
    (items : ItemsText first values cs) (rest : List Char) :
    tokens (cs ++ ']' :: rest) = itemsSpelling first values ++ .closing .square :: tokens rest := by
  cases items with
  | nil first blank => exact (blank.tokens_eq _).trans (Token.tokens_mark rfl rest)
  | cons first blankBefore value blankAfter more =>
    have stops := blankAfter.stops (more.stops rest)
    simp only [List.append_assoc, commaText_tokens, blankBefore.tokens_eq, value.tokens_eq stops,
      blankAfter.tokens_eq, more.tokens_eq rest, itemsSpelling]

theorem MembersText.tokens_eq {first : Bool} {fields : List (String × Json)} {cs : List Char}
    (members : MembersText first fields cs) (rest : List Char) :
    tokens (cs ++ '\x7d' :: rest)
      = membersSpelling first fields ++ .closing .curly :: tokens rest := by
  cases members with
  | nil first blank => exact (blank.tokens_eq _).trans (Token.tokens_mark rfl rest)
  | cons first blankBefore quotes blankBetween blankInner value blankAfter more =>
    have stops := blankAfter.stops (more.stops rest)
    have colon (cs : List Char) : tokens (':' :: cs) = .colon :: tokens cs :=
      Token.tokens_mark rfl cs
    simp only [List.append_assoc, List.cons_append, commaText_tokens, blankBefore.tokens_eq,
      quotes.tokens_eq, blankBetween.tokens_eq, colon, blankInner.tokens_eq, value.tokens_eq stops,
      blankAfter.tokens_eq, more.tokens_eq rest, membersSpelling, memberSpelling]

end

/-! ## Compact texts -/

theorem blank_nil : Blank [] :=
  List.forall_mem_nil _

/-- The written form of a string is one of the ways to write it. -/
theorem quotes_quoted (s : String) : Quotes s (quoted s).toList := by
  refine ⟨s.toList.flatMap StringText.escapeChar ++ ['"'], ?_, StringText.read_escape s.toList []⟩
  rw [quoted, String.toList_ofList, StringText.escape, List.cons_append]

theorem toList_comma (first : Bool) : (if first then "" else ",").toList = commaText first := by
  cases first <;> rfl

theorem itemsText_compact {values : List Json} (each : ∀ j ∈ values, ValueText j j.compact.toList)
    (first : Bool) : ItemsText first values (compactItems first values).toList := by
  induction values generalizing first with
  | nil => exact .nil first blank_nil
  | cons j values ih =>
    obtain ⟨value, each⟩ := List.forall_mem_cons.1 each
    have text := ItemsText.cons first blank_nil value blank_nil (ih each false)
    simpa only [compactItems, String.toList_append, toList_comma, List.nil_append,
      List.append_assoc] using text

theorem membersText_compact {fields : List (String × Json)}
    (each : ∀ m ∈ fields, ValueText m.2 m.2.compact.toList) (first : Bool) :
    MembersText first fields (compactMembers first fields).toList := by
  induction fields generalizing first with
  | nil => exact .nil first blank_nil
  | cons m fields ih =>
    obtain ⟨name, j⟩ := m
    obtain ⟨value, each⟩ := List.forall_mem_cons.1 each
    have text := MembersText.cons first blank_nil (quotes_quoted name) blank_nil blank_nil value
      blank_nil (ih each false)
    simpa only [compactMembers, compactMember, String.toList_append, toList_comma, List.nil_append,
      List.append_assoc, show ":".toList = [':'] from rfl, List.singleton_append,
      List.cons_append] using text

/-- The compact text of a value is one of its texts. -/
theorem valueText_compact {room : Nat} {j : Json} (readable : Readable room j) :
    ValueText j j.compact.toList := by
  induction readable with
  | null => exact .null
  | bool room b => exact .bool b
  | number room legible => exact .number legible
  | string room s => exact .string (quotes_quoted s)
  | @array room values _ ih =>
    have text : (Json.array values).compact.toList
        = '[' :: ((compactItems true values).toList ++ [']']) := by
      simp [compact]
    rw [text]
    exact .array (itemsText_compact ih true)
  | @object room fields _ ih =>
    have text : (Json.object fields).compact.toList
        = '\x7b' :: ((compactMembers true fields).toList ++ ['\x7d']) := by
      simp [compact]
    rw [text]
    exact .object (membersText_compact ih true)

theorem writes_compact {room : Nat} {j : Json} (readable : Readable room j) :
    Writes j.compact j := by
  refine ⟨[], j.compact.toList, [], ?_, blank_nil, valueText_compact readable, blank_nil⟩
  rw [List.append_nil, List.nil_append]

/-! ## Whole texts -/

/-- A reader makes of any text of a value what it makes of the tokens of the value. -/
theorem wholeText_of_writes {α : Type} {reader : Reader α} {text : String} {j : Json}
    (writes : Writes text j) {result : Except Fault α}
    (reads : reader j.spelling = result.map (·, [])) : wholeText reader text = result := by
  obtain ⟨before, cs, after, split, blankBefore, value, blankAfter⟩ := writes
  have nothing : tokens [] = [] := by rw [tokens]
  have ended : tokens after = [] := by
    have alone := blankAfter.tokens_eq []
    rwa [List.append_nil, nothing] at alone
  have stops : Stops after := by
    have alone := blankAfter.stops stops_nil
    rwa [List.append_nil] at alone
  have spelled : Token.ofText text = j.spelling := by
    rw [Token.ofText, split, blankBefore.tokens_eq, value.tokens_eq stops, ended, List.append_nil]
  rw [wholeText, spelled, reads]
  cases result <;> rfl

theorem wholeText_compact {α : Type} {reader : Reader α} {room : Nat} {j : Json}
    (readable : Readable room j) {result : Except Fault α}
    (reads : reader j.spelling = result.map (·, [])) : wholeText reader j.compact = result :=
  wholeText_of_writes (writes_compact readable) reads

/-- Any text of a value that there is room for is read as the value. -/
theorem ofText_of_writes {text : String} {j : Json} (writes : Writes text j)
    (fits : Fits roomAtStart j) : ofText text = .ok j := by
  have alone := read_spelling fits []
  rw [List.append_nil] at alone
  exact wholeText_of_writes writes alone

end TemplateTrace.Json
