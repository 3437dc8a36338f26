import TemplateTrace.Proofs.Json.Grammar
set_option autoImplicit false

/-!
# Characters of written values

The compact text of a value has no control characters, whatever its strings hold, since they are
escaped there (`compact_printable`).  So no line ends within it.
-/

namespace TemplateTrace.Json

open NumberText (render isFloatChar isFloatChar_of_isDigit isDigit_of_mem_toDigits
  looksFloat_float?)

/-- Whether a character is no ASCII control character. -/
def isPrintable (c : Char) : Bool :=
  0x20 ≤ c.toNat

/-- A text without ASCII control characters. -/
def Printable (s : String) : Prop :=
  ∀ c ∈ s.toList, isPrintable c = true

theorem printable_of_all {s : String} (all : s.toList.all isPrintable = true) : Printable s :=
  List.all_eq_true.1 all

theorem Printable.append {s t : String} (left : Printable s) (right : Printable t) :
    Printable (s ++ t) := by
  unfold Printable
  rw [String.toList_append]
  exact List.forall_mem_append.2 ⟨left, right⟩

/-! ## Numbers -/

theorem isPrintable_of_isFloatChar {c : Char} (float : isFloatChar c = true) :
    isPrintable c = true := by
  simp only [isFloatChar, Char.isDigit, Bool.or_eq_true, Bool.and_eq_true, decide_eq_true_eq,
    beq_iff_eq] at float
  rcases float with (((⟨low, -⟩ | rfl) | rfl) | rfl) | rfl
  · exact decide_eq_true (Nat.le_trans (by decide) (UInt32.le_iff_toNat_le.1 low))
  all_goals decide

theorem repr_printable (n : Nat) : Printable n.repr := by
  intro c member
  rw [Nat.toList_repr] at member
  exact isPrintable_of_isFloatChar (isFloatChar_of_isDigit (isDigit_of_mem_toDigits member))

theorem render_printable (n : Decimal.Number) : Printable (render n) := by
  cases n with
  | integer n =>
    cases n with
    | ofNat n => exact repr_printable n
    | negSucc n =>
      have minus : Printable "-" := printable_of_all (by decide)
      exact minus.append (repr_printable (n + 1))
  | float x =>
    simp only [render]
    cases written : Layout.trace.float? x with
    | none => exact printable_of_all (by decide)
    | some text =>
      exact fun c member => isPrintable_of_isFloatChar ((looksFloat_float? written).1 c member)

/-! ## Strings -/

theorem hexDigit_printable (n : Nat) : isPrintable (Text.Hex.digit n) = true := by
  have each : ∀ d : Fin 16, isPrintable (Text.Hex.digit d.val) = true := by decide
  have wrap : Text.Hex.digit n = Text.Hex.digit (n % 16) := by simp [Text.Hex.digit]
  rw [wrap]
  exact each ⟨n % 16, Nat.mod_lt n (by decide)⟩

theorem escapeChar_printable (c : Char) : (StringText.escapeChar c).all isPrintable = true := by
  unfold StringText.escapeChar
  -- seven characters have a letter of their own
  iterate 7
    split
    · decide
  split
  · have front : ['\\', 'u', '0', '0'].all isPrintable = true := by decide
    simpa [hexDigit_printable] using front
  · next plain => simpa [isPrintable] using plain

theorem quoted_printable (s : String) : Printable (quoted s) := by
  have mark : isPrintable '"' = true := by decide
  refine printable_of_all ?_
  simp only [quoted, StringText.escape, String.toList_ofList, List.cons_append, List.all_cons,
    List.all_append, List.all_flatMap, List.all_nil, mark, Bool.true_and, Bool.and_true]
  exact List.all_eq_true.2 fun c _ => escapeChar_printable c

/-! ## Values -/

theorem separator_printable (first : Bool) : Printable (if first then "" else ",") := by
  cases first <;> exact printable_of_all (by decide)

theorem compactItems_printable {values : List Json} (each : ∀ j ∈ values, Printable j.compact)
    (first : Bool) : Printable (compactItems first values) := by
  induction values generalizing first with
  | nil => exact printable_of_all rfl
  | cons j values ih =>
    obtain ⟨item, later⟩ := List.forall_mem_cons.1 each
    exact ((separator_printable first).append item).append (ih later false)

theorem compactMembers_printable {fields : List (String × Json)}
    (each : ∀ m ∈ fields, Printable m.2.compact) (first : Bool) :
    Printable (compactMembers first fields) := by
  induction fields generalizing first with
  | nil => exact printable_of_all rfl
  | cons m fields ih =>
    obtain ⟨name, j⟩ := m
    obtain ⟨value, later⟩ := List.forall_mem_cons.1 each
    have colon : Printable ":" := printable_of_all (by decide)
    have member : Printable (compactMember (name, j)) :=
      ((quoted_printable name).append colon).append value
    exact ((separator_printable first).append member).append (ih later false)

/-- The compact text of a value has no control characters. -/
theorem compact_printable {room : Nat} {j : Json} (readable : Readable room j) :
    Printable j.compact := by
  have bracket {opening closing : String} {s : String}
      (marks : (opening ++ closing).toList.all isPrintable = true) (inner : Printable s) :
      Printable (opening ++ s ++ closing) := by
    rw [String.toList_append, List.all_append, Bool.and_eq_true] at marks
    exact ((printable_of_all marks.1).append inner).append (printable_of_all marks.2)
  induction readable with
  | null => exact printable_of_all (by decide)
  | bool room b => cases b <;> exact printable_of_all (by decide)
  | @number room n _ => exact render_printable n
  | string room s => exact quoted_printable s
  | array _ ih => exact bracket (by decide) (compactItems_printable ih true)
  | object _ ih => exact bracket (by decide) (compactMembers_printable ih true)

end TemplateTrace.Json
