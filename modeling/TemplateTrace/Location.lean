import TemplateTrace.Codec.Record
set_option autoImplicit false

/-!
# Source locations

A place in a source file.  The location with an empty name and both numbers zero stands for a place
that is not known.  Locations are ordered by name, then row, then column.
-/

namespace TemplateTrace

/-- A place in a source file. -/
structure Location where
  name : String
  row : UInt32
  column : UInt32
  deriving DecidableEq, Repr, Inhabited

namespace Location

/-- The place that is not known. -/
def unknown : Location := ⟨"", 0, 0⟩

/-- Whether a place is not known. -/
def isUnknown (l : Location) : Bool :=
  l.name.isEmpty && l.row == 0 && l.column == 0

theorem isUnknown_iff (l : Location) : l.isUnknown = true ↔ l = unknown := by
  cases l
  simp [isUnknown, unknown, and_assoc]

/-- The text of a place. -/
def text (l : Location) : String :=
  s!"{l.name}:{l.row}:{l.column}"

/-! ## Order -/

/-- Name, then row, then column. -/
def compare : Location → Location → Ordering :=
  compareLex (compareOn Location.name) (compareLex (compareOn Location.row)
    (compareOn Location.column))

instance : Ord Location := ⟨compare⟩

instance : Std.TransOrd Location :=
  inferInstanceAs (Std.TransCmp (compareLex (compareOn Location.name)
    (compareLex (compareOn Location.row) (compareOn Location.column))))

instance : Std.LawfulEqOrd Location where
  eq_of_compare {a b} h := by
    have all : (compareOn Location.name a b).then
        ((compareOn Location.row a b).then (compareOn Location.column a b)) = .eq := h
    rw [Ordering.then_eq_eq, Ordering.then_eq_eq] at all
    obtain ⟨name, row, column⟩ := all
    have name := Std.LawfulEqOrd.eq_of_compare (α := String) name
    have row := Std.LawfulEqOrd.eq_of_compare (α := UInt32) row
    have column := Std.LawfulEqOrd.eq_of_compare (α := UInt32) column
    cases a
    cases b
    simp_all

/-! ## JSON -/

/-- The record of a location. -/
def record : Record Location where
  title := "struct FileLocation"
  fields := .cons (.required "name" .string)
    (.cons (.required "row" .uint32) (.cons (.required "column" .uint32) .nil))
  build := fun (name, row, column, _) => ⟨name, row, column⟩
  split := fun l => (l.name, l.row, l.column, ())

/-- The codec of locations. -/
def codec : Codec Location := record.codec

/-- A field that holds the unknown location when it is left out. -/
def field (name : String) : Field Location :=
  .withDefault name codec unknown

end Location

end TemplateTrace
