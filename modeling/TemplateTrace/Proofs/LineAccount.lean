import Mathlib.Data.List.Forall2
import TemplateTrace.Proofs.Text.Lines
import TemplateTrace.Trace
set_option autoImplicit false

/-!
# The account of the lines of a trace

What a trace gives is accounted for line by line (`Trace.items_account`): the lines that are no text
and those that say something give an item each, in order, and errors name the line they are of.  So
a trace that goes on after a line end gives what it gave before and then what the rest gives, but
for the numbers of lines.

The lines of a byte string are what its line feeds divide it into (`Text.FallsInto`), which is said
without going through the bytes one by one.
-/

namespace TemplateTrace

namespace Text

/-! ## Lines -/

/-- A line without the carriage return at its end, if there is one. -/
def withoutReturn (line : List UInt8) : List UInt8 :=
  if line.getLast? = some carriageReturn then line.dropLast else line

/-- Whether a byte string falls into some lines: each line ends in a line feed, with or without a
carriage return before that, but for the last one, which is then not empty. -/
inductive FallsInto : List UInt8 → List (List UInt8) → Prop
  | none : FallsInto [] []
  | last {line : List UInt8} (some : line ≠ []) (oneLine : lineFeed ∉ line) : FallsInto line [line]
  | line {line rest : List UInt8} {lines : List (List UInt8)} (oneLine : lineFeed ∉ line)
      (more : FallsInto rest lines) :
      FallsInto (line ++ lineFeed :: rest) (withoutReturn line :: lines)

theorem closeLine_reverse (line : List UInt8) : closeLine line.reverse = withoutReturn line := by
  rcases List.eq_nil_or_concat line with rfl | ⟨before, b, rfl⟩
  · rfl
  · by_cases ret : b = carriageReturn <;> simp [closeLine, withoutReturn, ret]

theorem physicalLines_append_lineFeed {line : List UInt8} (oneLine : lineFeed ∉ line)
    (rest : List UInt8) :
    physicalLines (line ++ lineFeed :: rest) = withoutReturn line :: physicalLines rest := by
  rw [physicalLines, physicalLinesFrom_append_lineFeed oneLine, List.append_nil,
    closeLine_reverse]

theorem physicalLines_of_not_mem {line : List UInt8} (some : line ≠ [])
    (oneLine : lineFeed ∉ line) : physicalLines line = [line] := by
  rw [physicalLines, physicalLinesFrom_of_not_mem oneLine, List.append_nil, List.reverse_reverse,
    if_neg (by simpa using some)]

theorem FallsInto.physicalLines_eq {bytes : List UInt8} {lines : List (List UInt8)}
    (falls : FallsInto bytes lines) : physicalLines bytes = lines := by
  induction falls with
  | none => rfl
  | last some oneLine => exact physicalLines_of_not_mem some oneLine
  | line oneLine _ ih => rw [physicalLines_append_lineFeed oneLine, ih]

theorem fallsInto_physicalLines (bytes : List UInt8) : FallsInto bytes (physicalLines bytes) := by
  induction size : bytes.length using Nat.strong_induction_on generalizing bytes with
  | _ n ih =>
    by_cases feed : lineFeed ∈ bytes
    · obtain ⟨line, rest, rfl, oneLine⟩ := List.eq_append_cons_of_mem feed
      rw [physicalLines_append_lineFeed oneLine]
      refine .line oneLine (ih rest.length ?_ rest rfl)
      rw [← size, List.length_append, List.length_cons]
      omega
    · cases bytes with
      | nil => exact .none
      | cons b rest =>
        rw [physicalLines_of_not_mem (List.cons_ne_nil b rest) feed]
        exact .last (List.cons_ne_nil b rest) feed

/-- A byte string falls into its lines and into no others. -/
theorem fallsInto_iff {bytes : List UInt8} {lines : List (List UInt8)} :
    FallsInto bytes lines ↔ lines = physicalLines bytes := by
  constructor
  · intro falls
    exact falls.physicalLines_eq.symm
  · rintro rfl
    exact fallsInto_physicalLines bytes

end Text

/-- The fault of a line that has so many more lines before it. -/
def TraceFault.later (count : Nat) : TraceFault → TraceFault
  | .unopened path source => .unopened path source
  | .unreadable line source => .unreadable (line + count) source
  | .malformed line source => .malformed (line + count) source

namespace Trace

/-! ## Single lines -/

/-- Whether a line counts: it is no text, or what is left of its text when it is trimmed is not
empty and does not start with `#`. -/
def Counts (line : List UInt8) : Prop :=
  (∀ s, Text.bytes s ≠ line)
    ∨ ∃ s, Text.bytes s = line ∧ Text.trim s ≠ "" ∧ (Text.trim s).toList.head? ≠ some '#'

/-- What a line of some number gives if it counts. -/
inductive Gives (number : Nat) (line : List UInt8) : TraceItem → Prop
  | unreadable (noText : ∀ s, Text.bytes s ≠ line) :
      Gives number line (.error (.unreadable number .notUtf8))
  | malformed {s : String} {fault : Json.Fault} (text : Text.bytes s = line)
      (refused : Event.codec.decode (Text.trim s) = .error fault) :
      Gives number line (.error (.malformed number fault))
  | event {s : String} {event : Event} (text : Text.bytes s = line)
      (decoded : Event.codec.decode (Text.trim s) = .ok event) :
      Gives number line (.ok event)

theorem isSilent_eq_false_iff (text : String) :
    isSilent text = false ↔ text ≠ "" ∧ text.toList.head? ≠ some '#' := by
  rw [isSilent, ne_eq, ← String.toList_eq_nil_iff]
  cases text.toList <;> simp

/-- A line that does not count gives nothing, and one that counts gives what it is to give. -/
theorem item?_cases (number : Nat) (line : List UInt8) :
    (¬ Counts line ∧ item? number line = none)
      ∨ Counts line ∧ ∃ item, item? number line = some item ∧ Gives number line item := by
  cases read : Text.lineText? line with
  | none =>
    have noText := Text.lineText?_eq_none_iff.1 read
    refine .inr ⟨.inl noText, _, ?_, .unreadable noText⟩
    rw [item?, read]
  | some s =>
    have text := Text.lineText?_eq_some_iff.1 read
    cases silent : isSilent (Text.trim s) with
    | true =>
      refine .inl ⟨?_, by simp [item?, read, silent]⟩
      rintro (noText | ⟨other, same, heard⟩)
      · exact noText s text
      · obtain rfl := Text.bytes_injective (same.trans text.symm)
        rw [(isSilent_eq_false_iff _).2 heard] at silent
        cases silent
    | false =>
      refine .inr ⟨.inr ⟨s, text, (isSilent_eq_false_iff _).1 silent⟩, ?_⟩
      cases decoded : Event.codec.decode (Text.trim s) with
      | error fault =>
        exact ⟨_, by simp [item?, read, silent, decoded, Except.mapError], .malformed text decoded⟩
      | ok event =>
        exact ⟨_, by simp [item?, read, silent, decoded, Except.mapError], .event text decoded⟩

/-! ## All lines -/

/-- Whether some items account for some lines, the first of which has some number: there are places,
one after the other, at which the lines count, and no others, and the items are what the lines at
these places give. -/
def Accounts (number : Nat) (lines : List (List UInt8)) (items : List TraceItem) : Prop :=
  ∃ places : List Nat, places.Pairwise (· < ·)
    ∧ (∀ place, place ∈ places ↔ ∃ line, lines[place]? = some line ∧ Counts line)
    ∧ List.Forall₂ (fun place item => ∃ line, lines[place]? = some line
        ∧ Gives (number + place) line item) places items

variable {number : Nat} {line : List UInt8} {rest : List (List UInt8)} {listed : List TraceItem}
  {item : TraceItem}

/-- The places of an account lie one further back when there is a line before the others. -/
theorem Accounts.exists_shifted (accounts : Accounts (number + 1) rest listed)
    (line : List UInt8) :
    ∃ places : List Nat, places.Pairwise (· < ·)
      ∧ (∀ place, place ∈ places ↔ ∃ before, before + 1 = place
          ∧ ∃ line, rest[before]? = some line ∧ Counts line)
      ∧ List.Forall₂ (fun place item => ∃ other, (line :: rest)[place]? = some other
          ∧ Gives (number + place) other item) places listed := by
  obtain ⟨places, sorted, members, gives⟩ := accounts
  refine ⟨places.map (· + 1), ?_, fun place => ?_, ?_⟩
  · rw [List.pairwise_map]
    exact sorted.imp Nat.succ_lt_succ
  · simp only [List.mem_map, members, and_comm]
  · rw [List.forall₂_map_left_iff]
    refine gives.imp fun place item given => ?_
    obtain ⟨other, found, gives⟩ := given
    rw [Nat.add_right_comm] at gives
    exact ⟨other, found, gives⟩

theorem Accounts.passes (accounts : Accounts (number + 1) rest listed) (silent : ¬ Counts line) :
    Accounts number (line :: rest) listed := by
  obtain ⟨places, sorted, members, gives⟩ := accounts.exists_shifted line
  refine ⟨places, sorted, fun place => (members place).trans ?_, gives⟩
  cases place with
  | zero => simp [silent]
  | succ place => simp

theorem Accounts.adds (accounts : Accounts (number + 1) rest listed) (counts : Counts line)
    (given : Gives number line item) : Accounts number (line :: rest) (item :: listed) := by
  obtain ⟨places, sorted, members, gives⟩ := accounts.exists_shifted line
  refine ⟨0 :: places, List.pairwise_cons.2 ⟨fun place later => ?_, sorted⟩, fun place => ?_,
    .cons ⟨line, rfl, given⟩ gives⟩
  · obtain ⟨before, rfl, -⟩ := (members place).1 later
    exact Nat.succ_pos before
  · rw [List.mem_cons, members]
    cases place with
    | zero => simp [counts]
    | succ place => simp

theorem accounts_itemsFrom (number : Nat) (lines : List (List UInt8)) :
    Accounts number lines (itemsFrom number lines) := by
  induction lines generalizing number with
  | nil => exact ⟨[], .nil, by simp, .nil⟩
  | cons line rest ih =>
    rcases item?_cases number line with ⟨silent, none⟩ | ⟨counts, item, some, gives⟩
    · rw [itemsFrom, none]
      exact (ih (number + 1)).passes silent
    · rw [itemsFrom, some]
      exact (ih (number + 1)).adds counts gives

/-! ## Traces one after the other -/

/-- What a line gives depends on its number in the fault alone. -/
theorem item?_add (number count : Nat) (line : List UInt8) :
    item? (number + count) line = (item? number line).map (Except.mapError (·.later count)) := by
  cases read : Text.lineText? line with
  | none => simp [item?, read, Except.mapError, TraceFault.later]
  | some s =>
    cases silent : isSilent (Text.trim s) with
    | true => simp [item?, read, silent]
    | false =>
      cases decoded : Event.codec.decode (Text.trim s) <;>
        simp [item?, read, silent, decoded, Except.mapError, TraceFault.later]

theorem itemsFrom_add (number count : Nat) (lines : List (List UInt8)) :
    itemsFrom (number + count) lines
      = (itemsFrom number lines).map (Except.mapError (·.later count)) := by
  induction lines generalizing number with
  | nil => rfl
  | cons line rest ih =>
    rw [itemsFrom, itemsFrom, item?_add, Nat.add_right_comm, ih]
    cases item? number line <;> rfl

/-- The lines of a byte string are what its line feeds divide it into, and what it gives accounts
for them.  Of two byte strings, the first of which ends in a line feed, the one after the other give
what the first gives and then what the second gives, with as many lines more before it. -/
theorem items_account :
    (∀ bytes lines, Text.FallsInto bytes lines ↔ lines = Text.physicalLines bytes)
      ∧ (∀ bytes, Accounts 1 (Text.physicalLines bytes) (items bytes))
      ∧ ∀ a b, a.getLast? = some Text.lineFeed →
        items (a ++ b)
          = items a ++ (items b).map (Except.mapError (·.later (Text.physicalLines a).length)) := by
  refine ⟨fun bytes lines => Text.fallsInto_iff, fun bytes => accounts_itemsFrom 1 _, ?_⟩
  intro a b ends
  obtain ⟨before, rfl⟩ := List.getLast?_eq_some_iff.1 ends
  rw [items_append, itemsFrom_add]
  rfl

/-- A remark with a carriage return and a line that is not UTF-8, and then a blank line and the
beginning of an event: the second part alone has its fault on line two. -/
theorem items_account_unreadable :
    [35, 13, 10, 255, 10].getLast? = some Text.lineFeed
      ∧ items [32, 10, 123] = [.error (.malformed 2 (.malformed .endInObject))]
      ∧ items ([35, 13, 10, 255, 10] ++ [32, 10, 123])
        = [.error (.unreadable 2 .notUtf8), .error (.malformed 4 (.malformed .endInObject))] := by
  have first : items [35, 13, 10, 255, 10] = [.error (.unreadable 2 .notUtf8)] := by
    decide +kernel
  have second : items [32, 10, 123] = [.error (.malformed 2 (.malformed .endInObject))] := by
    decide +kernel
  refine ⟨rfl, second, ?_⟩
  rw [items_account.2.2 [35, 13, 10, 255, 10] [32, 10, 123] rfl, first, second]
  rfl

end Trace

end TemplateTrace
