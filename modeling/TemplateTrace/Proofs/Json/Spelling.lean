import TemplateTrace.Json.Reader
import TemplateTrace.Proofs.Json.Numbers
set_option autoImplicit false

/-!
# Spellings

A value is written in tokens that follow from the value alone, its *spelling*, and a reader with
enough room takes exactly these tokens for the value (`read_spelling`).  What a text holds besides
them is the matter of the grammar of texts.

Two things can keep a written value from being read back, and `Readable` rules them out: a number
whose text gives another number, and more arrays and objects inside one another than a reader has
room for.  A spelling asks for the room only (`Fits`).
-/

namespace TemplateTrace.Json

open TemplateTrace.Decimal
open NumberText (Legible)

/-! ## Values that can be read back -/

/-- Values that are read back as they are written, with room for so many arrays and objects inside
one another. -/
inductive Readable : Nat → Json → Prop
  | null (room : Nat) : Readable room .null
  | bool (room : Nat) (b : Bool) : Readable room (.bool b)
  | number (room : Nat) {n : Number} (legible : Legible n) : Readable room (.number n)
  | string (room : Nat) (s : String) : Readable room (.string s)
  | array {room : Nat} {values : List Json} (items : ∀ j ∈ values, Readable room j) :
      Readable (room + 1) (.array values)
  | object {room : Nat} {fields : List (String × Json)}
      (members : ∀ m ∈ fields, Readable room m.2) : Readable (room + 1) (.object fields)

/-- Values that a reader has room for, which is for so many arrays and objects inside one
another. -/
inductive Fits : Nat → Json → Prop
  | null (room : Nat) : Fits room .null
  | bool (room : Nat) (b : Bool) : Fits room (.bool b)
  | number (room : Nat) (n : Number) : Fits room (.number n)
  | string (room : Nat) (s : String) : Fits room (.string s)
  | array {room : Nat} {values : List Json} (items : ∀ j ∈ values, Fits room j) :
      Fits (room + 1) (.array values)
  | object {room : Nat} {fields : List (String × Json)} (members : ∀ m ∈ fields, Fits room m.2) :
      Fits (room + 1) (.object fields)

theorem Readable.fits {room : Nat} {j : Json} (readable : Readable room j) : Fits room j := by
  induction readable with
  | null room => exact .null room
  | bool room b => exact .bool room b
  | number room => exact .number room _
  | string room s => exact .string room s
  | array _ ih => exact .array ih
  | object _ ih => exact .object ih

/-! ## Spellings -/

/-- A number or a string with nothing wrong in it. -/
def Lexeme.of {α : Type} (a : α) : Lexeme α := ⟨.ok a, .ok ()⟩

/-- What stands before an item or a member: a comma unless it is the first one. -/
def separator (first : Bool) : List Token :=
  if first then [] else [.comma]

mutual

/-- The tokens that a value is written as. -/
def spelling : Json → List Token
  | .null => [.null]
  | .bool b => [.bool b]
  | .number n => [.number (.of n)]
  | .string s => [.string (.of s)]
  | .array values => .opening .square :: (itemsSpelling true values ++ [.closing .square])
  | .object fields => .opening .curly :: (membersSpelling true fields ++ [.closing .curly])
termination_by structural j => j

/-- The tokens of the items of an array. -/
def itemsSpelling : Bool → List Json → List Token
  | _, [] => []
  | first, j :: rest => separator first ++ (j.spelling ++ itemsSpelling false rest)
termination_by structural _ values => values

/-- The tokens of the members of an object. -/
def membersSpelling : Bool → List (String × Json) → List Token
  | _, [] => []
  | first, m :: rest => separator first ++ (memberSpelling m ++ membersSpelling false rest)
termination_by structural _ fields => fields

/-- The tokens of a member. -/
def memberSpelling : String × Json → List Token
  | (name, j) => .string (.of name) :: .colon :: j.spelling
termination_by structural m => m

end

/-- A value starts with a token that closes nothing. -/
theorem exists_spelling (j : Json) : ∃ t ts, j.spelling = t :: ts ∧ ∀ b, t ≠ .closing b := by
  cases j <;> exact ⟨_, _, rfl, fun _ => by simp⟩

theorem length_le_itemsSpelling (values : List Json) (first : Bool) :
    values.length ≤ (itemsSpelling first values).length := by
  induction values generalizing first with
  | nil => exact Nat.zero_le _
  | cons j rest ih =>
    obtain ⟨t, ts, spelled, -⟩ := exists_spelling j
    have := ih false
    simp only [itemsSpelling, spelled, List.length_append, List.length_cons]
    omega

theorem length_le_membersSpelling (fields : List (String × Json)) (first : Bool) :
    fields.length ≤ (membersSpelling first fields).length := by
  induction fields generalizing first with
  | nil => exact Nat.zero_le _
  | cons m rest ih =>
    obtain ⟨name, j⟩ := m
    have := ih false
    simp only [membersSpelling, memberSpelling, List.length_append, List.length_cons]
    omega

/-! ## Reading a spelling -/

theorem nextItem_spelling (first : Bool) (j : Json) (ts : List Token) :
    nextItem first (separator first ++ (j.spelling ++ ts)) = .ok (some (j.spelling ++ ts)) := by
  cases j <;> cases first <;> rfl

theorem nextMember_spelling (first : Bool) (name : String) (ts : List Token) :
    nextMember first (separator first ++ .string (.of name) :: ts) = .ok (some (name, ts)) := by
  cases first <;> rfl

/-- Items that are read one by one are read as a list. -/
theorem items_spelling {item : Reader Json} {values : List Json}
    (each : ∀ j ∈ values, ∀ rest, item (j.spelling ++ rest) = .ok (j, rest)) {bound : Nat}
    (enough : values.length < bound) (first : Bool) (done : List Json) (rest : List Token) :
    items item bound first done (itemsSpelling first values ++ .closing .square :: rest)
      = .ok (done.reverse ++ values, rest) := by
  induction values generalizing bound first done with
  | nil =>
    obtain ⟨bound, rfl⟩ := Nat.exists_eq_succ_of_ne_zero (Nat.ne_of_gt enough)
    simp [itemsSpelling, items, nextItem, bind, Except.bind, pure, Except.pure]
  | cons j values ih =>
    obtain ⟨bound, rfl⟩ := Nat.exists_eq_succ_of_ne_zero (Nat.ne_of_gt (Nat.zero_lt_of_lt enough))
    have later := ih (fun j member => each j (List.mem_cons_of_mem _ member))
      (Nat.lt_of_succ_lt_succ enough) false (j :: done)
    simp only [itemsSpelling, List.append_assoc, items, nextItem_spelling, bind, Except.bind,
      each j List.mem_cons_self, later]
    simp

theorem allItems_spelling {item : Reader Json} {values : List Json}
    (each : ∀ j ∈ values, ∀ rest, item (j.spelling ++ rest) = .ok (j, rest)) (rest : List Token) :
    allItems item (itemsSpelling true values ++ .closing .square :: rest) = .ok (values, rest) := by
  have enough : values.length < (itemsSpelling true values ++ .closing .square :: rest).length := by
    have := length_le_itemsSpelling values true
    simp only [List.length_append, List.length_cons]
    omega
  exact items_spelling each enough true [] rest

/-- Members of which a reader takes one after the other into a state bring it to the state that
taking in their names and values does. -/
theorem members_spelling {σ : Type} {step : σ → String → Reader σ}
    {put : σ → String → Json → Except Fault σ} {fields : List (String × Json)}
    (each : ∀ m ∈ fields, ∀ state rest,
      step state m.1 (.colon :: (m.2.spelling ++ rest)) = (put state m.1 m.2).map (·, rest))
    {bound : Nat} (enough : fields.length < bound) (first : Bool) (state : σ) (rest : List Token) :
    members step bound first state (membersSpelling first fields ++ .closing .curly :: rest)
      = (fields.foldlM (fun state m => put state m.1 m.2) state).map (·, rest) := by
  induction fields generalizing bound first state with
  | nil =>
    obtain ⟨bound, rfl⟩ := Nat.exists_eq_succ_of_ne_zero (Nat.ne_of_gt enough)
    rfl
  | cons m fields ih =>
    obtain ⟨name, j⟩ := m
    obtain ⟨bound, rfl⟩ := Nat.exists_eq_succ_of_ne_zero (Nat.ne_of_gt (Nat.zero_lt_of_lt enough))
    have later := ih (fun j member => each j (List.mem_cons_of_mem _ member))
      (Nat.lt_of_succ_lt_succ enough) false
    simp only [membersSpelling, memberSpelling, List.append_assoc, List.cons_append, members,
      nextMember_spelling, bind, Except.bind, each (name, j) List.mem_cons_self, List.foldlM_cons]
    cases put state name j with
    | error fault => rfl
    | ok after => exact later after

theorem allMembers_spelling {σ : Type} {step : σ → String → Reader σ}
    {put : σ → String → Json → Except Fault σ} {fields : List (String × Json)}
    (each : ∀ m ∈ fields, ∀ state rest,
      step state m.1 (.colon :: (m.2.spelling ++ rest)) = (put state m.1 m.2).map (·, rest))
    (state : σ) (rest : List Token) :
    allMembers step state (membersSpelling true fields ++ .closing .curly :: rest)
      = (fields.foldlM (fun state m => put state m.1 m.2) state).map (·, rest) := by
  have enough :
      fields.length < (membersSpelling true fields ++ .closing .curly :: rest).length := by
    have := length_le_membersSpelling fields true
    simp only [List.length_append, List.length_cons]
    omega
  exact members_spelling each enough true state rest

/-- What is made of an object in a text once its members were taken in is what is made of its kept
members. -/
theorem closed_spelling {σ α : Type} {step : σ → String → Reader σ}
    {put : σ → String → Json → Except Fault σ} {fields : List (String × Json)}
    (each : ∀ m ∈ fields, ∀ state rest,
      step state m.1 (.colon :: (m.2.spelling ++ rest)) = (put state m.1 m.2).map (·, rest))
    (close : σ → Except Fault α) (state : σ) (rest : List Token) :
    (do
        let (met, ts) ← allMembers step state
          (membersSpelling true fields ++ .closing .curly :: rest)
        return (← close met, ts))
      = (fields.foldlM (fun state m => put state m.1 m.2) state >>= close).map (·, rest) := by
  rw [allMembers_spelling each]
  cases fields.foldlM (fun state m => put state m.1 m.2) state with
  | error fault => rfl
  | ok met =>
    simp only [Except.map, bind, Except.bind]
    cases close met <;> rfl

theorem foldlM_keep (fields done : List (String × Json)) :
    fields.foldlM (fun done m => (Except.ok ((m.1, m.2) :: done) : Except Fault _)) done
      = .ok (fields.reverse ++ done) := by
  induction fields generalizing done with
  | nil => rfl
  | cons m fields ih =>
    simp only [List.foldlM_cons, bind, Except.bind, ih]
    simp

/-- A reader with enough room takes the tokens of a value for the value, whatever stands behind
them. -/
theorem read_spelling {room : Nat} {j : Json} (fits : Fits room j) (rest : List Token) :
    read room (j.spelling ++ rest) = .ok (j, rest) := by
  induction fits generalizing rest with
  | null room => cases room <;> rfl
  | bool room b => cases room <;> rfl
  | number room n => cases room <;> rfl
  | string room s => cases room <;> rfl
  | @array room values _ ih =>
    simp only [spelling, List.cons_append, List.append_assoc, List.nil_append, read,
      allItems_spelling ih, bind, Except.bind, pure, Except.pure]
  | @object room fields _ ih =>
    have each : ∀ m ∈ fields, ∀ (done : List (String × Json)) (rest : List Token),
        keepMember (read room) done m.1 (.colon :: (m.2.spelling ++ rest))
          = (Except.ok ((m.1, m.2) :: done)).map (·, rest) := by
      intro m member done rest
      simp [keepMember, colon, ih m member, bind, Except.bind, pure, Except.pure, Except.map]
    have kept : allMembers (keepMember (read room)) []
        (membersSpelling true fields ++ .closing .curly :: rest) = .ok (fields.reverse, rest) := by
      rw [@allMembers_spelling _ _ (fun done name j => .ok ((name, j) :: done)) _ each,
        foldlM_keep, List.append_nil]
      rfl
    simp only [spelling, List.cons_append, List.append_assoc, List.nil_append, read, kept, bind,
      Except.bind, pure, Except.pure, List.reverse_reverse]

/-! ## Whole texts -/

theorem wholeText_eq_ok_iff {α : Type} {reader : Reader α} {text : String} {a : α} :
    wholeText reader text = .ok a ↔ reader (Token.ofText text) = .ok (a, []) := by
  unfold wholeText
  cases reader (Token.ofText text) with
  | error fault => simp [bind, Except.bind]
  | ok result =>
    obtain ⟨b, rest⟩ := result
    cases rest <;> simp [bind, Except.bind, pure, Except.pure, throw, throwThe, MonadExceptOf.throw]

end TemplateTrace.Json
