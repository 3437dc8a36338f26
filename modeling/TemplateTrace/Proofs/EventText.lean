import TemplateTrace.Event.Codec
import TemplateTrace.Proofs.Calls
import TemplateTrace.Proofs.Codec.Lawful
set_option autoImplicit false

/-!
# The text of events

An event decodes from its compact text (`Event.decode_render`), whatever texts are in it, if its
time has a decimal text that is read as the same float.  Of all that an event holds only the time
needs this: everything else is written so that it reads back.
-/

namespace TemplateTrace

open Decimal (Number)
open Json (Readable Token)
open Json.NumberText (Legible LooksFloat isFloatChar)

/-! ## Floats whose text is read as the same float -/

/-- A float whose text is read as the same float. -/
def PrintsBack (x : Float) : Prop :=
  Codec.float.decode (Codec.float.render x) = .ok x

namespace Json.Token

/-- The characters of a float that can only go on with one start no token. -/
theorem tokens_stray {c : Char} (float : isFloatChar c = true)
    (inner : ¬ (c = '-' ∨ c.isDigit = true)) (cs : List Char) : tokens (c :: cs) = [.stray] := by
  obtain ⟨notMinus, notDigit⟩ := not_or.1 inner
  have mark : c = '+' ∨ c = '.' ∨ c = 'e' := by
    simpa [isFloatChar, notMinus, notDigit, or_assoc] using float
  rcases mark with rfl | rfl | rfl <;> (rw [tokens]; rfl)

/-- No character of a float is passed over. -/
theorem tokens_ne_nil {c : Char} (float : isFloatChar c = true) (cs : List Char) :
    tokens (c :: cs) ≠ [] := by
  by_cases start : c = '-' ∨ c.isDigit = true
  · rw [tokens_of_start start]
    split <;> simp
  · rw [tokens_stray float start]
    simp

/-- A text with the characters of a float that is a single number is one from end to end: it has no
blanks, so that no character is left where no token is. -/
theorem exists_numeral_of_tokens {cs : List Char} (float : ∀ c ∈ cs, isFloatChar c = true)
    {l : Json.Lexeme Number} (single : tokens cs = [.number l]) {n : Number}
    (kept : l.kept = .ok n) :
    ∃ t, Json.NumberText.numeral cs = .ok (t, []) ∧ t.value? = some n := by
  cases cs with
  | nil =>
    rw [tokens] at single
    cases single
  | cons c cs =>
    have start : c = '-' ∨ c.isDigit = true := by
      by_contra inner
      rw [tokens_stray (float c List.mem_cons_self) inner] at single
      cases single
    rw [tokens_of_start start] at single
    cases read : Json.NumberText.numeral (c :: cs) with
    | error rest =>
      rw [read] at single
      obtain rfl := Token.number.inj (List.cons.inj single).1
      cases kept
    | ok result =>
      obtain ⟨t, rest⟩ := result
      rw [read] at single
      obtain ⟨lexeme, nothing⟩ := List.cons.inj single
      obtain rfl := Token.number.inj lexeme
      have ended : rest = [] := by
        cases rest with
        | nil => rfl
        | cons d more =>
          have member : d ∈ c :: cs :=
            (Json.NumberText.numeral_suffix read).subset List.mem_cons_self
          exact absurd nothing (tokens_ne_nil (float d member) more)
      subst ended
      refine ⟨t, rfl, ?_⟩
      cases found : t.value? with
      | none => simp [numberLexeme, found] at kept
      | some m => simpa [numberLexeme, found] using kept

end Json.Token

theorem Codec.refuse_ne_ok {β : Type} (wanted : String) (ts : List Token) (b : β) :
    Codec.refuse wanted ts ≠ .ok b := by
  unfold Codec.refuse
  cases Codec.foundIn ts <;> exact fun same => nomatch same

/-- A float is read off a number, which is the float itself or an integer near it. -/
theorem Codec.float_read_eq_ok {room : Nat} {ts rest : List Token} {x : Float}
    (h : Codec.float.read room ts = .ok (x, rest)) :
    ∃ l n, ts = .number l :: rest ∧ l.kept = .ok n ∧ ∀ y, n = .float y → y = x := by
  unfold Codec.float Codec.numeric at h
  simp only at h
  split at h
  · next l ts =>
    cases kept : l.kept with
    | error fault => simp [Json.Lexeme.content, kept, Except.mapError, bind, Except.bind] at h
    | ok n =>
      simp only [Json.Lexeme.content, kept, Except.mapError, bind, Except.bind] at h
      refine ⟨l, n, ?_, kept, ?_⟩
      · cases n <;> (cases h; rfl)
      · rintro y rfl
        cases h
        rfl
  · exact absurd h (Codec.refuse_ne_ok _ _ _)

/-- A float that prints back is legible, within any text. -/
theorem PrintsBack.legible {x : Float} (back : PrintsBack x) : Legible (.float x) := by
  have decoded : Json.wholeText (Codec.float.read Json.roomAtStart)
      (Json.NumberText.render (.float x)) = .ok x := back
  obtain ⟨l, n, single, kept, same⟩ := Codec.float_read_eq_ok (Json.wholeText_eq_ok_iff.1 decoded)
  unfold Legible
  cases written : Layout.trace.float? x with
  | none =>
    -- a float that is not finite is written as the word for nothing
    have word : Token.ofText (Json.NumberText.render (.float x)) = [.null] := by
      rw [Json.NumberText.render, written, Token.ofText]
      exact (Token.tokens_null []).trans (by rw [Token.tokens])
    rw [word] at single
    cases single
  | some text =>
    have looks := Json.NumberText.looksFloat_float? written
    have rendered : Json.NumberText.render (.float x) = text := by
      rw [Json.NumberText.render, written]
      rfl
    rw [rendered, Token.ofText] at single
    rw [rendered]
    obtain ⟨t, read, value⟩ := Token.exists_numeral_of_tokens looks.1 single kept
    obtain ⟨y, rfl⟩ := Json.NumberText.exists_float_of_looksFloat looks read value
    exact ⟨t, read, same y rfl ▸ value⟩

/-- A float prints back exactly if its text gives it back within any text. -/
theorem printsBack_iff_legible (x : Float) : PrintsBack x ↔ Legible (.float x) := by
  refine ⟨PrintsBack.legible, fun legible => ?_⟩
  have alone : Token.ofText (Json.NumberText.render (.float x)) = [.number (.of (.float x))] := by
    have tokens := Token.tokens_render legible Json.NumberText.stops_nil
    rwa [List.append_nil, show Token.tokens [] = [] by rw [Token.tokens]] at tokens
  have read : Json.wholeText (Codec.float.read Json.roomAtStart)
      (Json.NumberText.render (.float x)) = .ok x := by
    rw [Json.wholeText_eq_ok_iff, alone]
    rfl
  exact read

/-- A half is written `0.5`. -/
theorem printsBack_half : PrintsBack 0.5 := by
  refine (printsBack_iff_legible 0.5).2 ⟨⟨false, [0], some [5], none⟩, ?_, ?_⟩
  · have text : (Json.NumberText.render (.float 0.5)).toList = ['0', '.', '5'] := by
      decide +kernel
    rw [text]
    decide
  · have scaled : Decimal.scaleDown (UInt64.ofNat 5).toFloat 1 = 0.5 := by
      rw [Decimal.scaleDown]
      decide +kernel
    simpa [Decimal.Numeral.value?, Decimal.gather, Decimal.scale, UInt64.size] using scaled

/-! ## The codec of events -/

theorem Location.codec_lawful : Location.codec.Lawful :=
  Record.codec_lawful
    { fields := ⟨Codec.string_lawful, Codec.uint32_lawful, Codec.uint32_lawful, trivial⟩
      distinct := by decide
      rebuilds := fun _ => rfl }

theorem Outcome.codec_lawful : Outcome.codec.Lawful :=
  TaggedPair.codec_lawful (by decide) OutcomeKind.named_name Codec.string_lawful fun _ => rfl

theorem Kind.codec_lawful : Kind.codec.Lawful :=
  Choice.codec_lawful Kind.named_name

namespace Event

theorem textField_lawful (name : String) : (textField name).Lawful :=
  Field.required_lawful name Codec.string_lawful

theorem placeField_lawful (name : String) : (Location.field name).Lawful :=
  Field.withDefault_lawful name Location.codec_lawful .unknown

theorem argumentField_lawful : argumentField.Lawful := by
  refine Field.withDefault_lawful "args" (Codec.string_lawful.list.option fun names => ?_) none
  simp [Codec.list]

theorem timestampField_lawful : timestampField.Lawful :=
  Field.withDefault_lawful "timestamp" Codec.float_lawful 0.0

theorem timedVariant_lawful {tag title : String} {build : Float → Event}
    {split : Event → Option Float} (rebuilds : ∀ e x, split e = some x → build x = e) :
    (timedVariant tag title build split).Lawful "event" where
  fields := ⟨timestampField_lawful, trivial⟩
  distinct := (by decide : ["event", "timestamp"].Nodup)
  rebuilds := by
    intro e values found
    obtain ⟨x, given, rfl⟩ := Option.map_eq_some_iff.1 found
    exact rebuilds e x given

theorem placedVariant_lawful {tag title : String} {build : Location → Float → Event}
    {split : Event → Option (Location × Float)}
    (rebuilds : ∀ e point x, split e = some (point, x) → build point x = e) :
    (placedVariant tag title build split).Lawful "event" where
  fields := ⟨placeField_lawful _, timestampField_lawful, trivial⟩
  distinct := (by decide : ["event", "point_of_event", "timestamp"].Nodup)
  rebuilds := by
    intro e values found
    obtain ⟨⟨point, x⟩, given, rfl⟩ := Option.map_eq_some_iff.1 found
    exact rebuilds e point x given

theorem textVariant_lawful {tag title field : String} {build : String → Location → Float → Event}
    {split : Event → Option (String × Location × Float)}
    (names : ["event", field, "point_of_event", "timestamp"].Nodup)
    (rebuilds : ∀ e text point x, split e = some (text, point, x) → build text point x = e) :
    (textVariant tag title field build split).Lawful "event" where
  fields := ⟨textField_lawful _, placeField_lawful _, timestampField_lawful, trivial⟩
  distinct := names
  rebuilds := by
    intro e values found
    obtain ⟨⟨text, point, x⟩, given, rfl⟩ := Option.map_eq_some_iff.1 found
    exact rebuilds e text point x given

/-- Every kind of event can be built again from what is written beside its name. -/
theorem variants_lawful : ∀ v ∈ variants, v.Lawful "event" := by
  have text := textField_lawful
  have place := placeField_lawful
  have time := timestampField_lawful
  unfold variants
  simp only [List.forall_mem_cons, List.not_mem_nil, false_implies, implies_true, and_true]
  refine ⟨⟨⟨Kind.codec_lawful, text _, place _, place _, time, trivial⟩, by decide, ?_⟩,
    timedVariant_lawful ?_,
    ⟨⟨text _, argumentField_lawful, place _, place _, time, trivial⟩, by decide, ?_⟩,
    ⟨⟨text _, time, trivial⟩, by decide, ?_⟩,
    textVariant_lawful (by decide) ?_,
    timedVariant_lawful ?_,
    ⟨⟨text _, text _, place _, place _, time, trivial⟩, by decide, ?_⟩,
    ⟨⟨text _, text _, place _, time, trivial⟩, by decide, ?_⟩,
    ⟨⟨text _, Codec.bool_lawful, place _, time, trivial⟩, by decide, ?_⟩,
    timedVariant_lawful ?_,
    ⟨⟨text _, argumentField_lawful, Codec.string_lawful, place _, time, trivial⟩, by decide, ?_⟩,
    textVariant_lawful (by decide) ?_,
    textVariant_lawful (by decide) ?_,
    ⟨⟨Codec.bool_lawful, time, trivial⟩, by decide, ?_⟩,
    placedVariant_lawful ?_,
    placedVariant_lawful ?_,
    textVariant_lawful (by decide) ?_,
    ⟨⟨text _, place _, place _, time, trivial⟩, by decide, ?_⟩,
    ⟨⟨Outcome.codec_lawful, trivial⟩, by decide, ?_⟩⟩
  -- each kind takes apart its own events only
  all_goals
    intro e
    cases e <;> (intros; rename_i found; cases found <;> rfl)

theorem union_lawful : union.Lawful where
  variants := variants_lawful
  distinct := by decide
  complete := by
    intro e
    by_contra unwritten
    have nothing : union.members e = [] := by
      rw [Union.members, List.findSome?_eq_none_iff.2]
      · rfl
      · intro v member
        rw [Option.map_eq_none_iff, ← Option.not_isSome_iff_eq_none]
        exact fun splits => unwritten ⟨v, member, splits⟩
    have head := members_head e
    rw [nothing] at head
    cases head

/-- An event decodes from the object that it is encoded as. -/
theorem codec_lawful : codec.Lawful :=
  Union.codec_lawful union_lawful

/-! ## Events in a text -/

/-- The time that is written of an event; the end of the evaluation has none. -/
def timestamp? (e : Event) : Option Float :=
  match e with
  | .evaluationEnd _ => none
  | _ => some e.timestamp

theorem location_readable (room : Nat) (l : Location) :
    Readable (room + 1) (Location.codec.encode l) := by
  have number (n : UInt32) : Readable room (.nat n.toNat) := by
    refine .number room (Json.NumberText.legible_nat ?_)
    exact Nat.lt_trans n.toNat_lt_size (by decide)
  exact .object (Fields.readable_of_mem_members ⟨.string _ _, number _, number _, trivial⟩)

theorem arguments_readable (room : Nat) (args : Option (List String)) :
    Readable (room + 1) (argumentField.codec.encode args) := by
  cases args with
  | none => exact .null _
  | some names =>
    refine .array fun j member => ?_
    obtain ⟨name, -, rfl⟩ := List.mem_map.1 member
    exact .string _ _

theorem outcome_readable (room : Nat) (o : Outcome) :
    Readable (room + 1) (Outcome.codec.encode o) :=
  .object (List.forall_mem_cons.2 ⟨.string _ _, List.forall_mem_singleton.2 (.string _ _)⟩)

/-- The members of an event are its name and what is written of its fields. -/
theorem readable_of_fields {room : Nat} {tag : String} {ρ δ : Type} {fields : Fields ρ δ}
    {values : ρ} (readable : fields.Readable room values) :
    ∀ m ∈ ("event", Json.string tag) :: fields.members values, Readable room m.2 :=
  List.forall_mem_cons.2 ⟨.string _ _, Fields.readable_of_mem_members readable⟩

/-- Of all that an event holds only the time may be written so that it does not read back. -/
theorem members_readable {e : Event} (time : ∀ x, e.timestamp? = some x → Legible (.float x))
    (room : Nat) : ∀ m ∈ union.members e, Readable (room + 1) m.2 := by
  have text (s : String) : Readable (room + 1) (.string s) := .string _ s
  have flag (b : Bool) : Readable (room + 1) (.bool b) := .bool _ b
  have float {x : Float} (legible : Legible (.float x)) : Readable (room + 1) (.float x) :=
    .number _ legible
  have place := location_readable room
  have args := arguments_readable room
  cases e with
  | templateBegin kind name point location x =>
    exact readable_of_fields ⟨text _, text _, place _, place _, float (time x rfl), trivial⟩
  | templateEnd x | macroExpansionEnd x | includeEnd x =>
    exact readable_of_fields ⟨float (time x rfl), trivial⟩
  | macroExpansionBegin name names point location x =>
    exact readable_of_fields ⟨text _, args _, place _, place _, float (time x rfl), trivial⟩
  | rescanning code x => exact readable_of_fields ⟨text _, float (time x rfl), trivial⟩
  | tokenGeneration category value point location x =>
    exact readable_of_fields ⟨text _, text _, place _, place _, float (time x rfl), trivial⟩
  | tokenSkipping category value point x =>
    exact readable_of_fields ⟨text _, text _, place _, float (time x rfl), trivial⟩
  | includeBegin path system point x =>
    exact readable_of_fields ⟨text _, flag _, place _, float (time x rfl), trivial⟩
  | define name names body point x =>
    exact readable_of_fields ⟨text _, args _, text _, place _, float (time x rfl), trivial⟩
  | expandedCode written point x | undefine written point x | conditionBegin written point x
  | errorDirective written point x =>
    exact readable_of_fields ⟨text _, place _, float (time x rfl), trivial⟩
  | conditionEnd result x => exact readable_of_fields ⟨flag _, float (time x rfl), trivial⟩
  | elseBranch point x | endif point x =>
    exact readable_of_fields ⟨place _, float (time x rfl), trivial⟩
  | lineDirective argument point location x =>
    exact readable_of_fields ⟨text _, place _, place _, float (time x rfl), trivial⟩
  | evaluationEnd result => exact readable_of_fields ⟨outcome_readable room _, trivial⟩

/-- An event whose time prints back decodes from its compact text. -/
theorem decode_render {e : Event} (time : ∀ x, e.timestamp? = some x → PrintsBack x) :
    codec.decode (codec.render e) = .ok e := by
  have readable := members_readable (fun x given => (time x given).legible) 125
  calc codec.decode (codec.render e)
      = codec.ofJson (.object (union.members e)) := Union.decode_compact rfl readable
    _ = .ok e := codec_lawful e

end Event

end TemplateTrace
