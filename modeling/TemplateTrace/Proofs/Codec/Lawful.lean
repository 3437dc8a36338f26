import TemplateTrace.Codec.Union
import TemplateTrace.Proofs.Json.Grammar
set_option autoImplicit false

/-!
# Lawful codecs

A codec is lawful if every value decodes from the JSON value that it is encoded as.  The laws of
records and unions follow from those of their fields, provided that names tell the fields apart
and tags the kinds of records (`Record.codec_lawful`, `TaggedPair.codec_lawful`,
`Union.codec_lawful`).
-/

namespace TemplateTrace

open Json (Fault)
open Decimal (Number)

/-- Every value decodes from what it is encoded as. -/
def Codec.Lawful {α : Type} (c : Codec α) : Prop :=
  ∀ a, c.ofJson (c.encode a) = .ok a

namespace Codec

/-! ## Single values -/

theorem string_lawful : string.Lawful := fun _ => rfl

theorem bool_lawful : bool.Lawful := fun _ => rfl

theorem float_lawful : float.Lawful := fun _ => rfl

theorem naturalBelow_of_lt {n limit : Nat} (below : n < limit) (wanted : String) :
    naturalBelow limit wanted (.integer n) = .ok n := by
  have within : (0 : Int) ≤ n ∧ (n : Int) < limit := ⟨Int.natCast_nonneg n, Int.ofNat_lt.2 below⟩
  simp only [naturalBelow, within, and_self, if_true, Int.toNat_natCast]

theorem uint32_ofJson_number (n : Number) :
    uint32.ofJson (.number n) = (naturalBelow UInt32.size "u32" n).map UInt32.ofNat := rfl

theorem uint32_encode (n : UInt32) : uint32.encode n = .number (.integer n.toNat) := rfl

theorem uint32_lawful : uint32.Lawful := by
  intro n
  have within : naturalBelow UInt32.size "u32" (.integer n.toNat) = .ok n.toNat :=
    naturalBelow_of_lt n.toNat_lt_size "u32"
  rw [uint32_encode, uint32_ofJson_number, within, Except.map, UInt32.ofNat_toNat]

theorem uint64_ofJson_number (n : Number) :
    uint64.ofJson (.number n) = (naturalBelow UInt64.size "usize" n).map UInt64.ofNat := rfl

theorem uint64_encode (n : UInt64) : uint64.encode n = .number (.integer n.toNat) := rfl

theorem uint64_lawful : uint64.Lawful := by
  intro n
  have within : naturalBelow UInt64.size "usize" (.integer n.toNat) = .ok n.toNat :=
    naturalBelow_of_lt n.toNat_lt_size "usize"
  rw [uint64_encode, uint64_ofJson_number, within, Except.map, UInt64.ofNat_toNat]

/-- Values decode under another type if they do under their own. -/
theorem Lawful.map {α β : Type} {c : Codec α} (lawful : c.Lawful) {build : α → β} {split : β → α}
    (rebuilds : ∀ b, build (split b) = b) : (c.map build split).Lawful := by
  intro b
  change (c.ofJson (c.encode (split b))).map build = .ok b
  rw [lawful]
  exact congrArg Except.ok (rebuilds b)

/-- Absent values decode as absent if no present one is written `null`. -/
theorem Lawful.option {α : Type} {c : Codec α} (lawful : c.Lawful)
    (notNull : ∀ a, c.encode a ≠ .null) : c.option.Lawful := by
  intro value
  cases value with
  | none => rfl
  | some a =>
    have decoded := lawful a
    simp only [Codec.option, Json.ofOption]
    cases encoded : c.encode a with
    | null => exact absurd encoded (notNull a)
    | _ =>
      rw [encoded] at decoded
      simp [decoded, Except.map]

theorem Lawful.list {α : Type} {c : Codec α} (lawful : c.Lawful) : c.list.Lawful := by
  intro values
  change (values.map c.encode).mapM c.ofJson = .ok values
  induction values with
  | nil => rfl
  | cons a values ih =>
    simp [List.mapM_cons, lawful a, ih, bind, Except.bind, pure, Except.pure]

end Codec

/-- Named values decode from their names if the names tell them apart. -/
theorem Choice.codec_lawful {α : Type} {c : Choice α} (named : ∀ a, c.named (c.name a) = .ok a) :
    c.codec.Lawful :=
  named

/-! ## Fields -/

/-- A field gives every value back, from what is written or from its absence. -/
def Field.Lawful {α : Type} (f : Field α) : Prop :=
  ∀ a, if f.hides a then f.inObject = .ok a else f.codec.ofJson (f.codec.encode a) = .ok a

theorem Field.required_lawful {α : Type} (name : String) {c : Codec α} (lawful : c.Lawful) :
    (Field.required name c).Lawful :=
  lawful

theorem Field.withDefault_lawful {α : Type} (name : String) {c : Codec α} (lawful : c.Lawful)
    (value : α) : (Field.withDefault name c value).Lawful :=
  lawful

theorem Field.optional_lawful {α : Type} (name : String) {c : Codec α} (lawful : c.Lawful)
    (notNull : ∀ a, c.encode a ≠ .null) : (Field.optional name c).Lawful :=
  lawful.option notNull

namespace Fields

/-- The names of the fields. -/
def names : {ρ δ : Type} → Fields ρ δ → List String
  | _, _, .nil => []
  | _, _, .cons f rest => f.name :: rest.names

/-- Each field on its own gives every value back. -/
def Lawful : {ρ δ : Type} → Fields ρ δ → Prop
  | _, _, .nil => True
  | _, _, .cons f rest => f.Lawful ∧ rest.Lawful

/-- What was met after some members. -/
def putAll {ρ δ : Type} (fields : Fields ρ δ) (met : δ) (ms : List (String × Json)) :
    Except Fault δ :=
  ms.foldlM (fun met (name, j) => fields.putMember met name j) met

theorem ofMembers_eq {ρ δ : Type} (fields : Fields ρ δ) (ms : List (String × Json)) :
    fields.ofMembers ms = fields.putAll fields.none ms >>= fields.close := rfl

theorem name_mem_names {ρ δ : Type} (fields : Fields ρ δ) (values : ρ) {m : String × Json}
    (member : m ∈ fields.members values) : m.1 ∈ fields.names := by
  induction fields with
  | nil => cases member
  | cons f rest ih =>
    obtain ⟨a, values⟩ := values
    unfold members at member
    split at member
    · exact List.mem_cons_of_mem _ (ih values member)
    · rcases List.mem_cons.1 member with rfl | later
      · exact List.mem_cons_self
      · exact List.mem_cons_of_mem _ (ih values later)

/-- All that is written of some values is read back within a text. -/
def Readable (room : Nat) : {ρ δ : Type} → Fields ρ δ → ρ → Prop
  | _, _, .nil, _ => True
  | _, _, .cons f rest, (a, values) =>
      Json.Readable room (f.codec.encode a) ∧ rest.Readable room values

theorem readable_of_mem_members {room : Nat} {ρ δ : Type} {fields : Fields ρ δ} {values : ρ}
    (readable : fields.Readable room values) :
    ∀ m ∈ fields.members values, Json.Readable room m.2 := by
  induction fields with
  | nil => exact List.forall_mem_nil _
  | cons f rest ih =>
    obtain ⟨a, values⟩ := values
    obtain ⟨first, later⟩ := readable
    unfold members
    split
    · exact ih later
    · exact List.forall_mem_cons.2 ⟨first, ih later⟩

/-- Members of other names leave a field as it was met. -/
theorem putAll_of_other {α ρ δ : Type} {f : Field α} (rest : Fields ρ δ) (met : Option α)
    (others : δ) {ms : List (String × Json)} (other : ∀ m ∈ ms, m.1 ≠ f.name) :
    (Fields.cons f rest).putAll (met, others) ms = (rest.putAll others ms).map (met, ·) := by
  induction ms generalizing others with
  | nil => rfl
  | cons m ms ih =>
    obtain ⟨name, j⟩ := m
    have differs : name ≠ f.name := other (name, j) List.mem_cons_self
    have later := fun others => ih others fun m member => other m (List.mem_cons_of_mem _ member)
    simp only [putAll, List.foldlM_cons, putMember, differs, if_false] at later ⊢
    cases rest.putMember others name j with
    | error fault => rfl
    | ok others => exact later others

/-- The members that are written of some values bring all fields to these values. -/
theorem exists_putAll_members {ρ δ : Type} {fields : Fields ρ δ} (lawful : fields.Lawful)
    (distinct : fields.names.Nodup) (values : ρ) :
    ∃ met, fields.putAll fields.none (fields.members values) = .ok met
      ∧ fields.close met = .ok values := by
  induction fields with
  | nil => exact ⟨(), rfl, rfl⟩
  | cons f rest ih =>
    obtain ⟨a, values⟩ := values
    obtain ⟨absent, distinct⟩ := List.nodup_cons.1 distinct
    obtain ⟨met, put, closed⟩ := ih lawful.2 distinct values
    have field := lawful.1 a
    have other : ∀ m ∈ rest.members values, m.1 ≠ f.name := by
      intro m member same
      exact absent (same ▸ rest.name_mem_names values member)
    by_cases hidden : f.hides a = true
    · rw [if_pos hidden] at field
      refine ⟨(Option.none, met), ?_, ?_⟩
      · simp only [members, hidden, if_true, none]
        rw [putAll_of_other rest Option.none rest.none other, put]
        rfl
      · simp only [close, field, closed, bind, Except.bind, pure, Except.pure]
    · rw [if_neg hidden] at field
      refine ⟨(some a, met), ?_, ?_⟩
      · have first : (Fields.cons f rest).putMember (Option.none, rest.none) f.name
            (f.codec.encode a) = .ok (some a, rest.none) := by
          simp [putMember, field, bind, Except.bind, pure, Except.pure]
        have later := putAll_of_other rest (some a) rest.none other
        rw [put] at later
        simp only [members, hidden, none]
        simp only [putAll, Bool.false_eq_true, if_false, List.foldlM_cons, first]
        exact later
      · simp only [close, closed, bind, Except.bind, pure, Except.pure]

/-- The members that are written of some values give the values back. -/
theorem ofMembers_members {ρ δ : Type} {fields : Fields ρ δ} (lawful : fields.Lawful)
    (distinct : fields.names.Nodup) (values : ρ) :
    fields.ofMembers (fields.members values) = .ok values := by
  obtain ⟨met, put, closed⟩ := exists_putAll_members lawful distinct values
  rw [ofMembers_eq, put]
  exact closed

end Fields

/-! ## Records -/

/-- A record type whose records can be built again from what is written of them. -/
structure Record.Lawful {α : Type} (r : Record α) : Prop where
  fields : r.fields.Lawful
  distinct : r.fields.names.Nodup
  rebuilds : ∀ a, r.build (r.split a) = a

theorem Record.codec_lawful {α : Type} {r : Record α} (lawful : r.Lawful) : r.codec.Lawful := by
  intro a
  change (r.fields.ofMembers (r.fields.members (r.split a))).map r.build = .ok a
  rw [Fields.ofMembers_members lawful.fields lawful.distinct]
  exact congrArg Except.ok (lawful.rebuilds a)

/-! ## Unions -/

/-- A kind of record whose records can be built again from what is written beside a tag. -/
structure Variant.Lawful {α : Type} (v : Variant α) (tagName : String) : Prop where
  fields : v.fields.Lawful
  distinct : (tagName :: v.fields.names).Nodup
  rebuilds : ∀ a values, v.split a = some values → v.build values = a

/-- A union whose tags tell its kinds of records apart, and that has a kind for every value. -/
structure Union.Lawful {α : Type} (u : Union α) : Prop where
  variants : ∀ v ∈ u.variants, v.Lawful u.tagName
  distinct : (u.variants.map Variant.tag).Nodup
  complete : ∀ a, ∃ v ∈ u.variants, (v.split a).isSome

namespace Union

variable {α : Type} {u : Union α}

/-- The kind of record that a value is written as. -/
theorem Lawful.exists_members (lawful : u.Lawful) (a : α) :
    ∃ v ∈ u.variants, ∃ values, v.split a = some values
      ∧ u.members a = (u.tagName, .string v.tag) :: v.fields.members values := by
  obtain ⟨v, member, splits⟩ := lawful.complete a
  unfold members
  cases found : u.variants.findSome? fun v =>
      (v.split a).map fun values => (u.tagName, Json.string v.tag) :: v.fields.members values with
  | none =>
    have none := List.findSome?_eq_none_iff.1 found v member
    rw [Option.map_eq_none_iff] at none
    rw [none] at splits
    cases splits
  | some written =>
    obtain ⟨v, member, same⟩ := List.exists_of_findSome?_eq_some found
    obtain ⟨values, split, rfl⟩ := Option.map_eq_some_iff.1 same
    exact ⟨v, member, values, split, rfl⟩

theorem find?_tag {vs : List (Variant α)} (distinct : (vs.map Variant.tag).Nodup) {v : Variant α}
    (member : v ∈ vs) : vs.find? (fun w => w.tag == v.tag) = some v := by
  induction vs with
  | nil => cases member
  | cons w vs ih =>
    obtain ⟨absent, distinct⟩ := List.nodup_cons.1 distinct
    rcases List.mem_cons.1 member with rfl | later
    · simp
    · have differs : w.tag ≠ v.tag := by
        intro same
        exact absent (same ▸ List.mem_map_of_mem later)
      rw [List.find?_cons_of_neg (by simpa using differs)]
      exact ih distinct later

/-- Members that are not the tag are kept in order. -/
theorem foldlM_putMember (met : Draft) {ms : List (String × Json)}
    (other : ∀ m ∈ ms, m.1 ≠ u.tagName) :
    ms.foldlM (fun met (name, j) => u.putMember met name j) met
      = .ok { met with others := ms.reverse ++ met.others } := by
  induction ms generalizing met with
  | nil => rfl
  | cons m ms ih =>
    obtain ⟨name, j⟩ := m
    have differs : name ≠ u.tagName := other (name, j) List.mem_cons_self
    have later := fun met => ih met fun m member => other m (List.mem_cons_of_mem _ member)
    simp only [List.foldlM_cons, putMember, differs, if_false] at later ⊢
    refine (later _).trans ?_
    simp

theorem codec_lawful (lawful : u.Lawful) : u.codec.Lawful := by
  intro a
  obtain ⟨v, member, values, split, written⟩ := lawful.exists_members a
  have variant := lawful.variants v member
  obtain ⟨absent, distinct⟩ := List.nodup_cons.1 variant.distinct
  have found : u.variant? v.tag = some v := find?_tag lawful.distinct member
  have other : ∀ m ∈ v.fields.members values, m.1 ≠ u.tagName := by
    intro m member same
    exact absent (same ▸ v.fields.name_mem_names values member)
  have tagged : u.putMember Draft.empty u.tagName (.string v.tag) = .ok ⟨some v.tag, []⟩ := by
    simp [putMember, Draft.empty, Choice.identifierValue, check, found, bind, Except.bind, pure,
      Except.pure]
  have all : (u.members a).foldlM (fun met (name, j) => u.putMember met name j) Draft.empty
      = .ok ⟨some v.tag, (v.fields.members values).reverse⟩ := by
    rw [written, List.foldlM_cons]
    simp only [tagged]
    refine (foldlM_putMember _ other).trans ?_
    simp
  have closed : u.close ⟨some v.tag, (v.fields.members values).reverse⟩ = .ok a := by
    simp only [close, ofMembers, found, List.reverse_reverse, Variant.ofMembers,
      Fields.ofMembers_members variant.fields distinct, Except.map, variant.rebuilds a values split]
  calc u.codec.ofJson (u.codec.encode a)
      = (u.members a).foldlM (fun met (name, j) => u.putMember met name j) Draft.empty
          >>= u.close := rfl
    _ = .ok a := by rw [all]; exact closed

/-! ### Reading a union off a text -/

theorem identifier_spelling (j : Json) (rest : List Json.Token) :
    Choice.identifier (j.spelling ++ rest) = (Choice.identifierValue j).map (·, rest) := by
  cases j <;> rfl

/-- A member is taken in as if its value had been kept. -/
theorem readMember_spelling {room : Nat} {j : Json} (fits : Json.Fits room j) (met : Draft)
    (name : String) (rest : List Json.Token) :
    u.readMember room met name (.colon :: (j.spelling ++ rest))
      = (u.putMember met name j).map (·, rest) := by
  unfold readMember putMember
  by_cases tag : name = u.tagName
  · by_cases again : met.tag.isSome = true
    · simp [tag, again, Except.map]
    · simp only [tag, again, if_true, Bool.false_eq_true, if_false, Json.colon, bind, Except.bind,
        identifier_spelling, pure, Except.pure]
      cases Choice.identifierValue j with
      | error fault => rfl
      | ok text =>
        simp only [Except.map]
        cases u.check text <;> rfl
  · simp only [tag, if_false, Json.keepMember, Json.colon, bind, Except.bind,
      Json.read_spelling fits, pure, Except.pure, Except.map]

/-- An object is taken off its tokens as if it had been kept. -/
theorem read_spelling {room : Nat} {fields : List (String × Json)}
    (members : ∀ m ∈ fields, Json.Fits room m.2) (rest : List Json.Token) :
    u.codec.read (room + 1) ((Json.object fields).spelling ++ rest)
      = (u.codec.ofJson (.object fields)).map (·, rest) := by
  have each : ∀ m ∈ fields, ∀ (met : Draft) (rest : List Json.Token),
      u.readMember room met m.1 (.colon :: (m.2.spelling ++ rest))
        = (u.putMember met m.1 m.2).map (·, rest) :=
    fun m member met rest => readMember_spelling (members m member) met m.1 rest
  have spelled : (Json.object fields).spelling ++ rest
      = .opening .curly :: (Json.membersSpelling true fields ++ .closing .curly :: rest) := by
    simp [Json.spelling]
  rw [spelled]
  exact Json.closed_spelling each u.close Draft.empty rest

/-- The text of an object is decoded like the object itself. -/
theorem decode_compact {room : Nat} (inside : Json.enter Json.roomAtStart = .ok room)
    {fields : List (String × Json)} (members : ∀ m ∈ fields, Json.Readable room m.2) :
    u.codec.decode (Json.object fields).compact = u.codec.ofJson (.object fields) := by
  obtain rfl : 126 = room := Except.ok.inj inside
  have readable : Json.Readable Json.roomAtStart (.object fields) := .object members
  have alone := u.read_spelling (fun m member => (members m member).fits) []
  rw [List.append_nil] at alone
  exact Json.wholeText_compact readable alone

end Union

namespace TaggedPair

variable {τ γ α : Type} {u : TaggedPair τ γ α}

theorem codec_lawful (differ : u.contentName ≠ u.tagName)
    (tag : ∀ t, u.tag.named (u.tag.name t) = .ok t) (content : u.content.Lawful)
    (rebuilds : ∀ a, u.build (u.split a).1 (u.split a).2 = a) : u.codec.Lawful := by
  intro a
  have tagged : u.tag.ofJson (.string (u.tag.name (u.split a).1)) = .ok (u.split a).1 := tag _
  have filled : u.content.ofJson (u.content.encode (u.split a).2) = .ok (u.split a).2 := content _
  simp [codec, Choice.codec, putMember, putTag, differ, tagged, filled, Draft.empty,
    Draft.hasContent, close, rebuilds, bind, Except.bind, pure, Except.pure]

end TaggedPair

end TemplateTrace
