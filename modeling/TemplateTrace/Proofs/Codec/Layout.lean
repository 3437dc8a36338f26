import TemplateTrace.Proofs.Codec.Lawful
set_option autoImplicit false

/-!
# Objects in any layout

What an object says does not depend on the order of its members, nor on members of other names.
`Json.MemberSlot` is what an object may hold under one name, and `Json.LaysOut` says that the
members of an object hold what some slots want, each at most once.  Records and unions are decoded
alike from all objects with the same slots (`Fields.ofMembers_of_laysOut`,
`Union.ofJson_of_laysOut`, `TaggedPair.ofJson_of_laysOut`).
-/

namespace TemplateTrace

open Json (Fault)

/-! ## Slots -/

namespace Json

/-- What an object may hold under one name. -/
structure MemberSlot where
  name : String
  /-- the right values -/
  holds : Json → Prop
  /-- whether the member may be left out -/
  optional : Prop

namespace MemberSlot

/-- A text that must be there. -/
def text (name s : String) : MemberSlot :=
  ⟨name, (· = .string s), False⟩

/-- At most one member has the name of the slot; it has a right value, and is there unless it may be
left out. -/
structure Filled (slot : MemberSlot) (ms : List (String × Json)) : Prop where
  once : (ms.map Prod.fst).count slot.name ≤ 1
  right : ∀ j, (slot.name, j) ∈ ms → slot.holds j
  present : slot.name ∈ ms.map Prod.fst ∨ slot.optional

variable {slot : MemberSlot} {ms p q : List (String × Json)} {m : String × Json}

/-- A member of another name makes no difference. -/
theorem filled_append_cons (differs : m.1 ≠ slot.name) :
    slot.Filled (p ++ m :: q) ↔ slot.Filled (p ++ q) := by
  have count : ((p ++ m :: q).map Prod.fst).count slot.name
      = ((p ++ q).map Prod.fst).count slot.name := by
    simp [List.count_append, differs]
  have member (j : Json) : (slot.name, j) ∈ p ++ m :: q ↔ (slot.name, j) ∈ p ++ q := by
    have other : (slot.name, j) ≠ m := fun same => differs (same ▸ rfl)
    simp [other]
  have named : slot.name ∈ (p ++ m :: q).map Prod.fst ↔ slot.name ∈ (p ++ q).map Prod.fst := by
    simp [differs.symm]
  constructor
  · intro filled
    exact ⟨count ▸ filled.once, fun j inside => filled.right j ((member j).2 inside),
      filled.present.imp_left named.1⟩
  · intro filled
    exact ⟨count ▸ filled.once, fun j inside => filled.right j ((member j).1 inside),
      filled.present.imp_left named.2⟩

/-- A member that must be there stands at one place, and at no other. -/
theorem Filled.exists_split (filled : slot.Filled ms) (mandatory : ¬ slot.optional) :
    ∃ p j q, ms = p ++ (slot.name, j) :: q ∧ slot.holds j
      ∧ ∀ m ∈ p ++ q, m.1 ≠ slot.name := by
  obtain ⟨⟨name, j⟩, inside, rfl⟩ := List.mem_map.1 (filled.present.resolve_right mandatory)
  obtain ⟨p, q, rfl⟩ := List.append_of_mem inside
  refine ⟨p, j, q, rfl, filled.right j inside, fun m member same => ?_⟩
  have again : 0 < ((p ++ q).map Prod.fst).count slot.name :=
    List.count_pos_iff.2 (List.mem_map.2 ⟨m, member, same⟩)
  have once := filled.once
  simp only [List.map_append, List.map_cons, List.count_append, List.count_cons_self] at once again
  omega

theorem Filled.of_text {name s : String} (filled : (text name s).Filled ms) :
    ∃ p q, ms = p ++ (name, .string s) :: q ∧ (∀ m ∈ p, m.1 ≠ name) ∧ ∀ m ∈ q, m.1 ≠ name := by
  obtain ⟨p, j, q, split, rfl, other⟩ := filled.exists_split id
  exact ⟨p, q, split, List.forall_mem_append.1 other⟩

end MemberSlot

/-- The members of an object fill some slots; they stand in any order, beside members of any other
names. -/
def LaysOut (slots : List MemberSlot) (ms : List (String × Json)) : Prop :=
  ∀ slot ∈ slots, slot.Filled ms

end Json

open Json (LaysOut MemberSlot)

/-! ## Fields -/

/-- A field gets the same value from whatever is right for a slot. -/
structure Field.Takes {α : Type} (f : Field α) (a : α) (slot : MemberSlot) : Prop where
  name : slot.name = f.name
  decodes : ∀ j, slot.holds j → f.codec.ofJson j = .ok a
  absent : slot.optional → f.inObject = .ok a

namespace Fields

/-- Each field gets its value from the slot in its place. -/
inductive Takes : {ρ δ : Type} → Fields ρ δ → ρ → List MemberSlot → Prop
  | nil : Takes .nil () []
  | cons {α ρ δ : Type} {f : Field α} {rest : Fields ρ δ} {a : α} {values : ρ} {slot : MemberSlot}
      {slots : List MemberSlot} (first : f.Takes a slot) (others : Takes rest values slots) :
      Takes (.cons f rest) (a, values) (slot :: slots)

variable {α ρ δ : Type} {f : Field α} {rest fields : Fields ρ δ} {values : ρ} {others met : δ}
  {ms : List (String × Json)} {slots : List MemberSlot}

/-- The slots have the names of the fields. -/
theorem Takes.names_eq (takes : fields.Takes values slots) :
    slots.map MemberSlot.name = fields.names := by
  induction takes with
  | nil => rfl
  | cons first others ih => rw [List.map_cons, first.name, ih, names]

/-- A member that no field is named like is passed over. -/
theorem putMember_of_not_mem {name : String} (unnamed : name ∉ fields.names) (met : δ) (j : Json) :
    fields.putMember met name j = .ok met := by
  induction fields with
  | nil => rfl
  | cons f rest ih =>
    obtain ⟨seen, met⟩ := met
    obtain ⟨differs, unnamed⟩ := not_or.1 (List.mem_cons.not.1 unnamed)
    simp only [putMember, differs, if_false, ih unnamed, bind, Except.bind, pure, Except.pure]

theorem putAll_cons (fields : Fields ρ δ) (met : δ) (m : String × Json)
    (ms : List (String × Json)) :
    fields.putAll met (m :: ms) = fields.putMember met m.1 m.2 >>= (fields.putAll · ms) :=
  List.foldlM_cons

/-- The only member of its name gives a field its value, wherever it stands. -/
theorem putAll_of_once {a : α} (unnamed : f.name ∉ rest.names)
    (once : (ms.map Prod.fst).count f.name ≤ 1) (present : f.name ∈ ms.map Prod.fst)
    (decodes : ∀ j, (f.name, j) ∈ ms → f.codec.ofJson j = .ok a)
    (put : rest.putAll others ms = .ok met) :
    (Fields.cons f rest).putAll (Option.none, others) ms = .ok (some a, met) := by
  induction ms generalizing others with
  | nil => cases present
  | cons m ms ih =>
    obtain ⟨name, j⟩ := m
    rw [putAll_cons] at put ⊢
    by_cases same : name = f.name
    · subst same
      have value := decodes j List.mem_cons_self
      have absent : ∀ m ∈ ms, m.1 ≠ f.name := by
        intro m member again
        have found : 0 < (ms.map Prod.fst).count f.name :=
          List.count_pos_iff.2 (List.mem_map.2 ⟨m, member, again⟩)
        simp only [List.map_cons, List.count_cons_self] at once
        omega
      rw [putMember_of_not_mem unnamed] at put
      have put : rest.putAll others ms = .ok met := put
      have later := putAll_of_other rest (some a) others absent
      rw [put] at later
      simp only [putMember, if_true, value, bind, Except.bind, pure, Except.pure]
      exact later
    · have decodes : ∀ j, (f.name, j) ∈ ms → f.codec.ofJson j = .ok a :=
        fun j member => decodes j (List.mem_cons_of_mem _ member)
      rw [List.map_cons, List.count_cons_of_ne same] at once
      have present := (List.mem_cons.1 present).resolve_left (Ne.symm same)
      cases step : rest.putMember others name j with
      | error fault =>
        rw [step] at put
        cases put
      | ok after =>
        rw [step] at put
        simp only [putMember, same, if_false, step, bind, Except.bind, pure, Except.pure]
        exact ih once present decodes put

/-- Members that fill the slots of some fields bring all fields to their values. -/
theorem exists_putAll_of_laysOut (takes : fields.Takes values slots)
    (distinct : fields.names.Nodup) (laid : LaysOut slots ms) :
    ∃ met, fields.putAll fields.none ms = .ok met ∧ fields.close met = .ok values := by
  induction takes with
  | nil =>
    refine ⟨(), ?_, rfl⟩
    exact List.foldlM_pure
  | @cons α ρ δ f rest a values slot slots first others ih =>
    obtain ⟨unnamed, distinct⟩ := List.nodup_cons.1 distinct
    obtain ⟨filled, laid⟩ := List.forall_mem_cons.1 laid
    obtain ⟨met, put, closed⟩ := ih distinct laid
    have once := filled.once
    have right := filled.right
    have present := filled.present
    rw [first.name] at once right present
    by_cases there : f.name ∈ ms.map Prod.fst
    · have decodes : ∀ j, (f.name, j) ∈ ms → f.codec.ofJson j = .ok a :=
        fun j member => first.decodes j (right j member)
      refine ⟨(some a, met), ?_, ?_⟩
      · exact putAll_of_once unnamed once there decodes put
      · simp only [close, closed, bind, Except.bind, pure, Except.pure]
    · have other : ∀ m ∈ ms, m.1 ≠ f.name :=
        fun m member same => there (List.mem_map.2 ⟨m, member, same⟩)
      refine ⟨(Option.none, met), ?_, ?_⟩
      · rw [none, putAll_of_other rest Option.none rest.none other, put]
        rfl
      · simp only [close, first.absent (present.resolve_left there), closed, bind, Except.bind,
          pure, Except.pure]

theorem ofMembers_of_laysOut (takes : fields.Takes values slots) (distinct : fields.names.Nodup)
    (laid : LaysOut slots ms) : fields.ofMembers ms = .ok values := by
  obtain ⟨met, put, closed⟩ := exists_putAll_of_laysOut takes distinct laid
  rw [ofMembers_eq, put]
  exact closed

end Fields

/-! ## Records and unions -/

theorem Record.ofJson_of_laysOut {α : Type} {r : Record α} {values : r.parts}
    {slots : List MemberSlot} {ms : List (String × Json)} (takes : r.fields.Takes values slots)
    (distinct : r.fields.names.Nodup) (laid : LaysOut slots ms) :
    r.codec.ofJson (.object ms) = .ok (r.build values) := by
  change (r.fields.ofMembers ms).map r.build = _
  rw [Fields.ofMembers_of_laysOut takes distinct laid]
  rfl

namespace Union

variable {α : Type} {u : Union α} {v : Variant α} {values : v.parts} {slots : List MemberSlot}
  {ms p q : List (String × Json)}

/-- The tag is found wherever it stands, and the other members are kept in order. -/
theorem foldlM_putMember_tag (known : v ∈ u.variants)
    (distinct : (u.variants.map Variant.tag).Nodup)
    (before : ∀ m ∈ p, m.1 ≠ u.tagName) (after : ∀ m ∈ q, m.1 ≠ u.tagName) :
    (p ++ (u.tagName, .string v.tag) :: q).foldlM
        (fun met (name, j) => u.putMember met name j) Draft.empty
      = .ok ⟨some v.tag, (p ++ q).reverse⟩ := by
  have found : u.variant? v.tag = some v := find?_tag distinct known
  have tagged : u.putMember ⟨none, p.reverse⟩ u.tagName (.string v.tag)
      = .ok ⟨some v.tag, p.reverse⟩ := by
    simp [putMember, Choice.identifierValue, check, found, bind, Except.bind, pure, Except.pure]
  rw [List.foldlM_append, foldlM_putMember Draft.empty before]
  simp only [Draft.empty, List.append_nil, List.foldlM_cons, bind, Except.bind, tagged]
  refine (foldlM_putMember _ after).trans ?_
  rw [List.reverse_append]

/-- A union is decoded alike from all objects with the tag of a kind of record and members that fill
the slots of its fields. -/
theorem ofJson_of_laysOut (lawful : u.Lawful) (known : v ∈ u.variants)
    (takes : v.fields.Takes values slots)
    (laid : LaysOut (.text u.tagName v.tag :: slots) ms) :
    u.codec.ofJson (.object ms) = .ok (v.build values) := by
  obtain ⟨tag, laid⟩ := List.forall_mem_cons.1 laid
  obtain ⟨p, q, rfl, before, after⟩ := tag.of_text
  obtain ⟨absent, distinct⟩ := List.nodup_cons.1 (lawful.variants v known).distinct
  rw [← takes.names_eq] at absent
  have beside : LaysOut slots (p ++ q) := by
    intro slot member
    have differs : u.tagName ≠ slot.name :=
      fun same => absent (List.mem_map.2 ⟨slot, member, same.symm⟩)
    exact (MemberSlot.filled_append_cons differs).1 (laid slot member)
  have all := foldlM_putMember_tag known lawful.distinct before after
  have found : u.variant? v.tag = some v := find?_tag lawful.distinct known
  have closed : u.close ⟨some v.tag, (p ++ q).reverse⟩ = .ok (v.build values) := by
    simp only [close, ofMembers, found, List.reverse_reverse, Variant.ofMembers,
      Fields.ofMembers_of_laysOut takes distinct beside, Except.map]
  change (List.foldlM _ Draft.empty _ >>= u.close) = _
  rw [all]
  exact closed

end Union

/-- A place in two lists one after the other lies in the first or in the second. -/
theorem split_within {β : Type} {p q a b : List β} {c : β} (same : p ++ q = a ++ c :: b) :
    (∃ between, p = a ++ c :: between ∧ b = between ++ q)
      ∨ ∃ between, q = between ++ c :: b ∧ a = p ++ between := by
  rcases List.append_eq_append_iff.1 same with ⟨between, rfl, rfl⟩ | ⟨between, rfl, rest⟩
  · exact .inr ⟨between, rfl, rfl⟩
  · cases between with
    | nil => exact .inr ⟨[], rest.symm, (List.append_nil _).symm ▸ by simp⟩
    | cons d between =>
      obtain ⟨rfl, rfl⟩ := List.cons.inj rest
      exact .inl ⟨between, rfl, rfl⟩

namespace TaggedPair

variable {τ γ α : Type} {u : TaggedPair τ γ α} {ms p between q : List (String × Json)} {t : τ}
  {content : γ} {j tag : Json}

/-- What was met after some members. -/
def putAll (u : TaggedPair τ γ α) (met : Draft τ γ) (ms : List (String × Json)) :
    Except Fault (Draft τ γ) :=
  ms.foldlM (fun met (name, j) => u.putMember met name j) met

theorem putAll_of_other (met : Draft τ γ)
    (other : ∀ m ∈ ms, m.1 ≠ u.tagName ∧ m.1 ≠ u.contentName) : u.putAll met ms = .ok met := by
  induction ms with
  | nil => rfl
  | cons m ms ih =>
    obtain ⟨⟨notTag, notContent⟩, other⟩ := List.forall_mem_cons.1 other
    simp only [putAll, List.foldlM_cons, putMember, notTag, notContent, if_false]
    exact ih other

/-- Members of other names are passed over up to the next tag or content. -/
theorem putAll_append_cons (met : Draft τ γ) (m : String × Json)
    (other : ∀ m ∈ p, m.1 ≠ u.tagName ∧ m.1 ≠ u.contentName) :
    u.putAll met (p ++ m :: q) = u.putMember met m.1 m.2 >>= (u.putAll · q) := by
  have split : u.putAll met (p ++ m :: q)
      = u.putAll met p >>= fun met => u.putMember met m.1 m.2 >>= (u.putAll · q) := by
    simp only [putAll, List.foldlM_append, List.foldlM_cons]
  rw [split, putAll_of_other met other]
  rfl

/-- Content before the tag is kept until the tag is met. -/
theorem putAll_content_tag (differ : u.contentName ≠ u.tagName) (named : u.tag.ofJson tag = .ok t)
    (decodes : u.content.ofJson j = .ok content)
    (other : ∀ m ∈ p ++ between ++ q, m.1 ≠ u.tagName ∧ m.1 ≠ u.contentName) :
    u.putAll Draft.empty (p ++ (u.contentName, j) :: (between ++ (u.tagName, tag) :: q))
      = .ok ⟨some t, some j, some content⟩ := by
  obtain ⟨other, after⟩ := List.forall_mem_append.1 other
  obtain ⟨before, inside⟩ := List.forall_mem_append.1 other
  have kept : u.putMember Draft.empty u.contentName j = .ok ⟨none, some j, none⟩ := by
    simp [putMember, differ, Draft.empty, Draft.hasContent]
  have tagged : u.putMember ⟨none, some j, none⟩ u.tagName tag
      = .ok ⟨some t, some j, some content⟩ := by
    simp [putMember, named, putTag, decodes, bind, Except.bind, pure, Except.pure]
  rw [putAll_append_cons _ _ before, kept]
  refine (putAll_append_cons _ _ inside).trans ?_
  rw [tagged]
  exact putAll_of_other _ after

/-- Content after the tag is decoded at once. -/
theorem putAll_tag_content (differ : u.contentName ≠ u.tagName) (named : u.tag.ofJson tag = .ok t)
    (decodes : u.content.ofJson j = .ok content)
    (other : ∀ m ∈ p ++ between ++ q, m.1 ≠ u.tagName ∧ m.1 ≠ u.contentName) :
    u.putAll Draft.empty (p ++ (u.tagName, tag) :: (between ++ (u.contentName, j) :: q))
      = .ok ⟨some t, none, some content⟩ := by
  obtain ⟨other, after⟩ := List.forall_mem_append.1 other
  obtain ⟨before, inside⟩ := List.forall_mem_append.1 other
  have tagged : u.putMember Draft.empty u.tagName tag = .ok ⟨some t, none, none⟩ := by
    simp [putMember, named, putTag, Draft.empty, bind, Except.bind, pure, Except.pure]
  have decoded : u.putMember ⟨some t, none, none⟩ u.contentName j
      = .ok ⟨some t, none, some content⟩ := by
    simp [putMember, differ, decodes, Draft.hasContent, bind, Except.bind, pure, Except.pure]
  rw [putAll_append_cons _ _ before, tagged]
  refine (putAll_append_cons _ _ inside).trans ?_
  rw [decoded]
  exact putAll_of_other _ after

/-- The tag and the content of a union may stand in either order. -/
theorem ofJson_of_laysOut {t : τ} {content : γ} {slot : MemberSlot}
    (named : u.tag.named (u.tag.name t) = .ok t) (differ : u.contentName ≠ u.tagName)
    (name : slot.name = u.contentName) (mandatory : ¬ slot.optional)
    (decodes : ∀ j, slot.holds j → u.content.ofJson j = .ok content)
    (laid : LaysOut [.text u.tagName (u.tag.name t), slot] ms) :
    u.codec.ofJson (.object ms) = .ok (u.build t content) := by
  obtain ⟨tag, laid⟩ := List.forall_mem_cons.1 laid
  obtain ⟨p, q, rfl, notTagBefore, notTagAfter⟩ := tag.of_text
  have filled : slot.Filled (p ++ q) := by
    refine (MemberSlot.filled_append_cons ?_).1 (laid slot List.mem_cons_self)
    rw [name]
    exact differ.symm
  obtain ⟨a, j, b, split, holds, notContent⟩ := filled.exists_split mandatory
  have notTag := List.forall_mem_append.2 ⟨notTagBefore, notTagAfter⟩
  rw [split] at notTag
  rw [name] at split notContent
  have other : ∀ m ∈ a ++ b, m.1 ≠ u.tagName ∧ m.1 ≠ u.contentName := by
    intro m member
    refine ⟨notTag m ?_, notContent m member⟩
    rcases List.mem_append.1 member with before | after
    · exact List.mem_append_left _ before
    · exact List.mem_append_right _ (List.mem_cons_of_mem _ after)
  have tagged : u.tag.ofJson (.string (u.tag.name t)) = .ok t := named
  change (u.putAll Draft.empty _ >>= u.close) = _
  rcases split_within split with ⟨between, rfl, rfl⟩ | ⟨between, rfl, rfl⟩
  · rw [← List.append_assoc] at other
    rw [List.append_assoc, List.cons_append,
      putAll_content_tag differ tagged (decodes j holds) other]
    rfl
  · rw [putAll_tag_content differ tagged (decodes j holds) other]
    rfl

end TaggedPair

end TemplateTrace
