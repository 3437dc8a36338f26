import TemplateTrace.Proofs.Codec.Lawful
set_option autoImplicit false

/-!
# Values that come back

Decoding a text takes a value off the tokens as they come, and not from a JSON value that was kept,
so that the law of a codec says nothing about it.  `Codec.Returns` does: a value comes back from the
tokens of what is written of it, whatever stands behind them.  A record comes back if its fields do
(`Record.codec_returns`), and a value that comes back decodes from its compact text
(`Codec.Returns.decode_render`).
-/

namespace TemplateTrace

open Decimal (Number)
open Json (Readable Token)
open Json.NumberText (Legible legible_nat)

variable {α β : Type} {c : Codec α} {room : Nat}

/-- A value that is read off the tokens of what is written of it. -/
structure Codec.Returns (c : Codec α) (room : Nat) (a : α) : Prop where
  readable : Readable room (c.encode a)
  reads : ∀ rest, c.read room ((c.encode a).spelling ++ rest) = .ok (a, rest)

namespace Codec

/-- A value that comes back decodes from its compact text. -/
theorem Returns.decode_render {a : α} (back : c.Returns Json.roomAtStart a) :
    c.decode (c.render a) = .ok a := by
  have alone := back.reads []
  rw [List.append_nil] at alone
  exact Json.wholeText_compact back.readable alone

/-! ## Single values -/

theorem string_returns (room : Nat) (s : String) : string.Returns room s :=
  ⟨.string room s, fun _ => rfl⟩

theorem bool_returns (room : Nat) (b : Bool) : bool.Returns room b :=
  ⟨.bool room b, fun _ => rfl⟩

/-- A value that is written as a number comes back if the number is read as the value. -/
theorem numeric_returns {wanted : String} {encode : α → Json}
    {ofNumber : Number → Except Json.Fault α} {a : α} {n : Number} (written : encode a = .number n)
    (legible : Legible n) (same : ofNumber n = .ok a) :
    (numeric wanted encode ofNumber).Returns room a where
  readable := by
    change Readable room (encode a)
    rw [written]
    exact .number room legible
  reads := by
    intro rest
    have spelled : ((numeric wanted encode ofNumber).encode a).spelling = [.number (.of n)] := by
      change (encode a).spelling = _
      rw [written]
      rfl
    rw [spelled]
    change (ofNumber n >>= fun a => Except.ok (a, rest)) = .ok (a, rest)
    rw [same]
    rfl

theorem float_returns (room : Nat) {x : Float} (legible : Legible (.float x)) :
    float.Returns room x :=
  numeric_returns rfl legible rfl

theorem uint32_returns (room : Nat) (n : UInt32) : uint32.Returns room n := by
  have small : n.toNat < UInt64.size := Nat.lt_trans n.toNat_lt_size (by decide)
  have same := uint32_lawful n
  rw [uint32_encode, uint32_ofJson_number] at same
  exact numeric_returns rfl (legible_nat small) same

theorem uint64_returns (room : Nat) (n : UInt64) : uint64.Returns room n := by
  have same := uint64_lawful n
  rw [uint64_encode, uint64_ofJson_number] at same
  exact numeric_returns rfl (legible_nat n.toNat_lt_size) same

/-- A value comes back under another type if it does under its own. -/
theorem Returns.map {a : α} (back : c.Returns room a) {build : α → β} {split : β → α} {b : β}
    (splits : split b = a) (builds : build a = b) : (c.map build split).Returns room b := by
  subst splits
  refine ⟨back.readable, fun rest => ?_⟩
  simp only [Codec.map, back.reads rest, builds, bind, Except.bind, pure, Except.pure]

/-! ## Optional values -/

theorem none_returns (c : Codec α) (room : Nat) : c.option.Returns room none :=
  ⟨.null room, fun _ => rfl⟩

theorem Returns.some {a : α} (back : c.Returns room a) (notNull : c.encode a ≠ .null) :
    c.option.Returns room (some a) := by
  refine ⟨back.readable, fun rest => ?_⟩
  have read := back.reads rest
  simp only [Codec.option, Json.ofOption]
  cases encoded : c.encode a with
  | null => exact absurd encoded notNull
  | _ =>
    rw [encoded] at read
    simp only [Json.spelling, List.cons_append, List.nil_append] at read ⊢
    simp only [read, bind, Except.bind, pure, Except.pure]

theorem option_returns {value : Option α} (back : ∀ a ∈ value, c.Returns room a)
    (notNull : ∀ a, c.encode a ≠ .null) : c.option.Returns room value := by
  cases value with
  | none => exact none_returns c room
  | some a => exact (back a rfl).some (notNull a)

end Codec

/-! ## Named values -/

theorem Choice.codec_returns {c : Choice α} (named : ∀ a, c.named (c.name a) = .ok a) (room : Nat)
    (a : α) : c.codec.Returns room a := by
  refine ⟨.string room _, fun rest => ?_⟩
  change (c.named (c.name a) >>= fun a => Except.ok (a, rest)) = .ok (a, rest)
  rw [named]
  rfl

/-! ## Records -/

namespace Fields

/-- Each field comes back on its own. -/
def Returns (room : Nat) : {ρ δ : Type} → Fields ρ δ → ρ → Prop
  | _, _, .nil, _ => True
  | _, _, .cons f rest, (a, values) => f.codec.Returns room a ∧ rest.Returns room values

variable {ρ δ : Type} {fields : Fields ρ δ} {values : ρ}

theorem Returns.readable (back : fields.Returns room values) : fields.Readable room values := by
  induction fields with
  | nil => trivial
  | cons f rest ih => exact ⟨back.1.readable, ih back.2⟩

/-- A member that was written is taken in as if its value had been kept. -/
theorem Returns.readMember_eq (back : fields.Returns room values) (lawful : fields.Lawful)
    (distinct : fields.names.Nodup) {m : String × Json} (member : m ∈ fields.members values)
    (met : δ) (rest : List Token) :
    fields.readMember room met m.1 (.colon :: (m.2.spelling ++ rest))
      = (fields.putMember met m.1 m.2).map (·, rest) := by
  induction fields with
  | nil => cases member
  | cons f others ih =>
    obtain ⟨a, values⟩ := values
    obtain ⟨seen, met⟩ := met
    obtain ⟨absent, distinct⟩ := List.nodup_cons.1 distinct
    have later (member : m ∈ others.members values) :
        (Fields.cons f others).readMember room (seen, met) m.1 (.colon :: (m.2.spelling ++ rest))
          = ((Fields.cons f others).putMember (seen, met) m.1 m.2).map (·, rest) := by
      have differs : m.1 ≠ f.name := by
        intro same
        exact absent (same ▸ others.name_mem_names values member)
      simp only [readMember, putMember, differs, if_false, ih back.2 lawful.2 distinct member]
      cases others.putMember met m.1 m.2 <;> rfl
    have law := lawful.1 a
    unfold members at member
    split at member
    · exact later member
    · next shown =>
      rw [if_neg shown] at law
      rcases List.mem_cons.1 member with rfl | member
      · have read := back.1.reads rest
        by_cases again : seen.isSome = true
        · simp only [readMember, putMember, again, if_true, Except.map]
        · simp only [readMember, putMember, again, if_true, Bool.false_eq_true, if_false,
            Json.colon, read, law, bind, Except.bind, pure, Except.pure, Except.map]
      · exact later member

/-- The fields come back from the members that are written of them. -/
theorem Returns.readObject_eq (back : fields.Returns room values) (lawful : fields.Lawful)
    (distinct : fields.names.Nodup) (rest : List Token) :
    fields.readObject room
        (Json.membersSpelling true (fields.members values) ++ .closing .curly :: rest)
      = .ok (values, rest) := by
  have each : ∀ m ∈ fields.members values, ∀ (met : δ) (rest : List Token),
      fields.readMember room met m.1 (.colon :: (m.2.spelling ++ rest))
        = (fields.putMember met m.1 m.2).map (·, rest) :=
    fun m member met rest => back.readMember_eq lawful distinct member met rest
  have kept := ofMembers_members lawful distinct values
  refine (Json.closed_spelling each fields.close fields.none rest).trans ?_
  exact congrArg (Except.map (·, rest)) kept

end Fields

/-- A record comes back if its fields do. -/
theorem Record.codec_returns {r : Record α} {a : α} (lawful : r.Lawful)
    (back : r.fields.Returns room (r.split a)) : r.codec.Returns (room + 1) a where
  readable := .object (Fields.readable_of_mem_members back.readable)
  reads := by
    intro rest
    have read := back.readObject_eq lawful.fields lawful.distinct rest
    have spelled : (r.codec.encode a).spelling ++ rest = .opening .curly ::
        (Json.membersSpelling true (r.fields.members (r.split a)) ++ .closing .curly :: rest) := by
      simp [codec, Json.spelling]
    rw [spelled]
    change (r.fields.readObject room _ >>= fun values => Except.ok (r.build values.1, values.2))
      = .ok (a, rest)
    rw [read]
    exact congrArg (fun b => Except.ok (b, rest)) (lawful.rebuilds a)

/-! ## Unions -/

/-- A value of a union comes back if all that is written of it is readable. -/
theorem Union.codec_returns {u : Union α} {a : α} (lawful : u.Lawful)
    (readable : ∀ m ∈ u.members a, Readable room m.2) : u.codec.Returns (room + 1) a where
  readable := .object readable
  reads := by
    intro rest
    have decoded : u.codec.ofJson (.object (u.members a)) = .ok a := Union.codec_lawful lawful a
    have read := u.read_spelling (fun m member => (readable m member).fits) rest
    rw [decoded] at read
    exact read

namespace TaggedPair

variable {τ γ : Type} {u : TaggedPair τ γ α}

/-- The tag is taken in as if it had been kept. -/
theorem readMember_tag (named : ∀ t, u.tag.named (u.tag.name t) = .ok t) (met : Draft τ γ) (t : τ)
    (rest : List Token) :
    u.readMember room met u.tagName (.colon :: ((u.tag.codec.encode t).spelling ++ rest))
      = (u.putMember met u.tagName (u.tag.codec.encode t)).map (·, rest) := by
  have read : u.tag.read room ((u.tag.codec.encode t).spelling ++ rest) = .ok (t, rest) :=
    (Choice.codec_returns named room t).reads rest
  have kept : u.tag.ofJson (u.tag.codec.encode t) = .ok t := Choice.codec_lawful named t
  by_cases again : met.tag.isSome = true
  · simp only [readMember, putMember, again, if_true, Except.map]
  · simp only [readMember, putMember, again, if_true, Bool.false_eq_true, if_false, Json.colon,
      read, kept, bind, Except.bind]
    cases u.putTag met t <;> rfl

/-- The content is taken in as if it had been kept, before the tag or after it. -/
theorem readMember_content (differ : u.contentName ≠ u.tagName) (lawful : u.content.Lawful)
    {content : γ} (back : u.content.Returns room content) (met : Draft τ γ) (rest : List Token) :
    u.readMember room met u.contentName (.colon :: ((u.content.encode content).spelling ++ rest))
      = (u.putMember met u.contentName (u.content.encode content)).map (·, rest) := by
  by_cases again : met.hasContent = true
  · simp only [readMember, putMember, differ, again, if_true, if_false, Except.map]
  · by_cases tagged : met.tag.isSome = true
    · simp only [readMember, putMember, differ, again, tagged, if_true, Bool.false_eq_true,
        if_false, Json.colon, back.reads rest, lawful content, bind, Except.bind, pure,
        Except.pure, Except.map]
    · simp only [readMember, putMember, differ, again, tagged, if_true, Bool.false_eq_true,
        if_false, Json.colon, Json.read_spelling back.readable.fits rest, bind, Except.bind, pure,
        Except.pure, Except.map]

/-- A union with its tag beside its content comes back if the content does. -/
theorem codec_returns {a : α} (differ : u.contentName ≠ u.tagName)
    (named : ∀ t, u.tag.named (u.tag.name t) = .ok t) (lawful : u.content.Lawful)
    (rebuilds : ∀ a, u.build (u.split a).1 (u.split a).2 = a)
    (back : u.content.Returns room (u.split a).2) : u.codec.Returns (room + 1) a where
  readable :=
    .object (List.forall_mem_cons.2 ⟨.string _ _, List.forall_mem_singleton.2 back.readable⟩)
  reads := by
    intro rest
    have each : ∀ m ∈ [(u.tagName, u.tag.codec.encode (u.split a).1),
          (u.contentName, u.content.encode (u.split a).2)], ∀ (met : Draft τ γ) rest,
        u.readMember room met m.1 (.colon :: (m.2.spelling ++ rest))
          = (u.putMember met m.1 m.2).map (·, rest) := by
      refine List.forall_mem_cons.2 ⟨fun met rest => ?_, List.forall_mem_singleton.2 ?_⟩
      · exact readMember_tag named met _ rest
      · exact fun met rest => readMember_content differ lawful back met rest
    have spelled : (u.codec.encode a).spelling ++ rest = .opening .curly ::
        (Json.membersSpelling true [(u.tagName, u.tag.codec.encode (u.split a).1),
          (u.contentName, u.content.encode (u.split a).2)] ++ .closing .curly :: rest) := by
      simp [codec, Json.spelling]
    have kept : u.codec.ofJson (u.codec.encode a) = .ok a :=
      codec_lawful differ named lawful rebuilds a
    rw [spelled]
    refine (Json.closed_spelling each u.close Draft.empty rest).trans ?_
    exact congrArg (Except.map (·, rest)) kept

end TaggedPair

end TemplateTrace
