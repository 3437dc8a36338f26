import Mathlib.Algebra.Group.Nat.Defs
import TemplateTrace.FrameId
import TemplateTrace.Proofs.Text.Lines
set_option autoImplicit false

/-!
# What frame ids are digests of

The bytes that an id is the digest of tell the node and the location (`Identity.encode_eq_iff`):
frames that differ have different ids unless the digests of different bytes begin alike.

Each part of the encoding can be told from whatever follows it (`Identity.Separates`), because it
has a fixed length or starts with its length or with a tag, and this carries over to parts that
follow each other (`Separates.append`).  A node is the name of its variant and then its fields.
Lengths are written in eight bytes, so texts and argument lists have to be shorter than `2 ^ 64`.
-/

namespace TemplateTrace

open Digest (littleEndian)

/-- A number that fits some bytes can be read off them. -/
theorem Digest.littleEndian_inj {count n m : Nat} (fits : n < 256 ^ count)
    (fits' : m < 256 ^ count) (same : littleEndian count n = littleEndian count m) : n = m := by
  induction count generalizing n m with
  | zero => omega
  | succ count ih =>
    obtain ⟨first, others⟩ := List.cons.inj same
    have low : n % 256 = m % 256 := by simpa using congrArg UInt8.toNat first
    have high : n / 256 = m / 256 := by
      rw [Nat.pow_succ'] at fits fits'
      exact ih (Nat.div_lt_of_lt_mul fits) (Nat.div_lt_of_lt_mul fits') others
    rw [← Nat.div_add_mod n 256, ← Nat.div_add_mod m 256, low, high]

namespace Identity

/-! ## Lengths -/

/-- Whether the length of a text fits eight bytes. -/
def FitsText (s : String) : Prop :=
  s.utf8ByteSize < 2 ^ 64

instance (s : String) : Decidable (FitsText s) :=
  inferInstanceAs (Decidable (s.utf8ByteSize < 2 ^ 64))

/-- Whether the length of an argument list, if there is one, and those of its texts fit eight
bytes. -/
def FitsArguments (args : Option (List String)) : Prop :=
  ∀ texts, args = some texts → texts.length < 2 ^ 64 ∧ ∀ s ∈ texts, FitsText s

/-- Whether the lengths in a node fit eight bytes. -/
def FitsNode : Node → Prop
  | .typeName name => FitsText name
  | .code code => FitsText code
  | .token category value => FitsText category ∧ FitsText value
  | .inclusion path _ => FitsText path
  | .expansion name args => FitsText name ∧ FitsArguments args
  | .definition name args body => FitsText name ∧ FitsArguments args ∧ FitsText body
  | .message message => FitsText message

/-! ## Parts of the encoding -/

/-- Whether an encoding of the values that fit can be told from whatever follows it. -/
def Separates {α : Type} (fits : α → Prop) (encode : α → List UInt8) : Prop :=
  ∀ ⦃a b : α⦄, fits a → fits b → ∀ ⦃rest rest' : List UInt8⦄,
    encode a ++ rest = encode b ++ rest' → a = b ∧ rest = rest'

/-- Two encodings, the one after the other. -/
theorem Separates.append {α β : Type} {fits : α → Prop} {fits' : β → Prop}
    {first : α → List UInt8} {second : β → List UInt8} (front : Separates fits first)
    (back : Separates fits' second) :
    Separates (fun p : α × β => fits p.1 ∧ fits' p.2) fun p => first p.1 ++ second p.2 := by
  intro p q fitsBoth fitsBoth' rest rest' same
  simp only [List.append_assoc] at same
  obtain ⟨ones, others⟩ := front fitsBoth.1 fitsBoth'.1 same
  obtain ⟨twos, left⟩ := back fitsBoth.2 fitsBoth'.2 others
  exact ⟨Prod.ext ones twos, left⟩

theorem separates_littleEndian (count : Nat) :
    Separates (fun n => n < 256 ^ count) (littleEndian count) := by
  intro n m fits fits' rest rest' same
  have lengths : (littleEndian count n).length = (littleEndian count m).length := by simp
  obtain ⟨number, others⟩ := List.append_inj same lengths
  exact ⟨Digest.littleEndian_inj fits fits' number, others⟩

theorem separates_text : Separates FitsText text := by
  intro s t fits fits' rest rest' same
  simp only [text, List.append_assoc, Text.toList_toUTF8] at same
  obtain ⟨size, others⟩ := separates_littleEndian 8 fits fits' same
  have lengths : (Text.bytes s).length = (Text.bytes t).length := by
    rw [Text.length_bytes, Text.length_bytes, size]
  obtain ⟨bytes, left⟩ := List.append_inj others lengths
  exact ⟨Text.bytes_injective bytes, left⟩

/-- Two lists of texts that are as long as each other. -/
theorem flatMap_text_inj {texts others : List String} (fits : ∀ s ∈ texts, FitsText s)
    (fits' : ∀ s ∈ others, FitsText s) (lengths : texts.length = others.length)
    {rest rest' : List UInt8} (same : texts.flatMap text ++ rest = others.flatMap text ++ rest') :
    texts = others ∧ rest = rest' := by
  induction texts generalizing others with
  | nil =>
    obtain rfl := List.length_eq_zero_iff.1 lengths.symm
    exact ⟨rfl, same⟩
  | cons s texts ih =>
    cases others with
    | nil => simp at lengths
    | cons t others =>
      simp only [List.flatMap_cons, List.append_assoc] at same
      obtain ⟨first, fits⟩ := List.forall_mem_cons.1 fits
      obtain ⟨first', fits'⟩ := List.forall_mem_cons.1 fits'
      obtain ⟨head, tail⟩ := separates_text first first' same
      obtain ⟨later, left⟩ := ih fits fits' (Nat.succ.inj lengths) tail
      exact ⟨congrArg₂ List.cons head later, left⟩

/-- The first byte says whether there is an argument list, and the length of the list how many
texts there are. -/
theorem separates_arguments : Separates FitsArguments arguments := by
  intro args others fits fits' rest rest' same
  cases args with
  | none =>
    cases others with
    | none => exact ⟨rfl, List.append_cancel_left same⟩
    | some others => simp [arguments] at same
  | some texts =>
    cases others with
    | none => simp [arguments] at same
    | some others =>
      simp only [arguments, List.cons_append, List.append_assoc, List.cons.injEq, true_and] at same
      obtain ⟨short, fitTexts⟩ := fits texts rfl
      obtain ⟨short', fitTexts'⟩ := fits' others rfl
      obtain ⟨lengths, texts_eq⟩ := separates_littleEndian 8 short short' same
      obtain ⟨rfl, left⟩ := flatMap_text_inj fitTexts fitTexts' lengths texts_eq
      exact ⟨rfl, left⟩

theorem separates_truth : Separates (fun _ => True) fun b => [truth b] := by
  intro a b _ _ rest rest' same
  obtain ⟨first, others⟩ := List.cons.inj same
  cases a <;> cases b <;> simp_all [truth]

/-! ## Nodes -/

/-- The name of the variant of a node. -/
def tag : Node → String
  | .typeName _ => "type"
  | .code _ => "code"
  | .token _ _ => "token"
  | .inclusion _ _ => "include"
  | .expansion _ _ => "macro"
  | .definition _ _ _ => "define"
  | .message _ => "message"

/-- The fields of a node. -/
def fields : Node → List UInt8
  | .typeName name => text name
  | .code code => text code
  | .token category value => text category ++ text value
  | .inclusion path system => text path ++ [truth system]
  | .expansion name args => text name ++ arguments args
  | .definition name args body => text name ++ arguments args ++ text body
  | .message message => text message

theorem node_eq (n : Node) : node n = text (tag n) ++ fields n := by
  cases n <;> simp only [node, tag, fields, List.append_assoc]

theorem fitsText_tag (n : Node) : FitsText (tag n) := by
  cases n <;> simp only [tag] <;> decide

/-- Nodes of one variant can be told from whatever follows their fields. -/
theorem fields_inj {n m : Node} (variant : tag n = tag m) (fits : FitsNode n) (fits' : FitsNode m)
    {rest rest' : List UInt8} (same : fields n ++ rest = fields m ++ rest') :
    n = m ∧ rest = rest' := by
  cases n with
  | typeName name =>
    cases m with
    | typeName other =>
      obtain ⟨rfl, left⟩ := separates_text fits fits' same
      exact ⟨rfl, left⟩
    | _ => simp [tag] at variant
  | code code =>
    cases m with
    | code other =>
      obtain ⟨rfl, left⟩ := separates_text fits fits' same
      exact ⟨rfl, left⟩
    | _ => simp [tag] at variant
  | token category value =>
    cases m with
    | token otherCategory otherValue =>
      have both := separates_text.append separates_text
      obtain ⟨parts, left⟩ :=
        both (a := (category, value)) (b := (otherCategory, otherValue)) fits fits' same
      obtain ⟨rfl, rfl⟩ := Prod.mk.inj parts
      exact ⟨rfl, left⟩
    | _ => simp [tag] at variant
  | inclusion path system =>
    cases m with
    | inclusion otherPath otherSystem =>
      have both := separates_text.append separates_truth
      obtain ⟨parts, left⟩ := both (a := (path, system)) (b := (otherPath, otherSystem))
        ⟨fits, trivial⟩ ⟨fits', trivial⟩ same
      obtain ⟨rfl, rfl⟩ := Prod.mk.inj parts
      exact ⟨rfl, left⟩
    | _ => simp [tag] at variant
  | expansion name args =>
    cases m with
    | expansion otherName otherArgs =>
      have both := separates_text.append separates_arguments
      obtain ⟨parts, left⟩ :=
        both (a := (name, args)) (b := (otherName, otherArgs)) fits fits' same
      obtain ⟨rfl, rfl⟩ := Prod.mk.inj parts
      exact ⟨rfl, left⟩
    | _ => simp [tag] at variant
  | definition name args body =>
    cases m with
    | definition otherName otherArgs otherBody =>
      have all := (separates_text.append separates_arguments).append separates_text
      obtain ⟨parts, left⟩ :=
        all (a := ((name, args), body)) (b := ((otherName, otherArgs), otherBody))
          (and_assoc.2 fits) (and_assoc.2 fits') same
      obtain ⟨heads, rfl⟩ := Prod.mk.inj parts
      obtain ⟨rfl, rfl⟩ := Prod.mk.inj heads
      exact ⟨rfl, left⟩
    | _ => simp [tag] at variant
  | message message =>
    cases m with
    | message other =>
      obtain ⟨rfl, left⟩ := separates_text fits fits' same
      exact ⟨rfl, left⟩
    | _ => simp [tag] at variant

theorem separates_node : Separates FitsNode node := by
  intro n m fits fits' rest rest' same
  rw [node_eq, node_eq, List.append_assoc, List.append_assoc] at same
  obtain ⟨variant, others⟩ := separates_text (fitsText_tag n) (fitsText_tag m) same
  exact fields_inj variant fits fits' others

/-! ## Locations -/

theorem separates_location : Separates (fun l => FitsText l.name) location := by
  intro l l' fits fits' rest rest' same
  have all := (separates_text.append (separates_littleEndian 4)).append (separates_littleEndian 4)
  obtain ⟨parts, left⟩ := all (a := ((l.name, l.row.toNat), l.column.toNat))
    (b := ((l'.name, l'.row.toNat), l'.column.toNat)) ⟨⟨fits, l.row.toNat_lt⟩, l.column.toNat_lt⟩
    ⟨⟨fits', l'.row.toNat_lt⟩, l'.column.toNat_lt⟩ same
  obtain ⟨heads, column⟩ := Prod.mk.inj parts
  obtain ⟨name, row⟩ := Prod.mk.inj heads
  refine ⟨?_, left⟩
  cases l
  cases l'
  rw [Location.mk.injEq]
  exact ⟨name, UInt32.toNat_inj.1 row, UInt32.toNat_inj.1 column⟩

/-! ## Ids -/

/-- Whatever nodes and locations ids are of, their lengths fitting eight bytes: the bytes that the
ids are digests of are the same just when the nodes and the locations are. -/
theorem encode_eq_iff {n m : Node} {l l' : Location} (fitsNode : FitsNode n)
    (fitsNode' : FitsNode m) (fitsName : FitsText l.name) (fitsName' : FitsText l'.name) :
    encode n l = encode m l' ↔ n = m ∧ l = l' := by
  constructor
  · intro same
    have both := separates_node.append separates_location
    have ends : encode n l ++ [] = encode m l' ++ [] := by rw [same]
    obtain ⟨parts, -⟩ := both (a := (n, l)) (b := (m, l')) ⟨fitsNode, fitsName⟩
      ⟨fitsNode', fitsName'⟩ ends
    exact Prod.mk.inj parts
  · rintro ⟨rfl, rfl⟩
    rfl

/-- Two macros whose texts are the same in the same order, but the last one is a parameter of the
first macro and the body of the second one. -/
theorem encode_eq_iff_parameters :
    FitsNode (.definition "F" (some ["x", "y"]) "") ∧ FitsNode (.definition "F" (some ["x"]) "y")
      ∧ FitsText "f.hpp"
      ∧ encode (.definition "F" (some ["x", "y"]) "") ⟨"f.hpp", 1, 0⟩
        ≠ encode (.definition "F" (some ["x"]) "y") ⟨"f.hpp", 1, 0⟩ := by
  have short : FitsText "F" ∧ FitsText "x" ∧ FitsText "y" ∧ FitsText "" := by decide
  obtain ⟨name, x, y, empty⟩ := short
  have two : FitsArguments (some ["x", "y"]) := by
    intro texts same
    obtain rfl := Option.some.inj same
    exact ⟨by decide, by simp [x, y]⟩
  have one : FitsArguments (some ["x"]) := by
    intro texts same
    obtain rfl := Option.some.inj same
    exact ⟨by decide, by simp [x]⟩
  have place : FitsText "f.hpp" := by decide
  have parameter : FitsNode (.definition "F" (some ["x", "y"]) "") := ⟨name, two, empty⟩
  have body : FitsNode (.definition "F" (some ["x"]) "y") := ⟨name, one, y⟩
  refine ⟨parameter, body, place, fun same => ?_⟩
  have nodes := ((encode_eq_iff parameter body place place).1 same).1
  simp at nodes

end Identity

end TemplateTrace
