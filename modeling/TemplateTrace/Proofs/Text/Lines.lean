import Mathlib.Data.List.TakeWhile
import TemplateTrace.Text.Line
set_option autoImplicit false

/-!
# Lines of written text

The bytes of a text fall into the lines that its line feeds divide it into
(`physicalLines_line`), since no other character has the byte of a line feed in it.  The bytes of a
line are read as its text again (`lineText?_bytes`), and a carriage return at the end of a line is
gone once the line is trimmed, whether or not it was taken for part of the line end
(`exists_closeLine`).
-/

namespace TemplateTrace.Text

/-- The bytes of a text, in UTF-8. -/
def bytes (s : String) : List UInt8 :=
  s.toUTF8.data.toList

/-! ## Bytes -/

theorem bytes_eq (s : String) : bytes s = s.toList.flatMap String.utf8EncodeChar := by
  rw [bytes, String.toUTF8_eq_toByteArray, ← String.utf8Encode_toList, List.utf8Encode]
  exact List.toList_data_toByteArray

@[simp] theorem bytes_append (s t : String) : bytes (s ++ t) = bytes s ++ bytes t := by
  simp [bytes_eq]

/-- The bytes of a text are read as the text. -/
theorem lineText?_bytes (s : String) : lineText? (bytes s) = some s := by
  have same : (⟨(bytes s).toArray⟩ : ByteArray) = s.toByteArray := by
    simp [bytes]
  rw [lineText?, same, String.fromUTF8?, dif_pos s.isValidUTF8]
  rfl

theorem lineText?_eq_some_iff {line : List UInt8} {s : String} :
    lineText? line = some s ↔ bytes s = line := by
  constructor
  · intro read
    unfold lineText? String.fromUTF8? at read
    split at read
    · obtain rfl := Option.some.inj read
      simp [bytes, String.fromUTF8]
    · cases read
  · rintro rfl
    exact lineText?_bytes s

/-- What is not read as a text are the bytes of none. -/
theorem lineText?_eq_none_iff {line : List UInt8} :
    lineText? line = none ↔ ∀ s, bytes s ≠ line := by
  rw [Option.eq_none_iff_forall_ne_some]
  exact forall_congr' fun s => not_congr lineText?_eq_some_iff

/-- Different texts have different bytes. -/
theorem bytes_injective : Function.Injective bytes := by
  intro s t same
  have read : lineText? (bytes s) = lineText? (bytes t) := congrArg lineText? same
  rw [lineText?_bytes, lineText?_bytes] at read
  exact Option.some.inj read

theorem length_bytes (s : String) : (bytes s).length = s.utf8ByteSize := by
  simp [bytes]

/-- The loop that lists a byte array puts the bytes that are left behind those it has read. -/
theorem toList_loop_eq (array : ByteArray) (i : Nat) (read : List UInt8) :
    ByteArray.toList.loop array i read = read.reverse ++ array.data.toList.drop i := by
  fun_induction ByteArray.toList.loop array i read with
  | case1 i read more ih =>
    have within : i < array.data.toList.length := by simpa using more
    have byte : array.get! i = array.data.toList[i] := by
      rw [ByteArray.get!, getElem!_pos array.data i more, Array.getElem_toList]
    rw [ih, List.drop_eq_getElem_cons within, byte, List.reverse_cons, List.append_assoc,
      List.singleton_append]
  | case2 i read done =>
    have past : array.data.toList.length ≤ i := by simpa using done
    rw [List.drop_eq_nil_of_le past, List.append_nil]

theorem toList_toUTF8 (s : String) : s.toUTF8.toList = bytes s := by
  rw [ByteArray.toList, toList_loop_eq]
  simp [bytes]

theorem high_byte (n : Nat) {m k : Nat} (positive : 0 < m) (high : 0x80 ≤ k)
    (fits : m + k ≤ 0x100) : ¬ (UInt8.ofNat (n % m + k)).toNat < 0x80 := by
  have := Nat.mod_lt n positive
  rw [UInt8.toNat_ofNat', Nat.mod_eq_of_lt (by omega)]
  omega

/-- A byte of the ASCII range stands for its character and for nothing else. -/
theorem utf8EncodeChar_of_mem {c : Char} {b : UInt8} (member : b ∈ String.utf8EncodeChar c)
    (ascii : b.toNat < 0x80) : c.toNat = b.toNat ∧ String.utf8EncodeChar c = [b] := by
  unfold String.utf8EncodeChar at member ⊢
  simp only at member ⊢
  split at member
  · next small =>
    obtain rfl := List.mem_singleton.1 member
    rw [if_pos small]
    refine ⟨?_, rfl⟩
    rw [UInt8.toNat_ofNat', Nat.mod_eq_of_lt (by omega)]
    rfl
  · -- all bytes of other characters have their highest bit set
    exfalso
    revert ascii
    split at member
    · simp only [List.mem_cons, List.not_mem_nil, or_false] at member
      rcases member with rfl | rfl <;> exact high_byte _ (by decide) (by decide) (by decide)
    · split at member
      · simp only [List.mem_cons, List.not_mem_nil, or_false] at member
        rcases member with rfl | rfl | rfl <;> exact high_byte _ (by decide) (by decide) (by decide)
      · simp only [List.mem_cons, List.not_mem_nil, or_false] at member
        rcases member with rfl | rfl | rfl | rfl <;>
          exact high_byte _ (by decide) (by decide) (by decide)

/-- A text without line feeds has no byte of one. -/
theorem lineFeed_not_mem_bytes {s : String} (oneLine : '\n' ∉ s.toList) : lineFeed ∉ bytes s := by
  rw [bytes_eq]
  intro member
  obtain ⟨c, inText, inChar⟩ := List.mem_flatMap.1 member
  have code : c.toNat = 10 := (utf8EncodeChar_of_mem inChar (by decide)).1
  have feed : c = '\n' := Char.toNat_inj.1 code
  exact oneLine (feed ▸ inText)

/-! ## Lines -/

theorem physicalLinesFrom_append_lineFeed {line : List UInt8} (oneLine : lineFeed ∉ line)
    (before rest : List UInt8) :
    physicalLinesFrom before (line ++ lineFeed :: rest)
      = closeLine (line.reverse ++ before) :: physicalLines rest := by
  induction line generalizing before with
  | nil => simp [physicalLinesFrom, physicalLines]
  | cons b line ih =>
    obtain ⟨notFeed, later⟩ := not_or.1 (List.mem_cons.not.1 oneLine)
    simp [physicalLinesFrom, Ne.symm notFeed, ih later]

theorem physicalLinesFrom_of_not_mem {line : List UInt8} (oneLine : lineFeed ∉ line)
    (before : List UInt8) :
    physicalLinesFrom before line
      = if (line.reverse ++ before).isEmpty then [] else [(line.reverse ++ before).reverse] := by
  induction line generalizing before with
  | nil => rfl
  | cons b line ih =>
    obtain ⟨notFeed, later⟩ := not_or.1 (List.mem_cons.not.1 oneLine)
    simp [physicalLinesFrom, Ne.symm notFeed, ih later]

/-- A text up to its first line feed is the first line. -/
theorem physicalLines_line {s : String} (oneLine : '\n' ∉ s.toList) (rest : String) :
    physicalLines (bytes (s ++ "\n" ++ rest))
      = closeLine (bytes s).reverse :: physicalLines (bytes rest) := by
  have feed : bytes "\n" = [lineFeed] := by decide
  have line := physicalLinesFrom_append_lineFeed (lineFeed_not_mem_bytes oneLine) [] (bytes rest)
  simpa [physicalLines, feed] using line

/-- A text without line feeds is one line, unless it is empty. -/
theorem physicalLines_last {s : String} (oneLine : '\n' ∉ s.toList) :
    physicalLines (bytes s) = if (bytes s).isEmpty then [] else [bytes s] := by
  simpa [physicalLines] using physicalLinesFrom_of_not_mem (lineFeed_not_mem_bytes oneLine) []

/-! ## Trimming -/

theorem trim_append_return (s : String) : trim (s ++ "\r") = trim s := by
  have blank : isBlank '\r' = true := by decide
  have chars : trimChars (s.toList ++ ['\r']) = trimChars s.toList := by
    rw [trimChars, trimChars, List.dropWhile_append]
    split
    · next empty =>
      rw [List.isEmpty_iff.1 empty]
      simp [blank]
    · simp [blank]
  rw [trim, trim, String.toList_append]
  exact congrArg String.ofList chars

/-- A text that neither starts nor ends with a blank is trimmed of nothing. -/
theorem trim_of_ends {s : String} {c d : Char} {inner : List Char}
    (ends : s.toList = c :: (inner ++ [d])) (first : isBlank c = false) (last : isBlank d = false) :
    trim s = s := by
  have chars : trimChars s.toList = s.toList := by
    simp [trimChars, ends, first, last]
  rw [trim, chars, String.ofList_toList]

/-- Trimming leaves the first character that is not blank in front. -/
theorem head?_toList_trim (s : String) :
    (trim s).toList.head? = s.toList.find? fun c => !isBlank c := by
  rw [trim, String.toList_ofList, trimChars]
  induction s.toList with
  | nil => rfl
  | cons c cs ih =>
    by_cases blank : isBlank c = true
    · simpa [blank] using ih
    · have plain : isBlank c = false := by simpa using blank
      simp only [List.dropWhile_cons, plain, Bool.false_eq_true, if_false, List.reverse_cons,
        List.find?_cons, Bool.not_false]
      rw [List.dropWhile_append]
      split <;> simp [plain]

/-- A line is closed to a text that differs in blanks at its ends only. -/
theorem exists_closeLine (s : String) :
    ∃ t, closeLine (bytes s).reverse = bytes t ∧ trim t = trim s := by
  rcases List.eq_nil_or_concat s.toList with empty | ⟨cs, c, whole⟩
  · obtain rfl := String.toList_eq_nil_iff.1 empty
    exact ⟨"", by decide, rfl⟩
  · have split : s = String.ofList cs ++ String.ofList [c] := by
      rw [← String.ofList_append, ← List.concat_eq_append, ← whole, String.ofList_toList]
    by_cases ret : c = '\r'
    · subst ret
      refine ⟨String.ofList cs, ?_, ?_⟩
      · have byte : bytes (String.ofList ['\r']) = [carriageReturn] := by decide
        simp [split, byte, closeLine]
      · rw [split]
        exact (trim_append_return _).symm
    · refine ⟨s, ?_, rfl⟩
      have last : bytes (String.ofList [c]) = String.utf8EncodeChar c := by simp [bytes_eq]
      cases reversed : (String.utf8EncodeChar c).reverse with
      | nil => exact absurd (List.reverse_eq_nil_iff.1 reversed) String.utf8EncodeChar_ne_nil
      | cons b more =>
        have member : b ∈ String.utf8EncodeChar c := by
          rw [← List.mem_reverse, reversed]
          exact List.mem_cons_self
        have notReturn : b ≠ carriageReturn := by
          rintro rfl
          exact ret (Char.toNat_inj.1 (utf8EncodeChar_of_mem member (by decide)).1)
        have line : (bytes s).reverse = b :: (more ++ (bytes (String.ofList cs)).reverse) := by
          rw [split, bytes_append, last, List.reverse_append, reversed, List.cons_append]
        rw [line, closeLine, if_neg notReturn, ← line, List.reverse_reverse]

end TemplateTrace.Text
