import Mathlib.Data.List.TakeWhile
import TemplateTrace.Json.NumberText
set_option autoImplicit false

/-!
# Numbers within a text

A number ends where no character that could go on with it follows, so what it is does not depend on
the text after it (`numeral_append`).  Natural numbers that fit into 64 bits are read back as they
were written (`legible_nat`); what is read of the text of a float is a float, since its layout
always shows a point or an exponent mark (`exists_float_of_looksFloat`).
-/

namespace TemplateTrace.Json.NumberText

open TemplateTrace.Decimal

/-! ## What follows a number -/

/-- No number goes on with these characters. -/
def Stops (rest : List Char) : Prop :=
  ∀ c, rest.head? = some c → c.isDigit = false ∧ c ≠ '.' ∧ c ≠ 'e' ∧ c ≠ 'E'

theorem stops_nil : Stops [] := by
  intro c first
  cases first

theorem stops_cons {c : Char} (plain : c.isDigit = false ∧ c ≠ '.' ∧ c ≠ 'e' ∧ c ≠ 'E')
    (rest : List Char) : Stops (c :: rest) := by
  intro d first
  obtain rfl : c = d := Option.some.inj first
  exact plain

section

variable {cs rest left : List Char}

theorem Stops.takeWhile (stops : Stops rest) : rest.takeWhile Char.isDigit = [] := by
  cases rest with
  | nil => rfl
  | cons c rest => simp [(stops c rfl).1]

theorem Stops.dropWhile (stops : Stops rest) : rest.dropWhile Char.isDigit = rest := by
  cases rest with
  | nil => rfl
  | cons c rest => simp [(stops c rfl).1]

/-! ## Parts of a number before other text -/

theorem digits_append (cs : List Char) (stops : Stops rest) :
    digits (cs ++ rest) = ((digits cs).1, (digits cs).2 ++ rest) := by
  induction cs with
  | nil => simp [digits, stops.takeWhile, stops.dropWhile]
  | cons c cs ih =>
    by_cases digit : c.isDigit = true
    · simp only [digits, Prod.mk.injEq] at ih
      simp [digits, digit, ih.1, ih.2]
    · simp [digits, digit]

theorem someDigits_append {ds : List Nat} (h : someDigits cs = .ok (ds, left))
    (stops : Stops rest) : someDigits (cs ++ rest) = .ok (ds, left ++ rest) := by
  unfold someDigits at h ⊢
  rw [digits_append cs stops]
  cases found : digits cs with
  | mk front back =>
    cases front with
    | nil => simp [found] at h
    | cons d front =>
      simp only [found, Except.ok.injEq, Prod.mk.injEq] at h
      simp [← h.1, ← h.2]

theorem whole_eq_ok_iff {ds : List Nat} :
    whole cs = .ok (ds, left)
      ↔ someDigits cs = .ok (ds, left) ∧ ∀ d more, ds ≠ 0 :: d :: more := by
  unfold whole
  split
  · next d more rest found =>
    refine ⟨fun h => (by cases h), ?_⟩
    rintro ⟨same, plain⟩
    rw [found] at same
    exact absurd (Prod.mk.inj (Except.ok.inj same)).1.symm (plain d more)
  · next notZero =>
    refine ⟨fun h => ⟨h, ?_⟩, And.left⟩
    rintro d more rfl
    exact notZero d more left h

theorem whole_append {ds : List Nat} (h : whole cs = .ok (ds, left)) (stops : Stops rest) :
    whole (cs ++ rest) = .ok (ds, left ++ rest) := by
  obtain ⟨some, plain⟩ := whole_eq_ok_iff.1 h
  exact whole_eq_ok_iff.2 ⟨someDigits_append some stops, plain⟩

theorem fraction_of_stops (stops : Stops rest) : fraction rest = .ok (none, rest) := by
  unfold fraction
  split
  · exact absurd rfl (stops _ rfl).2.1
  · rfl

theorem fraction_append {ds : Option (List Nat)} (h : fraction cs = .ok (ds, left))
    (stops : Stops rest) : fraction (cs ++ rest) = .ok (ds, left ++ rest) := by
  unfold fraction at h
  split at h
  · next cs =>
    cases found : someDigits cs with
    | error e => simp [found, Except.map] at h
    | ok p =>
      simp only [found, Except.map, Except.ok.injEq, Prod.mk.injEq] at h
      simp [fraction, someDigits_append found stops, Except.map, h.1, ← h.2]
  · next plain =>
    obtain ⟨rfl, rfl⟩ : none = ds ∧ cs = left := by simpa using h
    cases cs with
    | nil => exact fraction_of_stops stops
    | cons c cs =>
      unfold fraction
      split
      · next same => exact absurd (congrArg (· :: cs) (List.cons.inj same).1) (plain cs)
      · rfl

theorem powerSign_append (nonempty : cs ≠ []) :
    powerSign (cs ++ rest) = ((powerSign cs).1, (powerSign cs).2 ++ rest) := by
  obtain ⟨c, cs, rfl⟩ := List.exists_cons_of_ne_nil nonempty
  by_cases plus : c = '+'
  · subst plus
    rfl
  · by_cases minus : c = '-'
    · subst minus
      rfl
    · simp [powerSign, plus, minus]

theorem someDigits_nonempty {ds : List Nat} (h : someDigits cs = .ok (ds, left)) : cs ≠ [] := by
  rintro rfl
  simp [someDigits, digits] at h

theorem power_of_stops (stops : Stops rest) : power rest = .ok (none, rest) := by
  cases rest with
  | nil => rfl
  | cons c rest => simp [power, (stops c rfl).2.2.1, (stops c rfl).2.2.2]

theorem power_append {n : Option Int} (h : power cs = .ok (n, left)) (stops : Stops rest) :
    power (cs ++ rest) = .ok (n, left ++ rest) := by
  cases cs with
  | nil =>
    obtain ⟨rfl, rfl⟩ : none = n ∧ [] = left := by simpa [power] using h
    exact power_of_stops stops
  | cons c cs =>
    by_cases mark : c = 'e' ∨ c = 'E'
    · cases found : someDigits (powerSign cs).2 with
      | error e => simp [power, mark, found, Except.map] at h
      | ok p =>
        have nonempty : cs ≠ [] := by
          rintro rfl
          exact someDigits_nonempty found rfl
        simp only [power, mark, found, Except.map, if_true, Except.ok.injEq, Prod.mk.injEq] at h
        simp [power, mark, powerSign_append nonempty, someDigits_append found stops, Except.map,
          h.1, ← h.2]
    · obtain ⟨rfl, rfl⟩ : none = n ∧ c :: cs = left := by simpa [power, mark] using h
      simp [power, mark]

theorem sign_append (nonempty : cs ≠ []) :
    sign (cs ++ rest) = ((sign cs).1, (sign cs).2 ++ rest) := by
  obtain ⟨c, cs, rfl⟩ := List.exists_cons_of_ne_nil nonempty
  by_cases minus : c = '-'
  · subst minus
    rfl
  · simp [sign, minus]

/-- The parts of a number, one after the other. -/
theorem numeral_eq_ok_iff {t : Numeral} :
    numeral cs = .ok (t, left)
      ↔ ∃ afterWhole afterFraction, whole (sign cs).2 = .ok (t.whole, afterWhole)
        ∧ fraction afterWhole = .ok (t.fraction, afterFraction)
        ∧ power afterFraction = .ok (t.power, left) ∧ t.negative = (sign cs).1 := by
  constructor
  · intro h
    simp only [numeral, bind, Except.bind, pure, Except.pure] at h
    split at h
    · cases h
    · next w foundWhole =>
      split at h
      · cases h
      · next f foundFraction =>
        split at h
        · cases h
        · next p foundPower =>
          cases h
          exact ⟨w.2, f.2, foundWhole, foundFraction, foundPower, rfl⟩
  · rintro ⟨afterWhole, afterFraction, foundWhole, foundFraction, foundPower, same⟩
    simp only [numeral, bind, Except.bind, pure, Except.pure, foundWhole, foundFraction,
      foundPower, ← same]

/-- A number starts with a sign or a digit. -/
theorem start_of_numeral {c : Char} {t : Numeral} (h : numeral (c :: cs) = .ok (t, left)) :
    c = '-' ∨ c.isDigit = true := by
  obtain ⟨afterWhole, -, foundWhole, -⟩ := numeral_eq_ok_iff.1 h
  have found := (whole_eq_ok_iff.1 foundWhole).1
  by_cases minus : c = '-'
  · exact .inl minus
  · right
    by_contra notDigit
    simp [sign, minus, someDigits, digits, notDigit] at found

/-- A number is the same before any text that does not go on with it. -/
theorem numeral_append {t : Numeral} (h : numeral cs = .ok (t, left)) (stops : Stops rest) :
    numeral (cs ++ rest) = .ok (t, left ++ rest) := by
  have nonempty : cs ≠ [] := by
    rintro rfl
    exact absurd (numeral_rest_length h) (Nat.not_lt_zero _)
  obtain ⟨afterWhole, afterFraction, foundWhole, foundFraction, foundPower, same⟩ :=
    numeral_eq_ok_iff.1 h
  refine numeral_eq_ok_iff.2 ⟨afterWhole ++ rest, afterFraction ++ rest, ?_,
    fraction_append foundFraction stops, power_append foundPower stops, ?_⟩
  · rw [sign_append nonempty]
    exact whole_append foundWhole stops
  · rw [sign_append nonempty]
    exact same

/-! ## What is left after a number -/

theorem someDigits_suffix {ds : List Nat} (h : someDigits cs = .ok (ds, left)) : left <:+ cs := by
  unfold someDigits at h
  cases found : digits cs with
  | mk front back =>
    have dropped : cs.dropWhile Char.isDigit = back := congrArg Prod.snd found
    cases front with
    | nil => simp [found] at h
    | cons d front =>
      simp only [found, Except.ok.injEq, Prod.mk.injEq] at h
      rw [← h.2, ← dropped]
      exact List.dropWhile_suffix Char.isDigit

theorem fraction_suffix {ds : Option (List Nat)} (h : fraction cs = .ok (ds, left)) :
    left <:+ cs := by
  unfold fraction at h
  split at h
  · next cs =>
    cases found : someDigits cs with
    | error e => simp [found, Except.map] at h
    | ok p =>
      simp only [found, Except.map, Except.ok.injEq, Prod.mk.injEq] at h
      rw [← h.2]
      exact (someDigits_suffix found).trans (List.suffix_cons _ _)
  · exact (Prod.mk.inj (Except.ok.inj h)).2 ▸ List.suffix_rfl

theorem powerSign_suffix (cs : List Char) : (powerSign cs).2 <:+ cs := by
  unfold powerSign
  split <;> simp

theorem power_suffix {n : Option Int} (h : power cs = .ok (n, left)) : left <:+ cs := by
  unfold power at h
  split at h
  · exact (Prod.mk.inj (Except.ok.inj h)).2 ▸ List.suffix_rfl
  · next c cs =>
    split at h
    · cases found : someDigits (powerSign cs).2 with
      | error e => simp [found, Except.map] at h
      | ok p =>
        simp only [found, Except.map, Except.ok.injEq, Prod.mk.injEq] at h
        rw [← h.2]
        exact ((someDigits_suffix found).trans (powerSign_suffix cs)).trans (List.suffix_cons _ _)
    · exact (Prod.mk.inj (Except.ok.inj h)).2 ▸ List.suffix_rfl

theorem sign_suffix (cs : List Char) : (sign cs).2 <:+ cs := by
  unfold sign
  split <;> simp

/-- A number is taken off the front of a text. -/
theorem numeral_suffix {t : Numeral} (h : numeral cs = .ok (t, left)) : left <:+ cs := by
  obtain ⟨afterWhole, afterFraction, foundWhole, foundFraction, foundPower, -⟩ :=
    numeral_eq_ok_iff.1 h
  have afterSign : afterWhole <:+ (sign cs).2 :=
    someDigits_suffix (whole_eq_ok_iff.1 foundWhole).1
  have front : left <:+ afterWhole := (power_suffix foundPower).trans
    (fraction_suffix foundFraction)
  exact (front.trans afterSign).trans (sign_suffix cs)

/-! ## Texts that are integers -/

/-- A number without fraction and power is written in digits only, but for its sign. -/
theorem isDigit_of_numeral {t : Numeral} (h : numeral cs = .ok (t, [])) (plain : t.fraction = none)
    (flat : t.power = none) : ∀ c ∈ (sign cs).2, c.isDigit = true := by
  obtain ⟨afterWhole, afterFraction, foundWhole, foundFraction, foundPower, -⟩ :=
    numeral_eq_ok_iff.1 h
  have noPower : afterFraction = [] := by
    cases afterFraction with
    | nil => rfl
    | cons c more =>
      rw [flat] at foundPower
      unfold power at foundPower
      simp only at foundPower
      split at foundPower
      · cases found : someDigits (powerSign more).2 <;> simp [found, Except.map] at foundPower
      · simp at foundPower
  have noFraction : afterWhole = [] := by
    rw [plain, noPower] at foundFraction
    unfold fraction at foundFraction
    split at foundFraction
    · next more =>
      cases found : someDigits more <;> simp [found, Except.map] at foundFraction
    · exact (Prod.mk.inj (Except.ok.inj foundFraction)).2
  have all := (whole_eq_ok_iff.1 foundWhole).1
  rw [noFraction] at all
  unfold someDigits at all
  have rest : (sign cs).2.dropWhile Char.isDigit = [] := by
    cases found : digits (sign cs).2 with
    | mk front back =>
      cases front with
      | nil => simp [found] at all
      | cons d front =>
        simp only [found, Except.ok.injEq, Prod.mk.injEq] at all
        simpa [digits, all.2] using congrArg Prod.snd found
  exact List.dropWhile_eq_nil_iff.1 rest

end

/-! ## Integers -/

/-- Digits are all gathered if the number that they stand for fits. -/
theorem gather_of_lt {ds : List Nat} {n : Nat}
    (fits : ds.foldl (fun n d => 10 * n + d) n < UInt64.size) :
    gather n ds = (ds.foldl (fun n d => 10 * n + d) n, []) := by
  have grows : ∀ (ds : List Nat) (n : Nat), n ≤ ds.foldl (fun n d => 10 * n + d) n := by
    intro ds
    induction ds with
    | nil => exact Nat.le_refl
    | cons d ds ih =>
      intro n
      have := ih (10 * n + d)
      simp only [List.foldl_cons]
      omega
  induction ds generalizing n with
  | nil => rfl
  | cons d ds ih =>
    have within : 10 * n + d < UInt64.size := Nat.lt_of_le_of_lt (grows ds _) fits
    simp only [gather, within, if_true, List.foldl_cons]
    exact ih fits

/-- The values of the digits of a natural number. -/
def digitsOf (n : Nat) : List Nat :=
  (Nat.toDigits 10 n).map fun c => c.toNat - 48

theorem ofDigits_digitsOf (n : Nat) : ofDigits (digitsOf n) = n := by
  rw [ofDigits, digitsOf, List.foldl_map]
  exact Nat.ofDigitChars_ten_toDigits

theorem digitsOf_of_lt_ten {n : Nat} (small : n < 10) : digitsOf n = [n] := by
  rw [digitsOf, Nat.toDigits_of_lt_base small, List.map_singleton,
    Nat.toNat_digitChar_sub_48_of_lt_ten small]

theorem digitsOf_of_ten_le {n : Nat} (large : 10 ≤ n) :
    digitsOf n = digitsOf (n / 10) ++ digitsOf (n % 10) := by
  have last : n % 10 < 10 := Nat.mod_lt n (by decide)
  rw [digitsOf, digitsOf, digitsOf, Nat.toDigits_of_base_le (by decide) large, List.map_append,
    Nat.toDigits_of_lt_base last]

/-- The digits of a number start with zero for zero only. -/
theorem exists_digitsOf (n : Nat) : ∃ d ds, digitsOf n = d :: ds ∧ (d = 0 → n = 0 ∧ ds = []) := by
  induction n using Nat.strongRecOn with
  | ind n ih =>
    by_cases small : n < 10
    · exact ⟨n, [], digitsOf_of_lt_ten small, fun zero => ⟨zero, rfl⟩⟩
    · have large : 10 ≤ n := by omega
      obtain ⟨d, ds, front, leading⟩ := ih (n / 10) (by omega)
      refine ⟨d, ds ++ digitsOf (n % 10), by rw [digitsOf_of_ten_le large, front]; rfl, ?_⟩
      intro zero
      have := (leading zero).1
      omega

theorem isDigit_of_mem_toDigits {n : Nat} {c : Char} (member : c ∈ Nat.toDigits 10 n) :
    c.isDigit = true :=
  Nat.isDigit_of_mem_toDigits (by decide) (by decide) member

/-- Integers are written in digits that start with no zero. -/
theorem whole_toDigits (n : Nat) : whole (Nat.toDigits 10 n) = .ok (digitsOf n, []) := by
  have split : digits (Nat.toDigits 10 n) = (digitsOf n, []) := by
    rw [digits, List.takeWhile_eq_self_iff.2 fun c => isDigit_of_mem_toDigits,
      List.dropWhile_eq_nil_iff.2 fun c => isDigit_of_mem_toDigits, digitsOf]
  obtain ⟨d, ds, written, leading⟩ := exists_digitsOf n
  refine whole_eq_ok_iff.2 ⟨?_, ?_⟩
  · rw [someDigits, split, written]
  · intro e more same
    obtain ⟨zero, rest⟩ := List.cons.inj (written.symm.trans same)
    rw [(leading zero).2] at rest
    cases rest

/-- A number that a text of its own gives back. -/
def Legible (n : Number) : Prop :=
  ∃ t, numeral (render n).toList = .ok (t, []) ∧ t.value? = some n

/-- Natural numbers of 64 bits are read as they were written. -/
theorem legible_nat {n : Nat} (fits : n < UInt64.size) : Legible (.integer n) := by
  have text : (render (.integer n)).toList = Nat.toDigits 10 n := Nat.toList_repr
  refine ⟨⟨false, digitsOf n, none, none⟩, ?_, ?_⟩
  · rw [text]
    have unsigned : sign (Nat.toDigits 10 n) = (false, Nat.toDigits 10 n) := by
      unfold sign
      split
      · next cs minus =>
        have digit : '-'.isDigit = true := isDigit_of_mem_toDigits (n := n) (by simp [minus])
        simp at digit
      · rfl
    refine numeral_eq_ok_iff.2 ⟨[], [], ?_, rfl, rfl, ?_⟩
    · rw [unsigned]
      exact whole_toDigits n
    · rw [unsigned]
  · have value : (digitsOf n).foldl (fun n d => 10 * n + d) 0 = n := ofDigits_digitsOf n
    have gathered : gather 0 (digitsOf n) = (n, []) := by
      rw [gather_of_lt (by rwa [value]), value]
    simp [Numeral.value?, gathered, ofWhole]

/-! ## Floats -/

/-- The characters of the text of a float. -/
def isFloatChar (c : Char) : Bool :=
  c.isDigit || c == '-' || c == '+' || c == '.' || c == 'e'

theorem isFloatChar_of_isDigit {c : Char} (digit : c.isDigit = true) : isFloatChar c = true := by
  simp [isFloatChar, digit]

/-- Whether a text has the characters of a float and shows that it is no integer. -/
def LooksFloat (cs : List Char) : Prop :=
  (∀ c ∈ cs, isFloatChar c = true) ∧ ∃ c ∈ cs, c = '.' ∨ c = 'e'

theorem looksFloat_withFraction {front back : List Char} (digitsBefore : ∀ c ∈ front, c.isDigit)
    (digitsAfter : ∀ c ∈ back, c.isDigit) : LooksFloat (Layout.withFraction front back) := by
  have filled : ∀ c ∈ (if back.isEmpty then ['0'] else back), c.isDigit = true := by
    split
    · simp
    · exact digitsAfter
  refine ⟨fun c member => ?_, '.', by simp [Layout.withFraction], .inl rfl⟩
  rcases List.mem_append.1 member with before | after
  · exact isFloatChar_of_isDigit (digitsBefore c before)
  · rcases List.mem_cons.1 after with rfl | after
    · rfl
    · exact isFloatChar_of_isDigit (filled c after)

theorem looksFloat_magnitude (l : Layout) (d : Decimal) : LooksFloat (l.magnitude d) := by
  have written : ∀ c ∈ Nat.toDigits 10 d.digits, c.isDigit = true :=
    fun c => isDigit_of_mem_toDigits
  have zeros : ∀ (n : Nat) (c : Char), c ∈ List.replicate n '0' → c.isDigit = true := by
    intro n c member
    obtain rfl := List.eq_of_mem_replicate member
    rfl
  unfold Layout.magnitude
  simp only
  split
  · exact looksFloat_withFraction (by simp) (by simp)
  split
  · refine looksFloat_withFraction (by simp) fun c member => ?_
    exact (List.mem_append.1 member).elim (zeros _ c) (written c)
  split
  · refine looksFloat_withFraction (fun c member => ?_) fun c member => ?_
    · exact (List.mem_append.1 member).elim (fun front => written c (List.mem_of_mem_take front))
        (zeros _ c)
    · exact written c (List.mem_of_mem_drop member)
  · -- one digit, a fraction and a signed power of ten
    refine ⟨fun c member => ?_, 'e', by simp, .inr rfl⟩
    simp only [List.append_assoc, List.mem_append, List.mem_cons] at member
    rcases member with front | middle | rfl | rfl | power
    · exact isFloatChar_of_isDigit (written c (List.mem_of_mem_take front))
    · split at middle
      · cases middle
      · rcases List.mem_cons.1 middle with rfl | back
        · rfl
        · exact isFloatChar_of_isDigit (written c (List.mem_of_mem_drop back))
    · rfl
    · split <;> rfl
    · exact isFloatChar_of_isDigit (isDigit_of_mem_toDigits power)

/-- The text of a finite float shows that it is one. -/
theorem looksFloat_float? {l : Layout} {x : Float} {text : String} (h : l.float? x = some text) :
    LooksFloat text.toList := by
  simp only [Layout.float?, Option.map_eq_some_iff] at h
  obtain ⟨d, -, rfl⟩ := h
  obtain ⟨chars, c, member, mark⟩ := looksFloat_magnitude l d
  simp only [String.toList_ofList]
  refine ⟨fun c member => ?_, c, List.mem_append_right _ member, mark⟩
  rcases List.mem_append.1 member with minus | later
  · split at minus
    · obtain rfl := List.mem_singleton.1 minus
      rfl
    · cases minus
  · exact chars c later

/-- A number whose text shows that it is a float is read as one. -/
theorem exists_float_of_looksFloat {cs : List Char} (looks : LooksFloat cs) {t : Numeral}
    (h : numeral cs = .ok (t, [])) {n : Number} (value : t.value? = some n) :
    ∃ x, n = .float x := by
  obtain ⟨-, c, member, mark⟩ := looks
  have notDigit : c.isDigit = false := by
    rcases mark with rfl | rfl <;> rfl
  have notSign : c ≠ '-' := by
    rcases mark with rfl | rfl <;> decide
  have marked : ¬ (t.fraction = none ∧ t.power = none) := by
    rintro ⟨plain, flat⟩
    have unsigned : c ∈ (sign cs).2 := by
      unfold sign
      split
      · exact (List.mem_cons.1 member).resolve_left notSign
      · exact member
    rw [isDigit_of_numeral h plain flat c unsigned] at notDigit
    cases notDigit
  unfold Numeral.value? at value
  simp only at value
  split at value
  · next plain flat _ => exact absurd ⟨plain, flat⟩ marked
  · obtain ⟨x, -, same⟩ := Option.map_eq_some_iff.1 value
    exact ⟨_, same.symm⟩

end TemplateTrace.Json.NumberText
