import TemplateTrace.Decimal.Reading
import TemplateTrace.Decimal.Shortest
set_option autoImplicit false

/-!
# The text of JSON numbers

Taking a number off the front of a text, and writing one.  A text that starts like a number but
breaks off is given back from the place where it does, because the wording of the fault depends on
whether anything stands there.  `numeral_rest_length` says that a number takes at least one
character.
-/

namespace TemplateTrace.Json.NumberText

open TemplateTrace.Decimal

/-! ## Reading -/

/-- The digits at the front of a text, as values, and what follows them. -/
def digits (cs : List Char) : List Nat × List Char :=
  ((cs.takeWhile Char.isDigit).map fun c => c.toNat - 48, cs.dropWhile Char.isDigit)

/-- One digit at least; the error is the place where it is missing. -/
def someDigits (cs : List Char) : Except (List Char) (List Nat × List Char) :=
  match digits cs with
  | ([], _) => .error cs
  | (d :: ds, rest) => .ok (d :: ds, rest)

/-- The digits before a point: a zero stands alone. -/
def whole (cs : List Char) : Except (List Char) (List Nat × List Char) :=
  match someDigits cs with
  | .ok (0 :: _ :: _, _) => .error cs
  | result => result

/-- The digits after a point, if there is a point. -/
def fraction : List Char → Except (List Char) (Option (List Nat) × List Char)
  | '.' :: cs => (someDigits cs).map fun (ds, rest) => (some ds, rest)
  | cs => .ok (none, cs)

/-- The sign of a power of ten, and what follows it. -/
def powerSign : List Char → Bool × List Char
  | '+' :: cs => (false, cs)
  | '-' :: cs => (true, cs)
  | cs => (false, cs)

/-- The power of ten after an exponent mark, if there is a mark. -/
def power : List Char → Except (List Char) (Option Int × List Char)
  | [] => .ok (none, [])
  | c :: cs =>
      if c = 'e' ∨ c = 'E' then
        let (negative, cs) := powerSign cs
        (someDigits cs).map fun (ds, rest) =>
          let n : Int := ofDigits ds
          (some (if negative then -n else n), rest)
      else .ok (none, c :: cs)

/-- The sign of a number, and what follows it. -/
def sign : List Char → Bool × List Char
  | '-' :: cs => (true, cs)
  | cs => (false, cs)

/-- The number at the front of a text and what follows it; the error is the place where the text
stops being a number. -/
def numeral (cs : List Char) : Except (List Char) (Numeral × List Char) := do
  let (negative, cs) := sign cs
  let (wholeDigits, cs) ← whole cs
  let (fractionDigits, cs) ← fraction cs
  let (exponent, cs) ← power cs
  return (⟨negative, wholeDigits, fractionDigits, exponent⟩, cs)

/-! ## A number takes at least one character -/

theorem someDigits_rest_length {cs rest : List Char} {ds : List Nat}
    (h : someDigits cs = .ok (ds, rest)) : rest.length < cs.length := by
  unfold someDigits digits at h
  cases cs with
  | nil => simp at h
  | cons c cs =>
    by_cases isDigit : c.isDigit = true
    · simp only [List.takeWhile_cons, isDigit, if_true, List.map_cons, List.dropWhile_cons,
        Except.ok.injEq, Prod.mk.injEq] at h
      have : (cs.dropWhile Char.isDigit).length ≤ cs.length :=
        (List.dropWhile_sublist Char.isDigit).length_le
      simp only [← h.2, List.length_cons]
      omega
    · simp [isDigit] at h

theorem whole_rest_length {cs rest : List Char} {ds : List Nat} (h : whole cs = .ok (ds, rest)) :
    rest.length < cs.length := by
  unfold whole at h
  split at h
  · simp at h
  · exact someDigits_rest_length h

theorem fraction_rest_length {cs rest : List Char} {ds : Option (List Nat)}
    (h : fraction cs = .ok (ds, rest)) : rest.length ≤ cs.length := by
  unfold fraction at h
  split at h
  · next cs =>
    cases found : someDigits cs with
    | error e => simp [found, Except.map] at h
    | ok p =>
      have : p.2.length < cs.length := someDigits_rest_length found
      simp only [found, Except.map, Except.ok.injEq, Prod.mk.injEq] at h
      simp only [← h.2, List.length_cons]
      omega
  · simp only [Except.ok.injEq, Prod.mk.injEq] at h
    simp [h.2]

theorem powerSign_rest_length (cs : List Char) : (powerSign cs).2.length ≤ cs.length := by
  unfold powerSign
  split <;> simp

theorem power_rest_length {cs rest : List Char} {n : Option Int} (h : power cs = .ok (n, rest)) :
    rest.length ≤ cs.length := by
  unfold power at h
  split at h
  · simp only [Except.ok.injEq, Prod.mk.injEq] at h
    simp [← h.2]
  · next c cs =>
    split at h
    · have signed := powerSign_rest_length cs
      cases found : someDigits (powerSign cs).2 with
      | error e => simp [found, Except.map] at h
      | ok p =>
        have : p.2.length < (powerSign cs).2.length := someDigits_rest_length found
        simp only [found, Except.map, Except.ok.injEq, Prod.mk.injEq] at h
        simp only [← h.2, List.length_cons]
        omega
    · simp only [Except.ok.injEq, Prod.mk.injEq] at h
      simp [h.2]

theorem sign_rest_length (cs : List Char) : (sign cs).2.length ≤ cs.length := by
  unfold sign
  split <;> simp

/-- A number takes at least one character. -/
theorem numeral_rest_length {cs rest : List Char} {t : Numeral}
    (h : numeral cs = .ok (t, rest)) : rest.length < cs.length := by
  have signed := sign_rest_length cs
  simp only [numeral, bind, Except.bind] at h
  split at h
  · simp at h
  · next p hw =>
    have : p.2.length < (sign cs).2.length := whole_rest_length hw
    split at h
    · simp at h
    · next q hf =>
      have : q.2.length ≤ p.2.length := fraction_rest_length hf
      split at h
      · simp at h
      · next r hp =>
        have : r.2.length ≤ q.2.length := power_rest_length hp
        simp only [pure, Except.pure, Except.ok.injEq, Prod.mk.injEq] at h
        rw [← h.2]
        omega

/-! ## Writing -/

/-- The text of a number: integers in decimal, floats as the trace layout says, and `null` for a
float that is not finite. -/
def render : Number → String
  | .integer n => toString n
  | .float x => (Layout.trace.float? x).getD "null"

end TemplateTrace.Json.NumberText
