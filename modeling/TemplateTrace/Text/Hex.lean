set_option autoImplicit false

/-!
# Hexadecimal digits

Lower-case hexadecimal text of numbers and of bytes, and reading bytes back.  Character escapes,
frame ids and byte strings in requests all use these.  `value?_digit` says that a written digit
reads back as its value.
-/

namespace TemplateTrace.Text.Hex

/-- The lower-case digit of a value below sixteen; larger values wrap. -/
def digit (n : Nat) : Char :=
  let d := n % 16
  if d < 10 then Char.ofNat (48 + d) else Char.ofNat (87 + d)

/-- The value of a hexadecimal digit of either case. -/
def value? (c : Char) : Option Nat :=
  if '0' ≤ c ∧ c ≤ '9' then some (c.toNat - 48)
  else if 'a' ≤ c ∧ c ≤ 'f' then some (c.toNat - 87)
  else if 'A' ≤ c ∧ c ≤ 'F' then some (c.toNat - 55)
  else none

theorem value?_digit (n : Nat) (h : n < 16) : value? (digit n) = some n := by
  have cases : ∀ d : Fin 16, value? (digit d.val) = some d.val := by decide
  exact cases ⟨n, h⟩

/-- The digits of a number, most significant first, with no leading zero. -/
def ofNat (n : Nat) : List Char :=
  Nat.toDigits 16 n

/-- The two digits of a byte. -/
def ofByte (b : UInt8) : List Char :=
  [digit (b.toNat / 16), digit b.toNat]

/-- The digits of a byte string, two for each byte. -/
def ofBytes (bytes : List UInt8) : String :=
  String.ofList (bytes.flatMap ofByte)

/-- Reads pairs of digits; `none` for an odd count or another character. -/
def bytes? : List Char → Option (List UInt8)
  | [] => some []
  | [_] => none
  | a :: b :: rest => do
      let high ← value? a
      let low ← value? b
      let tail ← bytes? rest
      return UInt8.ofNat (16 * high + low) :: tail

theorem bytes?_ofByte (b : UInt8) (rest : List Char) :
    bytes? (ofByte b ++ rest) = (bytes? rest).map (b :: ·) := by
  have hb : b.toNat < 256 := b.toNat_lt
  have high : value? (digit (b.toNat / 16)) = some (b.toNat / 16) :=
    value?_digit _ (by omega)
  have low : value? (digit b.toNat) = some (b.toNat % 16) := by
    have : digit b.toNat = digit (b.toNat % 16) := by simp [digit]
    rw [this]
    exact value?_digit _ (by omega)
  have whole : 16 * (b.toNat / 16) + b.toNat % 16 = b.toNat := by omega
  simp only [ofByte, List.cons_append, List.nil_append, bytes?, high, low, whole, bind,
    Option.bind]
  cases bytes? rest <;> simp

end TemplateTrace.Text.Hex
