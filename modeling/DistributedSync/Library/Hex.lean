import Mathlib.Data.List.Basic

/-!
# Bytes as hexadecimal digits

Every byte is written as two lower-case digits.  The reader takes digits of both cases and skips blanks between two
bytes, so different texts may stand for the same bytes; what is written reads back as the bytes it was written from
(`decode_encode`).
-/

namespace Hex

def alphabet : List Char := ['0', '1', '2', '3', '4', '5', '6', '7', '8', '9', 'a', 'b', 'c', 'd', 'e', 'f']

def digit (n : Nat) : Char := alphabet.getD n '0'

/-- The value of a digit. -/
def value? (c : Char) : Option Nat :=
  if 48 ≤ c.toNat ∧ c.toNat ≤ 57 then some (c.toNat - 48)
  else if 97 ≤ c.toNat ∧ c.toNat ≤ 102 then some (c.toNat - 87)
  else if 65 ≤ c.toNat ∧ c.toNat ≤ 70 then some (c.toNat - 55)
  else none

/-- The blanks of the ASCII characters. -/
def isBlank (c : Char) : Bool := (9 ≤ c.toNat ∧ c.toNat ≤ 13) ∨ c.toNat = 32

def encodeByte (b : UInt8) : List Char := [digit (b.toNat / 16), digit (b.toNat % 16)]

def encode (bytes : List UInt8) : List Char := bytes.flatMap encodeByte

def decode : List Char → Option (List UInt8)
  | [] => some []
  | [c] => if isBlank c then some [] else none
  | c :: d :: cs =>
    if isBlank c then decode (d :: cs)
    else (value? c).bind fun high => (value? d).bind fun low =>
      (decode cs).map fun bytes => UInt8.ofNat (16 * high + low) :: bytes

private theorem digit_mem (n : Nat) : digit n ∈ alphabet := by
  unfold digit
  rw [List.getD_eq_getElem?_getD]
  rcases Nat.lt_or_ge n alphabet.length with h | h
  · rw [List.getElem?_eq_getElem h, Option.getD_some]
    exact List.getElem_mem h
  · rw [List.getElem?_eq_none h, Option.getD_none]
    decide

theorem mem_encode {bytes : List UInt8} {c : Char} (h : c ∈ encode bytes) : c ∈ alphabet := by
  obtain ⟨b, -, hc⟩ := List.mem_flatMap.1 h
  simp only [encodeByte, List.mem_cons, List.not_mem_nil, or_false] at hc
  rcases hc with rfl | rfl
  · exact digit_mem _
  · exact digit_mem _

/-- A digit is read back. -/
theorem value?_digit {n : Nat} (h : n < 16) : value? (digit n) = some n := by
  have hall : ∀ i : Fin 16, value? (digit i) = some i.1 := by decide
  exact hall ⟨n, h⟩

private theorem isBlank_digit (n : Nat) : isBlank (digit n) = false := by
  have hall : alphabet.all (fun c => !isBlank c) = true := rfl
  simpa using List.all_eq_true.1 hall _ (digit_mem n)

theorem decode_encode (bytes : List UInt8) : decode (encode bytes) = some bytes := by
  induction bytes with
  | nil => rfl
  | cons b bytes ih =>
    have hhigh : b.toNat / 16 < 16 := by
      have := b.toNat_lt
      omega
    have hlow : b.toNat % 16 < 16 := Nat.mod_lt _ (by decide)
    have hbyte : UInt8.ofNat (16 * (b.toNat / 16) + b.toNat % 16) = b := by
      rw [Nat.div_add_mod]
      exact UInt8.ofNat_toNat
    have hcons : encode (b :: bytes) = digit (b.toNat / 16) :: digit (b.toNat % 16) :: encode bytes := rfl
    rw [hcons, decode, isBlank_digit, value?_digit hhigh, value?_digit hlow, ih]
    simp only [Bool.false_eq_true, if_false, Option.bind_some, Option.map_some, hbyte]

end Hex
