import Drpc.Library.Items
import Mathlib.Data.Nat.Log
import Mathlib.Tactic.NormNum

/-! # Numbers in base 128

A number as bytes of seven bits each, least significant first, all but the last with the
high bit set. A writer has room for some number of bytes, and a reader for another: what was
written is read back when it fits in the room of the reader.
-/

namespace Varint

/-- A number in at most `room` bytes. -/
def encode : Nat → Nat → List UInt8
  | 0, _ => []
  | room + 1, value =>
      if value < 128 then [UInt8.ofNat value]
      else UInt8.ofNat (value % 128 + 128) :: encode room (value / 128)

/-- A number of at most `room` bytes, and what follows it. -/
def decode : Nat → List UInt8 → Option (Nat × List UInt8)
  | 0, _ => none
  | _ + 1, [] => none
  | room + 1, byte :: rest =>
      if byte.toNat < 128 then some (byte.toNat, rest)
      else (decode room rest).map (Prod.map (byte.toNat - 128 + 128 * ·) id)

/-- A byte for each seven bits. -/
def size (value : Nat) : Nat := Nat.log2 value / 7 + 1

/-- The byte of a number below 128. -/
theorem toNat_last {value : Nat} (small : value < 128) : (UInt8.ofNat value).toNat = value := by
  simp only [UInt8.toNat_ofNat']
  omega

/-- The byte of the lowest seven bits of another one. -/
theorem toNat_continued (value : Nat) :
    (UInt8.ofNat (value % 128 + 128)).toNat = value % 128 + 128 := by
  simp only [UInt8.toNat_ofNat']
  omega

/-- A number below 128 is one byte. -/
theorem encode_of_lt {room value : Nat} (small : value < 128) :
    encode (room + 1) value = [UInt8.ofNat value] := by
  rw [encode, if_pos small]

/-- Another one goes on behind its lowest seven bits. -/
theorem encode_of_le {room value : Nat} (large : 128 ≤ value) :
    encode (room + 1) value = UInt8.ofNat (value % 128 + 128) :: encode room (value / 128) := by
  rw [encode, if_neg (Nat.not_lt.mpr large)]

/-- A byte without the high bit ends the number. -/
theorem decode_last {byte : UInt8} (last : byte.toNat < 128) (room : Nat) (rest : List UInt8) :
    decode (room + 1) (byte :: rest) = some (byte.toNat, rest) := by
  rw [decode, if_pos last]

/-- A byte with it goes on. -/
theorem decode_continued {byte : UInt8} (more : ¬ byte.toNat < 128) (room : Nat)
    (rest : List UInt8) :
    decode (room + 1) (byte :: rest) =
      (decode room rest).map (Prod.map (byte.toNat - 128 + 128 * ·) id) := by
  rw [decode, if_neg more]

/-- The writer keeps to its room. -/
theorem length_encode_le (room value : Nat) : (encode room value).length ≤ room := by
  induction room generalizing value with
  | zero => simp [encode]
  | succ room ih =>
      unfold encode
      split
      · simp
      · simpa using ih (value / 128)

/-- A number is written in as many bytes as `size` says, when there is room for them. -/
theorem length_encode {room value : Nat} (fits : value < 128 ^ (room + 1)) :
    (encode (room + 1) value).length = size value := by
  have one : ∀ {value : Nat}, value < 128 → size value = 1 := by
    intro value small
    have few : Nat.log2 value < 7 := by
      by_cases zero : value = 0
      · simp [zero]
      · exact (Nat.log2_lt zero).mpr small
    unfold size
    omega
  induction room generalizing value with
  | zero =>
      have small : value < 128 := by simpa using fits
      rw [encode_of_lt small, one small, List.length_singleton]
  | succ room ih =>
      by_cases small : value < 128
      · rw [encode_of_lt small, one small, List.length_singleton]
      · have quotient : value / 128 < 128 ^ (room + 1) := by
          rw [pow_succ] at fits
          exact Nat.div_lt_of_lt_mul (by rwa [Nat.mul_comm] at fits)
        have seven : Nat.log2 (value / 128) = Nat.log2 value - 7 := by
          have halves : value / 128 = value / 2 / 2 / 2 / 2 / 2 / 2 / 2 := by
            simp only [Nat.div_div_eq_div_mul]
          simp only [halves, Nat.log2_eq_log_two, Nat.log_div_base]
          omega
        have many : 7 ≤ Nat.log2 value := by
          rw [Nat.le_log2 (by omega)]
          omega
        rw [encode_of_le (Nat.le_of_not_lt small), List.length_cons, ih quotient, size, size, seven]
        omega

/-- A number says where it ends. -/
theorem decode_delimited (room : Nat) : Items.Delimited (decode room) := by
  constructor
  · intro value bytes rest found more
    induction room generalizing value bytes with
    | zero => cases found
    | succ room ih =>
        cases bytes with
        | nil => cases found
        | cons byte bytes =>
            rw [List.cons_append]
            by_cases last : byte.toNat < 128
            · rw [decode_last last] at found ⊢
              cases found
              rfl
            · rw [decode_continued last] at found ⊢
              obtain ⟨⟨higher, behind⟩, inner, same⟩ := Option.map_eq_some_iff.mp found
              cases same
              rw [ih inner]
              rfl
  · intro value bytes rest found
    induction room generalizing value bytes with
    | zero => cases found
    | succ room ih =>
        cases bytes with
        | nil => cases found
        | cons byte bytes =>
            rw [List.length_cons]
            by_cases last : byte.toNat < 128
            · rw [decode_last last] at found
              cases found
              exact Nat.lt_succ_self _
            · rw [decode_continued last] at found
              obtain ⟨⟨higher, behind⟩, inner, same⟩ := Option.map_eq_some_iff.mp found
              cases same
              exact (ih inner).trans (Nat.lt_succ_self _)

/-- A reader with less room than the writer reads the numbers that fit in its own. -/
theorem decode_encode_append {less room : Nat} (within : less < room) (value : Nat)
    (rest : List UInt8) :
    decode (less + 1) (encode room value ++ rest) =
      if value < 128 ^ (less + 1) then some (value, rest) else none := by
  induction less generalizing room value with
  | zero =>
      obtain ⟨room, rfl⟩ : ∃ more, room = more + 1 := ⟨room - 1, by omega⟩
      by_cases small : value < 128
      · have last : (UInt8.ofNat value).toNat < 128 := by rwa [toNat_last small]
        rw [encode_of_lt small, List.singleton_append, decode_last last, toNat_last small,
          if_pos (by simpa using small)]
      · have byte := toNat_continued value
        rw [encode_of_le (Nat.le_of_not_lt small), List.cons_append,
          decode_continued (by omega), if_neg (by simpa using small)]
        rfl
  | succ less ih =>
      obtain ⟨room, rfl⟩ : ∃ more, room = more + 1 := ⟨room - 1, by omega⟩
      by_cases small : value < 128
      · have last : (UInt8.ofNat value).toNat < 128 := by rwa [toNat_last small]
        have fits : value < 128 ^ (less + 1 + 1) :=
          small.trans_le (Nat.le_self_pow (Nat.succ_ne_zero _) 128)
        rw [encode_of_lt small, List.singleton_append, decode_last last, toNat_last small,
          if_pos fits]
      · have byte := toNat_continued value
        have whole : value % 128 + 128 * (value / 128) = value := Nat.mod_add_div value 128
        have quotient : value / 128 < 128 ^ (less + 1) ↔ value < 128 ^ (less + 1 + 1) := by
          rw [pow_succ 128 (less + 1), Nat.div_lt_iff_lt_mul (by decide)]
        rw [encode_of_le (Nat.le_of_not_lt small), List.cons_append,
          decode_continued (by omega), ih (by omega), byte]
        by_cases fits : value < 128 ^ (less + 1 + 1)
        · simp [fits, quotient.mpr fits, whole]
        · simp [fits, mt quotient.mp fits]

end Varint
