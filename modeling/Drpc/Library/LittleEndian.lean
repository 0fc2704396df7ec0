import Mathlib.Algebra.Group.Nat.Defs
import Mathlib.Tactic.Common
import Mathlib.Data.List.Basic

/-! # Little-endian 32-bit words -/

namespace LittleEndian

/-- The four bytes of a 32-bit word, least significant first; higher bits are
dropped, as in a conversion to `uint32_t`. -/
def encode (value : Nat) : List UInt8 :=
  [UInt8.ofNat value, UInt8.ofNat (value / 2 ^ 8), UInt8.ofNat (value / 2 ^ 16),
    UInt8.ofNat (value / 2 ^ 24)]

/-- The word held by the first four bytes. -/
def decode : List UInt8 → Nat
  | a :: b :: c :: d :: _ =>
      a.toNat + 2 ^ 8 * b.toNat + 2 ^ 16 * c.toNat + 2 ^ 24 * d.toNat
  | _ => 0

@[simp] theorem length_encode (value : Nat) : (encode value).length = 4 := rfl

/-- Reading back a word that fits, whatever follows it. -/
theorem decode_encode_append {value : Nat} (fits : value < 2 ^ 32) (rest : List UInt8) :
    decode (encode value ++ rest) = value := by
  simp only [encode, List.cons_append, List.nil_append, decode, UInt8.toNat_ofNat']
  omega

@[simp] theorem decode_encode {value : Nat} (fits : value < 2 ^ 32) :
    decode (encode value) = value := by
  simpa using decode_encode_append fits []

/-- Only the first four bytes are read. -/
theorem decode_append {bytes : List UInt8} (enough : 4 ≤ bytes.length) (rest : List UInt8) :
    decode (bytes ++ rest) = decode bytes := by
  match bytes, enough with
  | _ :: _ :: _ :: _ :: _, _ => rfl

end LittleEndian
