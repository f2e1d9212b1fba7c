import Mathlib.Data.UInt
import Mathlib.Data.Nat.Bitwise

/-!
# Words with the high byte first

`bytes` writes a 16-bit word as two bytes, `words` reads a byte string two bytes at a
time: words that were written are read again (`words_flatMap_append`). What two bytes
that were not written so are read as says `word_toNat`.
-/

namespace BigEndian

def word (hi lo : UInt8) : UInt16 := hi.toUInt16 <<< 8 ||| lo.toUInt16

def bytes (x : UInt16) : List UInt8 := [(x >>> 8).toUInt8, x.toUInt8]

/-- The words of a byte string; an odd byte at the end is left out. -/
def words : List UInt8 → List UInt16
  | hi :: lo :: bs => word hi lo :: words bs
  | _ => []

theorem word_toNat (hi lo : UInt8) : (word hi lo).toNat = 256 * hi.toNat + lo.toNat := by
  have hhi := hi.toNat_lt
  have hlo := lo.toNat_lt
  have hor : (hi.toNat <<< 8 ||| lo.toNat) = hi.toNat <<< 8 + lo.toNat :=
    (Nat.shiftLeft_add_eq_or_of_lt (by omega) hi.toNat).symm
  have hlt : hi.toNat <<< 8 < 2 ^ 16 := by
    rw [Nat.shiftLeft_eq]
    omega
  unfold word
  rw [UInt16.toNat_or, UInt16.toNat_shiftLeft, UInt8.toNat_toUInt16, UInt8.toNat_toUInt16]
  show hi.toNat <<< 8 % 2 ^ 16 ||| lo.toNat = _
  rw [Nat.mod_eq_of_lt hlt, hor, Nat.shiftLeft_eq]
  omega

theorem word_bytes (x : UInt16) : word (x >>> 8).toUInt8 x.toUInt8 = x := by
  have hx := x.toNat_lt
  apply UInt16.toNat_inj.mp
  have hhi : (x >>> 8).toNat = x.toNat / 256 := by
    rw [UInt16.toNat_shiftRight]
    show x.toNat >>> 8 = _
    rw [Nat.shiftRight_eq_div_pow]
  rw [word_toNat, UInt16.toNat_toUInt8, UInt16.toNat_toUInt8, hhi]
  omega

/-- **Words that were written are read again**, and what follows them as it is. -/
theorem words_flatMap_append (xs : List UInt16) (bs : List UInt8) :
    words (xs.flatMap bytes ++ bs) = xs ++ words bs := by
  induction xs with
  | nil => rfl
  | cons x xs ih =>
    show word (x >>> 8).toUInt8 x.toUInt8 :: words (xs.flatMap bytes ++ bs) = _
    rw [word_bytes, ih]
    rfl

end BigEndian
