import AdcUdpStream.Lib.BigEndian
import Mathlib.Data.Nat.Digits.Defs

/-!
# Words with the low byte first

`put16` and `put32` write a word, `get16` and `get32` read one at a position. What was
written there is read (`get16_put16`, `get32_put32`), and the bytes of a word are the
digits of its value (`value16`, `value32`).
-/

namespace LittleEndian

def put16 (x : UInt16) : List UInt8 := [x.toUInt8, (x >>> 8).toUInt8]

def put32 (x : UInt32) : List UInt8 := put16 x.toUInt16 ++ put16 (x >>> 16).toUInt16

def get16 (m : List UInt8) (i : Nat) : UInt16 := BigEndian.word (m.getD (i + 1) 0) (m.getD i 0)

def get32 (m : List UInt8) (i : Nat) : UInt32 :=
  (get16 m (i + 2)).toUInt32 <<< 16 ||| (get16 m i).toUInt32

theorem get16_put16 (x : UInt16) (m : List UInt8) : get16 (put16 x ++ m) 0 = x :=
  BigEndian.word_bytes x

theorem get16_append (pre m : List UInt8) (i : Nat) :
    get16 (pre ++ m) (pre.length + i) = get16 m i := by
  rw [get16, get16, List.getD_append_right _ _ _ _ (by omega),
    List.getD_append_right _ _ _ _ (by omega), Nat.add_assoc, Nat.add_sub_cancel_left,
    Nat.add_sub_cancel_left]

theorem get16_set {m : List UInt8} {i j : Nat} (b : UInt8) (h : i ≠ j) (h' : i ≠ j + 1) :
    get16 (m.set i b) j = get16 m j := by
  rw [get16, get16, List.getD_eq_getElem?_getD, List.getD_eq_getElem?_getD,
    List.getElem?_set_ne h, List.getElem?_set_ne h', ← List.getD_eq_getElem?_getD,
    ← List.getD_eq_getElem?_getD]

theorem high_toNat (x : UInt32) : (x >>> 16).toUInt16.toNat = x.toNat / 65536 := by
  have hx := x.toNat_lt
  rw [UInt32.toNat_toUInt16, UInt32.toNat_shiftRight]
  show x.toNat >>> 16 % 2 ^ 16 = _
  rw [Nat.shiftRight_eq_div_pow]
  omega

theorem join (x : UInt32) :
    (x >>> 16).toUInt16.toUInt32 <<< 16 ||| x.toUInt16.toUInt32 = x := by
  have hx := x.toNat_lt
  apply UInt32.toNat_inj.mp
  rw [UInt32.toNat_or, UInt32.toNat_shiftLeft, UInt16.toNat_toUInt32, UInt16.toNat_toUInt32,
    high_toNat, UInt32.toNat_toUInt16]
  show (x.toNat / 65536) <<< 16 % 2 ^ 32 ||| x.toNat % 2 ^ 16 = _
  rw [Nat.mod_eq_of_lt (by rw [Nat.shiftLeft_eq]; omega),
    ← Nat.shiftLeft_add_eq_or_of_lt (Nat.mod_lt _ (by omega)), Nat.shiftLeft_eq]
  omega

theorem get32_put32 (x : UInt32) (m : List UInt8) : get32 (put32 x ++ m) 0 = x := by
  show (BigEndian.word _ _).toUInt32 <<< 16 ||| (BigEndian.word _ _).toUInt32 = x
  refine Eq.trans ?_ (join x)
  congr 2
  · exact congrArg UInt16.toUInt32 (BigEndian.word_bytes _)
  · exact BigEndian.word_bytes _

theorem value16 (x : UInt16) : Nat.ofDigits 256 ((put16 x).map UInt8.toNat) = x.toNat := by
  have h := BigEndian.word_toNat (x >>> 8).toUInt8 x.toUInt8
  rw [BigEndian.word_bytes] at h
  rw [h, put16, List.map_cons, List.map_cons, List.map_nil, Nat.ofDigits_cons,
    Nat.ofDigits_singleton]
  omega

theorem value32 (x : UInt32) : Nat.ofDigits 256 ((put32 x).map UInt8.toNat) = x.toNat := by
  have hx := x.toNat_lt
  rw [put32, List.map_append, Nat.ofDigits_append, value16, value16, high_toNat,
    UInt32.toNat_toUInt16]
  show x.toNat % 2 ^ 16 + 256 ^ 2 * (x.toNat / 65536) = x.toNat
  omega

end LittleEndian
