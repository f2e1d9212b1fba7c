import Mathlib

/-!
# Indices masked by a power of two

A `PowTwo w` is a power of two from 2 on that a word of `w` bits holds. Masking
with one less is the remainder (`toNat_mask`), also of sums and differences that
wrap around the word (`toNat_add_mask`, `toNat_sub_mask`).
-/

/-- A power of two from 2 on that a word of `w` bits holds. -/
structure PowTwo (w : Nat) where
  log : Nat
  pos : 0 < log
  lt : log < w

namespace PowTwo

variable {w : Nat} (p : PowTwo w)

def val : Nat := 2 ^ p.log

theorem two_le : 2 ≤ p.val := by
  have := Nat.pow_le_pow_right (show 0 < 2 by decide) p.pos
  exact this

theorem val_lt : p.val < 2 ^ w := Nat.pow_lt_pow_right (by decide) p.lt

theorem val_dvd : p.val ∣ 2 ^ w := Nat.pow_dvd_pow 2 (Nat.le_of_lt p.lt)

def word : BitVec w := BitVec.ofNat w p.val

include p in
theorem toNat_one : (1 : BitVec w).toNat = 1 := by
  have hlt := p.val_lt
  have htwo := p.two_le
  have hw : 1 < 2 ^ w := by omega
  rw [BitVec.ofNat_eq_ofNat, BitVec.toNat_ofNat, Nat.mod_eq_of_lt hw]

theorem toNat_word_sub_one : (p.word - 1).toNat = p.val - 1 := by
  have htwo := p.two_le
  have hword : p.word.toNat = p.val := by rw [word, BitVec.toNat_ofNat, Nat.mod_eq_of_lt p.val_lt]
  rw [BitVec.toNat_sub_of_le (by rw [BitVec.le_def, p.toNat_one, hword]; omega), p.toNat_one, hword]

section Mask

variable {mask : BitVec w} (h : mask.toNat = p.val - 1)
include h

theorem toNat_mask (x : BitVec w) : (x &&& mask).toNat = x.toNat % p.val := by
  rw [BitVec.toNat_and, h, val, Nat.and_two_pow_sub_one_eq_mod]

theorem toNat_add_mask (x y : BitVec w) :
    ((x + y) &&& mask).toNat = (x.toNat + y.toNat) % p.val := by
  rw [p.toNat_mask h, BitVec.toNat_add, Nat.mod_mod_of_dvd _ p.val_dvd]

theorem toNat_succ_mask (x : BitVec w) : ((x + 1) &&& mask).toNat = (x.toNat + 1) % p.val := by
  rw [p.toNat_add_mask h, p.toNat_one]

theorem toNat_sub_mask {x y : BitVec w} {n : Nat} (hn : n < p.val)
    (hx : x.toNat = (y.toNat + n) % p.val) : ((x - y) &&& mask).toNat = n := by
  have hadd := congrArg (fun z => z.toNat % p.val) (BitVec.sub_add_cancel x y)
  simp only [BitVec.toNat_add, Nat.mod_mod_of_dvd _ p.val_dvd] at hadd
  rw [hx, Nat.mod_mod, Nat.add_comm y.toNat] at hadd
  have hcancel : (x - y).toNat ≡ n [MOD p.val] := Nat.ModEq.add_right_cancel' _ hadd
  rw [p.toNat_mask h, hcancel, Nat.mod_eq_of_lt hn]

end Mask

theorem add_mod_inj {a i j : Nat} (hi : i < p.val) (hj : j < p.val)
    (h : (a + i) % p.val = (a + j) % p.val) : i = j := by
  have hcancel : i ≡ j [MOD p.val] := Nat.ModEq.add_left_cancel' a h
  rwa [Nat.ModEq, Nat.mod_eq_of_lt hi, Nat.mod_eq_of_lt hj] at hcancel

end PowTwo
