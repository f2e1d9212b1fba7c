import Mathlib.Data.Nat.Digits.Defs
import Mathlib.Data.ZMod.Basic
import Mathlib.Tactic.LinearCombination

/-!
# Sums with an end-around carry

Words of two digits in base `b` are added up and their carries are added again. What
this keeps is the sum in any ring in which `b * b` is one: `fold` keeps a number
(`cast_fold`), `swap` multiplies it by `b` (`cast_swap`), and the words of a string of
digits add up to its value (`cast_wordSum`). A string may be summed in pieces of any
length when every odd piece is followed by a `swap` (`Weighs.append`). A single changed
digit changes the sum (`set_eq_self`).
-/

namespace OnesComplement

open Nat (ofDigits)

/-- The part from `n` on, added to the part below it. -/
def fold (n x : ℕ) : ℕ := x / n + x % n

def swap (b x : ℕ) : ℕ := x % b * b + x / b

/-- The sum of the words of a string of digits, high digit first; an odd digit at the end is the
high one of a word. -/
def wordSum (b : ℕ) : List ℕ → ℕ
  | x :: y :: xs => b * x + y + wordSum b xs
  | [x] => b * x
  | [] => 0

/-! ## Bounds -/

theorem fold_lt {n x : ℕ} (h : x < 2 * n - 1) : fold n x < n := by
  have hn : 0 < n := by omega
  have hdiv := Nat.div_add_mod x n
  have hmod := Nat.mod_lt x hn
  unfold fold
  by_cases hx : x < n
  · rw [Nat.div_eq_of_lt hx]
    omega
  · have hq : x / n = 1 := Nat.div_eq_of_lt_le (by omega) (by omega)
    rw [hq] at hdiv ⊢
    omega

theorem fold_lt_twice {n x : ℕ} (h : x < n * n) : fold n x < 2 * n - 1 := by
  have hn : 0 < n := Nat.pos_of_mul_pos_right (Nat.zero_lt_of_lt h)
  have hdiv : x / n < n := Nat.div_lt_of_lt_mul h
  have hmod := Nat.mod_lt x hn
  unfold fold
  omega

theorem fold_pos {n x : ℕ} (h : 0 < x) : 0 < fold n x := by
  by_contra h0
  obtain ⟨hq, hr⟩ := Nat.add_eq_zero_iff.mp (Nat.eq_zero_of_not_pos h0)
  have hdiv := Nat.div_add_mod x n
  rw [hq, hr, Nat.mul_zero] at hdiv
  omega

theorem fold_of_lt {n x : ℕ} (h : x < n) : fold n x = x := by
  rw [fold, Nat.div_eq_of_lt h, Nat.mod_eq_of_lt h, Nat.zero_add]

theorem swap_lt {b x : ℕ} (h : x < b * b) : swap b x < b * b := by
  have hb : 0 < b := Nat.pos_of_mul_pos_right (Nat.zero_lt_of_lt h)
  have hdiv : x / b < b := Nat.div_lt_of_lt_mul h
  have hmod := Nat.mod_lt x hb
  calc swap b x < x % b * b + b := Nat.add_lt_add_left hdiv _
    _ = (x % b + 1) * b := by ring
    _ ≤ b * b := Nat.mul_le_mul_right b hmod

theorem swap_pos {b x : ℕ} (hb : 0 < b) (h : 0 < x) : 0 < swap b x := by
  by_contra h0
  obtain ⟨hr, hq⟩ := Nat.add_eq_zero_iff.mp (Nat.eq_zero_of_not_pos h0)
  have hdiv := Nat.div_add_mod x b
  rcases Nat.mul_eq_zero.mp hr with hr | hr
  · rw [hq, hr, Nat.mul_zero] at hdiv
    omega
  · omega

theorem wordSum_le {b : ℕ} : ∀ {xs : List ℕ}, (∀ x ∈ xs, x < b) →
    wordSum b xs ≤ (b * b - 1) * ((xs.length + 1) / 2)
  | [], _ => Nat.zero_le _
  | [x], h => by
    have hx := h x (List.mem_singleton_self x)
    have hle : b * x ≤ b * b - 1 := by
      have := Nat.mul_lt_mul_of_pos_left hx (by omega : 0 < b)
      omega
    rw [wordSum, List.length_singleton]
    omega
  | x :: y :: xs, h => by
    have hx := h x (by simp)
    have hy := h y (by simp)
    have ih : wordSum b xs ≤ (b * b - 1) * ((xs.length + 1) / 2) :=
      wordSum_le fun z hz => h z (by simp [hz])
    have hle : b * x + y ≤ b * b - 1 := by
      have := Nat.mul_le_mul_left b hx
      rw [Nat.mul_succ] at this
      omega
    have hlen : ((x :: y :: xs).length + 1) / 2 = (xs.length + 1) / 2 + 1 := by
      rw [List.length_cons, List.length_cons]
      omega
    rw [wordSum, hlen, Nat.mul_succ]
    omega

theorem wordSum_pos {b : ℕ} (hb : 0 < b) : ∀ {xs : List ℕ}, (∃ x ∈ xs, 0 < x) → 0 < wordSum b xs
  | [], h => by
    obtain ⟨x, hx, -⟩ := h
    cases hx
  | [x], h => by
    obtain ⟨z, hz, hpos⟩ := h
    rw [List.mem_singleton.mp hz] at hpos
    exact Nat.mul_pos hb hpos
  | x :: y :: xs, h => by
    obtain ⟨z, hz, hpos⟩ := h
    rw [wordSum]
    rcases List.mem_cons.mp hz with rfl | hz
    · have := Nat.mul_pos hb hpos
      omega
    · rcases List.mem_cons.mp hz with rfl | hz
      · omega
      · have := wordSum_pos hb ⟨z, hz, hpos⟩
        omega

/-! ## Sums -/

section Ring

variable {R : Type*} [CommSemiring R] {b : ℕ}

theorem cast_fold {n : ℕ} (hn : (n : R) = 1) (x : ℕ) : (fold n x : R) = x := by
  conv_rhs => rw [← Nat.div_add_mod x n]
  rw [fold, Nat.cast_add, Nat.cast_add, Nat.cast_mul, hn, one_mul]

variable (hb : (b : R) * b = 1)
include hb

theorem cast_swap (x : ℕ) : (swap b x : R) = b * x := by
  conv_rhs => rw [← Nat.div_add_mod x b]
  rw [swap, Nat.cast_add, Nat.cast_add, Nat.cast_mul, Nat.cast_mul, mul_add, ← mul_assoc, hb,
    one_mul, mul_comm, add_comm]

theorem cast_wordSum : ∀ xs : List ℕ, (wordSum b xs : R) = b * (ofDigits b xs : ℕ)
  | [] => by rw [wordSum, Nat.ofDigits_nil, Nat.cast_zero, mul_zero]
  | [x] => by rw [wordSum, Nat.ofDigits_singleton, Nat.cast_mul]
  | x :: y :: xs => by
    have ih := cast_wordSum xs
    rw [wordSum, Nat.ofDigits_cons, Nat.ofDigits_cons]
    simp only [Nat.cast_add, Nat.cast_mul]
    calc (b * x + y + wordSum b xs : R) = b * x + 1 * y + 1 * wordSum b xs := by ring
      _ = b * x + b * b * y + b * b * (b * (ofDigits b xs : ℕ)) := by rw [hb, ih]
      _ = b * (x + b * (y + b * (ofDigits b xs : ℕ))) := by ring

theorem pow_even {k : ℕ} (hk : k % 2 = 0) : (b : R) ^ k = 1 := by
  rw [← Nat.div_add_mod k 2, hk, add_zero, pow_mul, pow_two, hb, one_pow]

theorem pow_odd {k : ℕ} (hk : k % 2 ≠ 0) : (b : R) ^ k = b := by
  have h1 : k % 2 = 1 := by omega
  rw [← Nat.div_add_mod k 2, h1, pow_succ, pow_mul, pow_two, hb, one_pow, one_mul]

end Ring

/-- `acc` is the sum from `init` on behind the digits of `done`, `b` times as large when their
number is odd. -/
def Weighs {R : Type*} [CommSemiring R] (b : ℕ) (init : R) (done : List ℕ) (acc : ℕ) : Prop :=
  (acc : R) = b ^ done.length * (init + (ofDigits b done : ℕ))

section Weighs

variable {R : Type*} [CommSemiring R] {b acc acc' : ℕ} {init : R} {done xs : List ℕ}

theorem weighs_nil {init : ℕ} : Weighs b (init : R) [] init := by
  rw [Weighs, List.length_nil, pow_zero, one_mul, Nat.ofDigits_nil, Nat.cast_zero, add_zero]

variable (hb : (b : R) * b = 1)
include hb

/-- **One more piece**: its sum is added, and an odd piece swaps. -/
theorem Weighs.append (h : Weighs b init done acc)
    (hacc : (acc' : R) = b ^ xs.length * (acc + (ofDigits b xs : ℕ))) :
    Weighs b init (done ++ xs) acc' := by
  have hsq : (b : R) ^ done.length * b ^ done.length = 1 := by rw [← mul_pow, hb, one_pow]
  rw [Weighs, hacc, h, Nat.ofDigits_append, List.length_append, pow_add]
  simp only [Nat.cast_add, Nat.cast_mul, Nat.cast_pow]
  generalize (b : R) ^ done.length = d at *
  generalize ((ofDigits b done : ℕ) : R) = u
  generalize ((ofDigits b xs : ℕ) : R) = v
  calc (b : R) ^ xs.length * (d * (init + u) + v)
      = b ^ xs.length * (d * (init + u) + d * d * v) := by rw [hsq, one_mul]
    _ = d * b ^ xs.length * (init + (u + d * v)) := by ring

theorem Weighs.even (h : Weighs b init done acc) (hlen : done.length % 2 = 0) :
    (acc : R) = init + (ofDigits b done : ℕ) := by
  rw [h, pow_even hb hlen, one_mul]

theorem Weighs.odd (h : Weighs b init done acc) (hlen : done.length % 2 ≠ 0) :
    (b : R) * acc = init + (ofDigits b done : ℕ) := by
  rw [h, pow_odd hb hlen, ← mul_assoc, hb, one_mul]

end Weighs

/-! ## One digit -/

theorem ofDigits_set (b y : ℕ) : ∀ {xs : List ℕ} {i : ℕ} (h : i < xs.length),
    ofDigits b (xs.set i y) + b ^ i * xs[i] = ofDigits b xs + b ^ i * y
  | x :: xs, 0, _ => by
    rw [List.set_cons_zero, List.getElem_cons_zero, Nat.ofDigits_cons, Nat.ofDigits_cons]
    ring
  | x :: xs, i + 1, h => by
    have ih := ofDigits_set b y (Nat.lt_of_succ_lt_succ h)
    rw [List.set_cons_succ, List.getElem_cons_succ, Nat.ofDigits_cons, Nat.ofDigits_cons]
    linear_combination b * ih

/-- **A digit** cannot be changed without changing the sum. -/
theorem set_eq_self {m b y : ℕ} (hb : (b : ZMod m) * b = 1) (hm : b ≤ m) {xs : List ℕ}
    (hxs : ∀ x ∈ xs, x < b) (hy : y < b) {i : ℕ}
    (h : ((ofDigits b (xs.set i y) : ℕ) : ZMod m) = (ofDigits b xs : ℕ)) : xs.set i y = xs := by
  by_cases hi : i < xs.length
  · have hset := congrArg (Nat.cast : ℕ → ZMod m) (ofDigits_set b y hi)
    simp only [Nat.cast_add, Nat.cast_mul, Nat.cast_pow, h] at hset
    have hpow : (b : ZMod m) ^ i * b ^ i = 1 := by rw [← mul_pow, hb, one_pow]
    have hcast : (xs[i] : ZMod m) = y := by
      have hmul := congrArg ((b : ZMod m) ^ i * ·) (add_left_cancel hset)
      simpa only [← mul_assoc, hpow, one_mul] using hmul
    have hlt := hxs _ (List.getElem_mem hi)
    rw [ZMod.natCast_eq_natCast_iff', Nat.mod_eq_of_lt (by omega : xs[i] < m),
      Nat.mod_eq_of_lt (by omega : y < m)] at hcast
    rw [← hcast, List.set_getElem_self]
  · exact List.set_eq_of_length_le (by omega)

/-! ## Representatives -/

/-- **The complement** of a sum that is not zero is the remainder of its negative. -/
theorem sub_eq_val {m c : ℕ} {s : ZMod m} (hpos : 0 < c) (hle : c ≤ m) (hc : (c : ZMod m) = s) :
    m - c = (-s).val := by
  have hcast : ((m - c : ℕ) : ZMod m) = -s := by
    rw [Nat.cast_sub hle, ZMod.natCast_self, zero_sub, hc]
  rw [← hcast, ZMod.val_natCast, Nat.mod_eq_of_lt (by omega)]

end OnesComplement
