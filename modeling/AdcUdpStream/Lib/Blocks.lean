import Mathlib.Data.List.Basic
import Mathlib.Tactic.Ring

/-!
# Cutting a stream into blocks

`fill n pend xs` pushes the elements of `xs` into a buffer of `n` cells that
already holds `pend`, and hands the buffer out each time it is full: the full
blocks in order, and what the buffer holds at the end. Nothing is lost or
reordered (`fill_flatten`), and every block has `n` elements
(`fill_block_length`). `placed` lays blocks out at consecutive addresses.
-/

namespace Blocks

variable {α : Type*} {n : Nat}

/-- The full blocks of `pend ++ xs`, and the rest. -/
def fill (n : Nat) : List α → List α → List (List α) × List α
  | pend, [] => ([], pend)
  | pend, x :: xs =>
    if pend.length + 1 < n then fill n (pend ++ [x]) xs
    else ((pend ++ [x]) :: (fill n [] xs).1, (fill n [] xs).2)

@[simp] theorem fill_nil (pend : List α) : fill n pend [] = ([], pend) := rfl

theorem fill_cons_lt {pend : List α} (x : α) (xs : List α) (h : pend.length + 1 < n) :
    fill n pend (x :: xs) = fill n (pend ++ [x]) xs := by rw [fill, if_pos h]

theorem fill_cons_full {pend : List α} (x : α) (xs : List α) (h : ¬ pend.length + 1 < n) :
    fill n pend (x :: xs) = ((pend ++ [x]) :: (fill n [] xs).1, (fill n [] xs).2) := by
  rw [fill, if_neg h]

theorem fill_flatten (pend xs : List α) :
    (fill n pend xs).1.flatten ++ (fill n pend xs).2 = pend ++ xs := by
  induction xs generalizing pend with
  | nil => simp
  | cons x xs ih =>
    by_cases h : pend.length + 1 < n
    · rw [fill_cons_lt _ _ h, ih, List.append_assoc, List.singleton_append]
    · rw [fill_cons_full _ _ h]
      simp only [List.flatten_cons, List.append_assoc, ih]
      simp

theorem fill_block_length {pend : List α} (hp : pend.length < n) (xs : List α) :
    ∀ b ∈ (fill n pend xs).1, b.length = n := by
  induction xs generalizing pend with
  | nil => simp
  | cons x xs ih =>
    by_cases h : pend.length + 1 < n
    · rw [fill_cons_lt _ _ h]
      exact ih (by simpa using h)
    · rw [fill_cons_full _ _ h]
      intro b hb
      rcases List.mem_cons.mp hb with rfl | hb
      · simp; omega
      · exact ih (by simp; omega) b hb

theorem flatten_length {bs : List (List α)} (h : ∀ b ∈ bs, b.length = n) :
    bs.flatten.length = n * bs.length := by
  induction bs with
  | nil => simp
  | cons b bs ih =>
    have hb := h b (List.mem_cons_self ..)
    have := ih fun c hc => h c (List.mem_cons_of_mem _ hc)
    simp only [List.flatten_cons, List.length_append, hb, this, List.length_cons]
    ring

theorem fill_count {pend : List α} (hp : pend.length < n) (xs : List α) :
    n * (fill n pend xs).1.length + (fill n pend xs).2.length = pend.length + xs.length := by
  have h := congrArg List.length (fill_flatten (n := n) pend xs)
  rwa [List.length_append, List.length_append, flatten_length (fill_block_length hp xs)] at h

theorem fill_rest_lt {pend : List α} (hp : pend.length < n) (xs : List α) :
    (fill n pend xs).2.length < n := by
  induction xs generalizing pend with
  | nil => exact hp
  | cons x xs ih =>
    by_cases h : pend.length + 1 < n
    · rw [fill_cons_lt _ _ h]
      exact ih (by simpa using h)
    · rw [fill_cons_full _ _ h]
      exact ih (by simp; omega)

/-- From an empty buffer the blocks are the longest prefix of whole blocks. -/
theorem fill_whole (hn : 0 < n) (xs : List α) :
    (fill n [] xs).1.length = xs.length / n ∧
      (fill n [] xs).1.flatten = xs.take (n * (xs.length / n)) := by
  have hflat := fill_flatten (n := n) [] xs
  have hp : ([] : List α).length < n := hn
  have hcount := fill_count hp xs
  have hrest := fill_rest_lt hp xs
  have hlen := flatten_length (fill_block_length hp xs)
  rw [List.length_nil, Nat.zero_add] at hcount
  have hdiv : (fill n [] xs).1.length = xs.length / n := by
    rw [← hcount, Nat.mul_add_div hn, Nat.div_eq_of_lt hrest, Nat.add_zero]
  refine ⟨hdiv, ?_⟩
  have htake := congrArg (List.take (fill n [] xs).1.flatten.length) hflat
  rwa [List.take_left, List.nil_append, hlen, hdiv] at htake

/-! ## Blocks at consecutive addresses -/

/-- The blocks paired with the addresses `a`, `a + n`, `a + 2 n`, … -/
def placed (n : Nat) : Nat → List (List α) → List (Nat × List α)
  | _, [] => []
  | a, b :: bs => (a, b) :: placed n (a + n) bs

@[simp] theorem placed_nil (a : Nat) : placed n a ([] : List (List α)) = [] := rfl

@[simp] theorem placed_cons (a : Nat) (b : List α) (bs : List (List α)) :
    placed n a (b :: bs) = (a, b) :: placed n (a + n) bs := rfl

theorem placed_append (a : Nat) (bs cs : List (List α)) :
    placed n a (bs ++ cs) = placed n a bs ++ placed n (a + n * bs.length) cs := by
  induction bs generalizing a with
  | nil => simp
  | cons b bs ih =>
    simp only [List.cons_append, placed_cons, ih, List.length_cons]
    rw [show a + n + n * bs.length = a + n * (bs.length + 1) by ring]

theorem mem_placed {a i : Nat} {bs : List (List α)} (h : i < bs.length) :
    (a + n * i, bs[i]) ∈ placed n a bs := by
  induction bs generalizing a i with
  | nil => exact absurd h (Nat.not_lt_zero i)
  | cons b bs ih =>
    rw [placed_cons]
    cases i with
    | zero => exact List.mem_cons_self ..
    | succ i =>
      have := ih (a := a + n) (Nat.lt_of_succ_lt_succ h)
      rw [show a + n + n * i = a + n * (i + 1) by ring] at this
      exact List.mem_cons_of_mem _ this

end Blocks
