import Mathlib.Data.Nat.ModEq
import Mathlib.Data.List.Nodup
import Mathlib.Data.List.Perm.Subperm

/-!
# Rings of slots

An array `a` of `n` slots, and positions that wrap from `n - 1` to `0`. `slot n h i`
is the position `i` steps behind `h`; `window a n h k` are the contents of the `k`
slots from `h` on. A window grows at its end (`window_snoc`) and shrinks at its
front (`window_pop`), and as long as it does not hold all `n` slots the two
positions at its ends determine its length (`fill_slot`).
-/

namespace Ring

universe u

variable {α : Type u} {n h k i j : Nat}

def next (n i : Nat) : Nat := if n ≤ i + 1 then 0 else i + 1

/-- The position `i` steps behind `h`. -/
def slot (n h i : Nat) : Nat := (h + i) % n

/-- The number of steps from `c` to `p`. -/
def fill (n p c : Nat) : Nat := if c = p then 0 else if p < c then n - c + p else p - c

/-- The contents of the `k` slots from `h` on. -/
def window (a : Nat → α) (n h k : Nat) : List α := (List.range k).map fun i => a (slot n h i)

/-! ## Positions -/

theorem next_lt (hn : 0 < n) : next n i < n := by
  unfold next
  split <;> omega

theorem next_eq (hi : i < n) : next n i = (i + 1) % n := by
  unfold next
  split
  · rw [show i + 1 = n by omega, Nat.mod_self]
  · rw [Nat.mod_eq_of_lt (by omega)]

theorem slot_lt (hn : 0 < n) : slot n h i < n := Nat.mod_lt _ hn

theorem slot_zero (hh : h < n) : slot n h 0 = h := Nat.mod_eq_of_lt hh

theorem next_slot (hn : 0 < n) : next n (slot n h i) = slot n h (i + 1) := by
  rw [next_eq (slot_lt hn), slot, slot, Nat.mod_add_mod, Nat.add_assoc]

theorem slot_next (hh : h < n) : slot n (next n h) i = slot n h (i + 1) := by
  rw [next_eq hh, slot, slot, Nat.mod_add_mod, Nat.add_assoc, Nat.add_comm 1]

theorem slot_slot : slot n (slot n h i) j = slot n h (i + j) := by
  rw [slot, slot, slot, Nat.mod_add_mod, Nat.add_assoc]

/-- **Fewer than `n` steps lead to different slots.** -/
theorem slot_inj (hi : i < n) (hj : j < n) (h' : slot n h i = slot n h j) : i = j :=
  Nat.ModEq.eq_of_lt_of_lt (Nat.ModEq.add_left_cancel' h h') hi hj

theorem slot_self : slot n h n = slot n h 0 := Nat.add_mod_right h n

theorem fill_self : fill n h h = 0 := if_pos rfl

theorem fill_lt (hh : h < n) (hk : k < n) : fill n k h < n := by
  unfold fill
  split
  · omega
  · split <;> omega

theorem slot_fill (hh : h < n) (hk : k < n) : slot n h (fill n k h) = k := by
  unfold fill slot
  split
  · next he => rw [Nat.add_zero, Nat.mod_eq_of_lt hh, he]
  · split
    · rw [show h + (n - h + k) = k + n by omega, Nat.add_mod_right, Nat.mod_eq_of_lt hk]
    · rw [show h + (k - h) = k by omega, Nat.mod_eq_of_lt hk]

theorem fill_slot (hh : h < n) (hk : k < n) : fill n (slot n h k) h = k :=
  slot_inj (h := h) (fill_lt hh (slot_lt (by omega))) hk (slot_fill hh (slot_lt (by omega)))

/-! ## Windows -/

variable (a : Nat → α)

@[simp] theorem window_zero : window a n h 0 = [] := rfl

@[simp] theorem window_length : (window a n h k).length = k := by simp [window]

theorem window_snoc : window a n h (k + 1) = window a n h k ++ [a (slot n h k)] := by
  simp [window, List.range_succ]

theorem window_add : window a n h (k + j) = window a n h k ++ window a n (slot n h k) j := by
  induction j with
  | zero => simp
  | succ j ih =>
    rw [← Nat.add_assoc, window_snoc, ih, window_snoc, slot_slot, List.append_assoc]

theorem window_pop (hh : h < n) : window a n h (k + 1) = a h :: window a n (next n h) k := by
  rw [Nat.add_comm, window_add, slot, window_snoc, slot_zero hh, next_eq hh]
  rfl

theorem mem_window {x : α} : x ∈ window a n h k ↔ ∃ i < k, a (slot n h i) = x := by
  simp [window]

variable {a} {b : Nat → α}

theorem window_congr (hab : ∀ i < k, a (slot n h i) = b (slot n h i)) :
    window a n h k = window b n h k :=
  List.map_congr_left fun i hi => hab i (List.mem_range.mp hi)

theorem window_update_behind (hk : k ≤ j) (hj : j < n) (x : α) :
    window (Function.update a (slot n h j) x) n h k = window a n h k := by
  apply window_congr
  intro i hi
  apply Function.update_of_ne
  intro he
  have := slot_inj (by omega) hj he
  omega

/-- **Push**: a store right behind the window is its new end. -/
theorem window_push (hk : k < n) (x : α) :
    window (Function.update a (slot n h k) x) n h (k + 1) = window a n h k ++ [x] := by
  rw [window_snoc, window_update_behind (Nat.le_refl k) hk, Function.update_self]

/-- A window over the whole ring is the array, from another slot on. -/
theorem window_perm (a : Nat → α) (hn : 0 < n) : (window a n h n).Perm ((List.range n).map a) := by
  have hnodup : ((List.range n).map (slot n h)).Nodup :=
    List.Nodup.map_on (fun i hi j hj he =>
      slot_inj (List.mem_range.mp hi) (List.mem_range.mp hj) he) List.nodup_range
  have hsub : (List.range n).map (slot n h) ⊆ List.range n := by
    intro x hx
    obtain ⟨i, -, rfl⟩ := List.mem_map.mp hx
    exact List.mem_range.mpr (slot_lt hn)
  have hperm : ((List.range n).map (slot n h)).Perm (List.range n) :=
    (List.subperm_of_subset hnodup hsub).perm_of_length_le (by simp)
  have := hperm.map a
  rwa [List.map_map] at this

end Ring
