import Mathlib.Data.Fintype.Fin
import Mathlib.Data.List.FinRange

/-!
# Slots with keys

A table has a fixed number of slots. A slot in use holds an entry with a key, and no two
of them have the same one (`Distinct`). What such a table says about a key is its
`view`; a slot that is written changes the view of the new key, ends the view of the key
that was there (`Distinct.view_update_other`), and leaves all others.
-/

namespace Slots

/-- How the entries of a table are read. -/
structure Reading (α κ : Type*) where
  used : α → Bool
  key : α → κ

variable {n : ℕ} {α κ : Type*} (r : Reading α κ)

def Reading.Has (a : α) (k : κ) : Prop := r.used a = true ∧ r.key a = k

def Distinct (t : Fin n → α) : Prop := ∀ i j k, r.Has (t i) k → r.Has (t j) k → i = j

section Keep

variable {r} {t t' : Fin n → α} {i : Fin n} {a : α}

/-- **Writing a slot** keeps the keys apart if no other slot has the new one. -/
theorem Distinct.update (ht : Distinct r t)
    (ha : ∀ k, r.Has a k → ∀ j, j ≠ i → ¬r.Has (t j) k) :
    Distinct r (Function.update t i a) := by
  intro x y k hx hy
  by_cases hxi : x = i
  · by_cases hyi : y = i
    · rw [hxi, hyi]
    · rw [hxi, Function.update_self] at hx
      rw [Function.update_of_ne hyi] at hy
      exact absurd hy (ha k hx y hyi)
  · rw [Function.update_of_ne hxi] at hx
    by_cases hyi : y = i
    · rw [hyi, Function.update_self] at hy
      exact absurd hx (ha k hy x hxi)
    · rw [Function.update_of_ne hyi] at hy
      exact ht x y k hx hy

/-- **Every slot may be changed in place**, as long as it keeps its key or is no longer used. -/
theorem Distinct.of_has (ht : Distinct r t) (h : ∀ j k, r.Has (t' j) k → r.Has (t j) k) :
    Distinct r t' := fun x y k hx hy => ht x y k (h x k hx) (h y k hy)

end Keep

/-! ## Views -/

variable [DecidableEq κ]

instance (a : α) (k : κ) : Decidable (r.Has a k) := inferInstanceAs (Decidable (_ ∧ _))

/-- The first slot with an entry for `k`. -/
def find (t : Fin n → α) (k : κ) : Option (Fin n) :=
  (List.finRange n).find? fun i => r.Has (t i) k

def view (t : Fin n → α) (k : κ) : Option α := (find r t k).map t

variable {r} {t t' : Fin n → α} {k : κ} {i : Fin n} {a : α}

theorem find_some (h : find r t k = some i) : r.Has (t i) k := by
  simpa using List.find?_some h

theorem find_none (h : find r t k = none) (j : Fin n) : ¬r.Has (t j) k := by
  simpa using List.find?_eq_none.mp h j (List.mem_finRange j)

theorem view_none (h : ∀ j, ¬r.Has (t j) k) : view r t k = none := by
  have hfind : find r t k = none := List.find?_eq_none.mpr fun j _ => by simpa using h j
  rw [view, hfind, Option.map_none]

theorem view_of_find (h : find r t k = some i) : view r t k = some (t i) := by
  rw [view, h, Option.map_some]

theorem view_some (h : view r t k = some a) : ∃ i, t i = a ∧ r.Has (t i) k := by
  obtain ⟨i, hi, rfl⟩ := Option.map_eq_some_iff.mp h
  exact ⟨i, rfl, find_some hi⟩

theorem not_has_of_view (h : view r t k = none) (j : Fin n) : ¬r.Has (t j) k :=
  find_none (Option.map_eq_none_iff.mp h) j

namespace Distinct

theorem view_eq (ht : Distinct r t) (h : r.Has (t i) k) : view r t k = some (t i) := by
  cases hf : find r t k with
  | none => exact absurd h (find_none hf i)
  | some j => rw [view_of_find hf, ht j i k (find_some hf) h]

theorem view_update_self (ht' : Distinct r (Function.update t i a)) (ha : r.Has a k) :
    view r (Function.update t i a) k = some a := by
  have hup : Function.update t i a i = a := Function.update_self i a t
  rw [ht'.view_eq (i := i) (by rwa [hup]), hup]

/-- Any other key: the view is what it was, or it ended because it was in the slot. -/
theorem view_update_other (ht : Distinct r t) (ht' : Distinct r (Function.update t i a))
    (ha : ¬r.Has a k) :
    view r (Function.update t i a) k = if r.Has (t i) k then none else view r t k := by
  have hself : Function.update t i a i = a := Function.update_self i a t
  have hother : ∀ j, j ≠ i → Function.update t i a j = t j := fun j hj =>
    Function.update_of_ne hj a t
  split
  · next h =>
    refine view_none fun j hj => ?_
    by_cases hji : j = i
    · exact ha (by rwa [hji, hself] at hj)
    · exact hji (ht j i k (by rwa [hother j hji] at hj) h)
  · next h =>
    cases hv : view r t k with
    | none =>
      refine view_none fun j hj => ?_
      by_cases hji : j = i
      · exact ha (by rwa [hji, hself] at hj)
      · exact not_has_of_view hv j (by rwa [hother j hji] at hj)
    | some b =>
      obtain ⟨j, rfl, hj⟩ := view_some hv
      have hji : j ≠ i := fun hji => h (hji ▸ hj)
      rw [ht'.view_eq (i := j) (by rwa [hother j hji]), hother j hji]

theorem view_of_has (ht : Distinct r t) (h : ∀ j k, r.Has (t' j) k → r.Has (t j) k)
    (hi : r.Has (t i) k) : view r t' k = if r.Has (t' i) k then some (t' i) else none := by
  split
  · next h' => exact (ht.of_has h).view_eq h'
  · next h' =>
    refine view_none fun j hj => h' ?_
    rwa [← ht j i k (h j k hj) hi]

end Distinct

end Slots
