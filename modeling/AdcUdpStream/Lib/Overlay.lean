import Mathlib.Data.List.Basic

/-!
# Writing byte strings into a memory

`overlay f m a bs` writes the list `bs` into the memory `m` from address `a` on;
a cell that held `x` and is written with `y` holds `f x y` afterwards, so a cell
that can only be changed in part (flash) is covered as well. A write changes
nothing around it (`overlay_of_not_mem`), and two writes, the second right
behind the first, are one (`overlay_append`).
-/

namespace Overlay

variable {β : Type*} {f : β → β → β} {m m' : Nat → β}

/-- `m` with `bs` written from address `a` on. -/
def overlay (f : β → β → β) (m : Nat → β) (a : Nat) (bs : List β) (x : Nat) : β :=
  if a ≤ x then
    match bs[x - a]? with
    | some y => f (m x) y
    | none => m x
  else m x

theorem overlay_below {a x : Nat} {bs : List β} (h : x < a) : overlay f m a bs x = m x := by
  rw [overlay, if_neg (by omega)]

theorem overlay_above {a x : Nat} {bs : List β} (h : a + bs.length ≤ x) :
    overlay f m a bs x = m x := by
  unfold overlay
  split
  · rw [List.getElem?_eq_none (by omega)]
  · rfl

theorem overlay_of_not_mem {a x : Nat} {bs : List β} (h : ¬ (a ≤ x ∧ x < a + bs.length)) :
    overlay f m a bs x = m x := by
  by_cases hx : x < a
  · exact overlay_below hx
  · exact overlay_above (by omega)

theorem overlay_at {a i : Nat} {bs : List β} {y : β} (h : bs[i]? = some y) :
    overlay f m a bs (a + i) = f (m (a + i)) y := by
  rw [overlay, if_pos (by omega), Nat.add_sub_cancel_left, h]

theorem overlay_congr {a x : Nat} {bs : List β} (h : m x = m' x) :
    overlay f m a bs x = overlay f m' a bs x := by
  simp only [overlay, h]

theorem overlay_append (a : Nat) (bs cs : List β) :
    overlay f (overlay f m a bs) (a + bs.length) cs = overlay f m a (bs ++ cs) := by
  funext x
  by_cases hb : x < a + bs.length
  · rw [overlay_below hb]
    unfold overlay
    split
    · rw [List.getElem?_append_left (by omega)]
    · rfl
  · have hm : overlay f m a bs x = m x := overlay_above (by omega)
    rw [overlay_congr hm]
    unfold overlay
    rw [if_pos (by omega), if_pos (by omega), List.getElem?_append_right (by omega), Nat.sub_add_eq]

@[simp] theorem overlay_nil (a : Nat) : overlay f m a [] = m := by
  funext x
  simp [overlay]

end Overlay
