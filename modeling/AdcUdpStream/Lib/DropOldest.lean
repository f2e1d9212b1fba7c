import Mathlib.Data.List.DropRight

/-!
# A bounded queue that drops its oldest elements

A `Queue` is a list, oldest first, with at most `cap` elements. What is appended
to a full queue pushes out the elements at the front: a queue holds the newest
`cap` of what went in (`List.rtake`). Appending an array is appending its
elements one by one (`foldl_push`).
-/

namespace DropOldest

variable {α : Type*} {cap : Nat}

theorem rtake_length_le (n : Nat) (l : List α) : (l.rtake n).length ≤ n := by
  rw [List.rtake, List.length_drop]
  omega

theorem rtake_of_length_le {n : Nat} {l : List α} (h : l.length ≤ n) : l.rtake n = l := by
  rw [List.rtake, Nat.sub_eq_zero_of_le h, List.drop_zero]

theorem rtake_rtake_append (n : Nat) (l r : List α) :
    (l.rtake n ++ r).rtake n = (l ++ r).rtake n := by
  simp only [List.rtake_eq_reverse_take_reverse, List.reverse_append, List.reverse_reverse,
    List.take_append, List.take_take]
  rw [Nat.min_eq_left (Nat.sub_le _ _)]

/-- At most `cap` elements, oldest first. -/
@[ext] structure Queue (α : Type*) (cap : Nat) where
  items : List α
  bound : items.length ≤ cap

namespace Queue

def empty : Queue α cap := ⟨[], Nat.zero_le _⟩

def pushAll (q : Queue α cap) (xs : List α) : Queue α cap :=
  ⟨(q.items ++ xs).rtake cap, rtake_length_le _ _⟩

def push (q : Queue α cap) (x : α) : Queue α cap := q.pushAll [x]

def drop (q : Queue α cap) (n : Nat) : Queue α cap :=
  ⟨q.items.drop n, Nat.le_trans (List.drop_sublist n q.items).length_le q.bound⟩

theorem push_of_lt {q : Queue α cap} (h : q.items.length < cap) (x : α) :
    (q.push x).items = q.items ++ [x] := by
  apply rtake_of_length_le
  rw [List.length_append, List.length_singleton]
  omega

theorem push_of_full {q : Queue α cap} (h : q.items.length = cap) (h0 : 0 < cap) (x : α) :
    (q.push x).items = q.items.drop 1 ++ [x] := by
  show (q.items ++ [x]).rtake cap = _
  rw [List.rtake, List.length_append, List.length_singleton, h, Nat.add_sub_cancel_left,
    List.drop_append_of_le_length (by omega)]

/-- **Appending one by one is appending at once.** -/
theorem foldl_push (q : Queue α cap) (xs : List α) : xs.foldl push q = q.pushAll xs := by
  induction xs generalizing q with
  | nil =>
    apply Queue.ext
    show q.items = (q.items ++ []).rtake cap
    rw [List.append_nil, rtake_of_length_le q.bound]
  | cons x xs ih =>
    rw [List.foldl_cons, ih]
    apply Queue.ext
    show ((q.items ++ [x]).rtake cap ++ xs).rtake cap = (q.items ++ x :: xs).rtake cap
    rw [rtake_rtake_append, List.append_assoc, List.singleton_append]

end Queue

/-! ## The queue as a machine -/

inductive Op (α : Type*) where
  | push (x : α)
  | pushAll (xs : List α)
  | pop
  | popMany (n : Nat)
  | peek (i : Nat)
  | isEmpty
  | isFull
  | size

inductive Answer (α : Type*) where
  | done
  | one (x : Option α)
  | many (n : Nat) (xs : List α)
  | flag (b : Bool)
  | count (n : Nat)
  deriving DecidableEq

def step (q : Queue α cap) : Op α → Queue α cap × Answer α
  | .push x => (q.push x, .done)
  | .pushAll xs => (q.pushAll xs, .done)
  | .pop => (q.drop 1, .one q.items.head?)
  | .popMany n => (q.drop n, .many (min n q.items.length) (q.items.take n))
  | .peek i => (q, .one q.items[i]?)
  | .isEmpty => (q, .flag q.items.isEmpty)
  | .isFull => (q, .flag (q.items.length == cap))
  | .size => (q, .count q.items.length)

end DropOldest
