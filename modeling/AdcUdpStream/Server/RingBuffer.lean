import AdcUdpStream.Lib.DropOldest
import AdcUdpStream.Lib.PowTwo
import AdcUdpStream.Lib.Steps

/-!
# The ring buffer (`ringbuffer.c`)

`size_t` has `w` bits and wraps; the buffer size is a power of two. `Holds` ties
the indices and the bytes between them to a bounded queue, and every operation
keeps it: the ring buffer is the drop-oldest queue of one byte less than its size
(`ring_buffer_drops_oldest`).
-/

namespace AdcUdpStream.Server

open DropOldest Steps

variable {w : Nat}

/-! ## The functions -/

/-- `ring_buffer_t`. The memory at `buffer` is indexed by a `size_t`. -/
structure RingBuffer (w : Nat) where
  buffer : BitVec w → UInt8
  bufferMask : BitVec w
  tailIndex : BitVec w
  headIndex : BitVec w

def ringBufferInit (buf : BitVec w → UInt8) (bufSize : BitVec w) : RingBuffer w where
  buffer := buf
  bufferMask := bufSize - 1
  tailIndex := 0
  headIndex := 0

def ringBufferIsEmpty (rb : RingBuffer w) : Bool := rb.headIndex == rb.tailIndex

def ringBufferIsFull (rb : RingBuffer w) : Bool :=
  (rb.headIndex - rb.tailIndex) &&& rb.bufferMask == rb.bufferMask

def ringBufferNumItems (rb : RingBuffer w) : BitVec w :=
  (rb.headIndex - rb.tailIndex) &&& rb.bufferMask

def ringBufferQueue (rb : RingBuffer w) (data : UInt8) : RingBuffer w :=
  let rb :=
    if ringBufferIsFull rb then
      -- the oldest byte is going to be overwritten
      { rb with tailIndex := (rb.tailIndex + 1) &&& rb.bufferMask }
    else rb
  { rb with
    buffer := fun i => if i = rb.headIndex then data else rb.buffer i
    headIndex := (rb.headIndex + 1) &&& rb.bufferMask }

/-- `data` is the `size` bytes at the pointer. -/
def ringBufferQueueArr (rb : RingBuffer w) (data : List UInt8) : RingBuffer w :=
  data.foldl ringBufferQueue rb

/-- `none` is the return value 0; nothing is stored then. -/
def ringBufferDequeue (rb : RingBuffer w) : RingBuffer w × Option UInt8 :=
  if ringBufferIsEmpty rb then (rb, none)
  else
    ({ rb with tailIndex := (rb.tailIndex + 1) &&& rb.bufferMask }, some (rb.buffer rb.tailIndex))

/-- The loop of `ring_buffer_dequeue_arr` while `cnt` is `n` below `len`: the counter and the bytes
stored. -/
def dequeueLoop : Nat → RingBuffer w → BitVec w → RingBuffer w × BitVec w × List UInt8
  | 0, rb, cnt => (rb, cnt, [])
  | n + 1, rb, cnt =>
    match ringBufferDequeue rb with
    | (rb, none) => (rb, cnt, [])
    | (rb, some x) =>
      let r := dequeueLoop n rb (cnt + 1)
      (r.1, r.2.1, x :: r.2.2)

def ringBufferDequeueArr (rb : RingBuffer w) (len : BitVec w) :
    RingBuffer w × BitVec w × List UInt8 :=
  if ringBufferIsEmpty rb then (rb, 0, []) else dequeueLoop len.toNat rb 0

def ringBufferPeek (rb : RingBuffer w) (index : BitVec w) : Option UInt8 :=
  if ringBufferNumItems rb ≤ index then none
  else some (rb.buffer ((rb.tailIndex + index) &&& rb.bufferMask))

/-! ## Calls -/

/-- The calls a user makes after `ring_buffer_init`. -/
inductive RingCall (w : Nat) where
  | queue (data : UInt8)
  | queueArr (data : List UInt8)
  | dequeue
  | dequeueArr (len : BitVec w)
  | peek (index : BitVec w)
  | isEmpty
  | isFull
  | numItems

def ringStep (rb : RingBuffer w) : RingCall w → RingBuffer w × Answer UInt8
  | .queue data => (ringBufferQueue rb data, .done)
  | .queueArr data => (ringBufferQueueArr rb data, .done)
  | .dequeue => ((ringBufferDequeue rb).1, .one (ringBufferDequeue rb).2)
  | .dequeueArr len =>
    ((ringBufferDequeueArr rb len).1,
      .many (ringBufferDequeueArr rb len).2.1.toNat (ringBufferDequeueArr rb len).2.2)
  | .peek index => (rb, .one (ringBufferPeek rb index))
  | .isEmpty => (rb, .flag (ringBufferIsEmpty rb))
  | .isFull => (rb, .flag (ringBufferIsFull rb))
  | .numItems => (rb, .count (ringBufferNumItems rb).toNat)

def RingCall.op : RingCall w → Op UInt8
  | .queue data => .push data
  | .queueArr data => .pushAll data
  | .dequeue => .pop
  | .dequeueArr len => .popMany len.toNat
  | .peek index => .peek index.toNat
  | .isEmpty => .isEmpty
  | .isFull => .isFull
  | .numItems => .size

/-! ## The ring buffer holds a queue -/

/-- The buffer holds `q` from the tail on; one slot stays free. -/
structure Holds (size : PowTwo w) (rb : RingBuffer w) (q : Queue UInt8 (size.val - 1)) : Prop where
  mask : rb.bufferMask.toNat = size.val - 1
  tail : rb.tailIndex.toNat < size.val
  head : rb.headIndex.toNat = (rb.tailIndex.toNat + q.items.length) % size.val
  items : ∀ i (h : i < q.items.length) (j : BitVec w),
    j.toNat = (rb.tailIndex.toNat + i) % size.val → rb.buffer j = q.items[i]

section Holds

variable {size : PowTwo w} {rb : RingBuffer w} {q : Queue UInt8 (size.val - 1)}

theorem Holds.length_lt (_h : Holds size rb q) : q.items.length < size.val := by
  have := q.bound
  have := size.two_le
  omega

theorem Holds.numItems (h : Holds size rb q) :
    (ringBufferNumItems rb).toNat = q.items.length :=
  size.toNat_sub_mask h.mask h.length_lt h.head

theorem Holds.isFull (h : Holds size rb q) :
    ringBufferIsFull rb = (q.items.length == size.val - 1) := by
  rw [← h.numItems, ← h.mask, ringBufferIsFull, Bool.eq_iff_iff, beq_iff_eq, beq_iff_eq]
  exact BitVec.toNat_inj.symm

theorem Holds.isEmpty (h : Holds size rb q) : ringBufferIsEmpty rb = q.items.isEmpty := by
  have hlt := h.length_lt
  have hiff : rb.headIndex = rb.tailIndex ↔ q.items = [] := by
    rw [← BitVec.toNat_inj, h.head]
    constructor
    · intro heq
      have hzero : (rb.tailIndex.toNat + q.items.length) % size.val =
          (rb.tailIndex.toNat + 0) % size.val := by
        rw [heq, Nat.add_zero, Nat.mod_eq_of_lt h.tail]
      exact List.eq_nil_of_length_eq_zero (size.add_mod_inj hlt (by omega) hzero)
    · intro hnil
      rw [hnil, List.length_nil, Nat.add_zero, Nat.mod_eq_of_lt h.tail]
  rw [ringBufferIsEmpty, Bool.eq_iff_iff, beq_iff_eq, hiff, List.isEmpty_iff]

theorem Holds.buffer_tail (h : Holds size rb q) (hne : 0 < q.items.length) :
    rb.buffer rb.tailIndex = q.items[0] :=
  h.items 0 hne _ (Nat.mod_eq_of_lt h.tail).symm

theorem Holds.advance (h : Holds size rb q) (hne : 0 < q.items.length) :
    Holds size { rb with tailIndex := (rb.tailIndex + 1) &&& rb.bufferMask } (q.drop 1) := by
  have hpos : 0 < size.val := by
    have := size.two_le
    omega
  have htail : ((rb.tailIndex + 1) &&& rb.bufferMask).toNat =
      (rb.tailIndex.toNat + 1) % size.val := size.toNat_succ_mask h.mask _
  have hitems : (q.drop 1).items = q.items.drop 1 := rfl
  refine ⟨h.mask, ?_, ?_, ?_⟩
  · dsimp only
    rw [htail]
    exact Nat.mod_lt _ hpos
  · dsimp only
    rw [htail, h.head, hitems, List.length_drop, Nat.mod_add_mod]
    congr 1
    omega
  · intro i hi j hj
    rw [hitems, List.length_drop] at hi
    dsimp only at hj ⊢
    rw [htail, Nat.mod_add_mod, Nat.add_assoc, Nat.add_comm 1 i] at hj
    rw [h.items (i + 1) (by omega) j hj]
    simp only [hitems, List.getElem_drop, Nat.add_comm 1 i]

theorem Holds.store (h : Holds size rb q) (hroom : q.items.length < size.val - 1) (data : UInt8) :
    Holds size { rb with
      buffer := fun i => if i = rb.headIndex then data else rb.buffer i
      headIndex := (rb.headIndex + 1) &&& rb.bufferMask } (q.push data) := by
  have hitems := Queue.push_of_lt hroom data
  refine ⟨h.mask, h.tail, ?_, ?_⟩
  · dsimp only
    rw [size.toNat_succ_mask h.mask, h.head, hitems, List.length_append,
      List.length_singleton, Nat.mod_add_mod, Nat.add_assoc]
  · intro i hi j hj
    rw [hitems, List.length_append, List.length_singleton] at hi
    dsimp only at hj ⊢
    by_cases hlast : i = q.items.length
    · subst hlast
      rw [if_pos (BitVec.eq_of_toNat_eq (hj.trans h.head.symm))]
      simp only [hitems, List.getElem_concat_length]
    · have hlt : i < q.items.length := by omega
      have hne : j ≠ rb.headIndex := by
        intro heq
        rw [heq, h.head] at hj
        exact hlast (size.add_mod_inj (by omega) h.length_lt hj.symm)
      rw [if_neg hne, h.items i hlt j hj]
      simp only [hitems, List.getElem_append_left hlt]

theorem Holds.queue (h : Holds size rb q) (data : UInt8) :
    Holds size (ringBufferQueue rb data) (q.push data) := by
  unfold ringBufferQueue
  rw [h.isFull]
  by_cases hfull : q.items.length = size.val - 1
  · -- full: the oldest byte goes first
    have htwo := size.two_le
    have hdrop := h.advance (by omega)
    have hsame : q.push data = (q.drop 1).push data := by
      apply Queue.ext
      have hroom : (q.drop 1).items.length < size.val - 1 := by
        show (q.items.drop 1).length < _
        rw [List.length_drop]
        omega
      rw [Queue.push_of_full hfull (by omega), Queue.push_of_lt hroom]
      rfl
    rw [if_pos (beq_iff_eq.mpr hfull), hsame]
    apply hdrop.store
    show (q.items.drop 1).length < _
    rw [List.length_drop]
    omega
  · rw [if_neg (by simpa using hfull)]
    have := q.bound
    exact h.store (by omega) data

theorem Holds.queueArr (h : Holds size rb q) (data : List UInt8) :
    Holds size (ringBufferQueueArr rb data) (q.pushAll data) := by
  rw [← Queue.foldl_push]
  unfold ringBufferQueueArr
  induction data generalizing rb q with
  | nil => exact h
  | cons x data ih => exact ih (h.queue x)

theorem Holds.dequeue (h : Holds size rb q) :
    (ringBufferDequeue rb).2 = q.items.head? ∧ Holds size (ringBufferDequeue rb).1 (q.drop 1) := by
  unfold ringBufferDequeue
  rw [h.isEmpty]
  by_cases hnil : q.items = []
  · have hsame : q.drop 1 = q := by
      apply Queue.ext
      show q.items.drop 1 = q.items
      rw [hnil]
      rfl
    rw [if_pos (List.isEmpty_iff.mpr hnil), hsame, hnil]
    exact ⟨rfl, h⟩
  · have hpos := List.length_pos_iff.mpr hnil
    rw [if_neg (by simpa using hnil)]
    refine ⟨?_, h.advance hpos⟩
    rw [List.head?_eq_getElem?, List.getElem?_eq_getElem hpos]
    exact congrArg some (h.buffer_tail hpos)

theorem Holds.loop (h : Holds size rb q) (n : Nat) (cnt : BitVec w)
    (hcnt : cnt.toNat + q.items.length < 2 ^ w) :
    (dequeueLoop n rb cnt).2.1.toNat = cnt.toNat + min n q.items.length ∧
      (dequeueLoop n rb cnt).2.2 = q.items.take n ∧
      Holds size (dequeueLoop n rb cnt).1 (q.drop n) := by
  induction n generalizing rb q cnt with
  | zero =>
    rw [Nat.zero_min]
    exact ⟨rfl, rfl, h⟩
  | succ n ih =>
    obtain ⟨hret, hnext⟩ := h.dequeue
    unfold dequeueLoop
    generalize ringBufferDequeue rb = r at hret hnext ⊢
    obtain ⟨rb', ret⟩ := r
    dsimp only at hret hnext
    subst hret
    have hdrop : (q.drop 1).drop n = q.drop (n + 1) := by
      apply Queue.ext
      show (q.items.drop 1).drop n = q.items.drop (n + 1)
      rw [List.drop_drop, Nat.add_comm]
    cases hq : q.items with
    | nil =>
      have hsame : q.drop (n + 1) = q.drop 1 := by
        apply Queue.ext
        show q.items.drop (n + 1) = q.items.drop 1
        rw [hq]
        rfl
      rw [hsame]
      exact ⟨by simp, rfl, hnext⟩
    | cons x xs =>
      have hxs : (q.drop 1).items = xs := by
        show q.items.drop 1 = xs
        rw [hq]
        rfl
      rw [hq, List.length_cons] at hcnt
      have hsucc : (cnt + 1).toNat = cnt.toNat + 1 := by
        rw [BitVec.toNat_add, size.toNat_one, Nat.mod_eq_of_lt (by omega)]
      obtain ⟨hc, hb, hn⟩ := ih hnext (cnt + 1) (by rw [hsucc, hxs]; omega)
      rw [hxs] at hc hb
      rw [hdrop] at hn
      refine ⟨?_, ?_, hn⟩
      · show (dequeueLoop n rb' (cnt + 1)).2.1.toNat = _
        rw [hc, hsucc, List.length_cons]
        omega
      · show x :: (dequeueLoop n rb' (cnt + 1)).2.2 = _
        rw [hb, List.take_succ_cons]

theorem Holds.dequeueArr (h : Holds size rb q) (len : BitVec w) :
    (ringBufferDequeueArr rb len).2.1.toNat = min len.toNat q.items.length ∧
      (ringBufferDequeueArr rb len).2.2 = q.items.take len.toNat ∧
      Holds size (ringBufferDequeueArr rb len).1 (q.drop len.toNat) := by
  unfold ringBufferDequeueArr
  rw [h.isEmpty]
  by_cases hnil : q.items = []
  · have hsame : q.drop len.toNat = q := by
      apply Queue.ext
      show q.items.drop len.toNat = q.items
      rw [hnil, List.drop_nil]
    rw [if_pos (List.isEmpty_iff.mpr hnil), hsame, hnil]
    exact ⟨by simp, by simp, h⟩
  · rw [if_neg (by simpa using hnil)]
    have hlt := h.length_lt
    have hval := size.val_lt
    have := h.loop len.toNat 0 (by simp; omega)
    simpa using this

theorem Holds.peek (h : Holds size rb q) (index : BitVec w) :
    ringBufferPeek rb index = q.items[index.toNat]? := by
  unfold ringBufferPeek
  have hiff : ringBufferNumItems rb ≤ index ↔ q.items.length ≤ index.toNat := by
    rw [BitVec.le_def, h.numItems]
  by_cases hle : q.items.length ≤ index.toNat
  · rw [if_pos (hiff.mpr hle), List.getElem?_eq_none hle]
  · have hlt := Nat.lt_of_not_le hle
    rw [if_neg (fun hc => hle (hiff.mp hc)), List.getElem?_eq_getElem hlt]
    exact congrArg some (h.items _ hlt _ (size.toNat_add_mask h.mask _ _))

/-- **Every call does to the ring buffer what its operation does to the queue.** -/
theorem Holds.step (h : Holds size rb q) (call : RingCall w) :
    (ringStep rb call).2 = (DropOldest.step q call.op).2 ∧
      Holds size (ringStep rb call).1 (DropOldest.step q call.op).1 := by
  cases call with
  | queue data => exact ⟨rfl, h.queue data⟩
  | queueArr data => exact ⟨rfl, h.queueArr data⟩
  | dequeue =>
    obtain ⟨hret, hnext⟩ := h.dequeue
    exact ⟨congrArg Answer.one hret, hnext⟩
  | dequeueArr len =>
    obtain ⟨hcnt, hbytes, hnext⟩ := h.dequeueArr len
    refine ⟨?_, hnext⟩
    show Answer.many _ _ = Answer.many _ _
    rw [hcnt, hbytes]
  | peek index => exact ⟨congrArg Answer.one (h.peek index), h⟩
  | isEmpty => exact ⟨congrArg Answer.flag h.isEmpty, h⟩
  | isFull => exact ⟨congrArg Answer.flag h.isFull, h⟩
  | numItems => exact ⟨congrArg Answer.count h.numItems, h⟩

end Holds

theorem holds_init (size : PowTwo w) (buf : BitVec w → UInt8) :
    Holds size (ringBufferInit buf size.word) Queue.empty where
  mask := size.toNat_word_sub_one
  tail := by
    have := size.two_le
    show (0 : BitVec w).toNat < size.val
    simp only [BitVec.ofNat_eq_ofNat, BitVec.toNat_ofNat, Nat.zero_mod]
    omega
  head := by simp [ringBufferInit, Queue.empty]
  items := fun i h => absurd h (Nat.not_lt_zero i)

/-- **The ring buffer is a drop-oldest queue.** For every buffer size and every sequence of calls
after `ring_buffer_init`: all values and bytes returned are those of the list of at most one byte
less, and both indices stay below the size. -/
theorem ring_buffer_drops_oldest (w : Nat) (size : PowTwo w) (buf : BitVec w → UInt8)
    (calls : List (RingCall w)) :
    outs ringStep (ringBufferInit buf size.word) calls =
        outs (fun q call => DropOldest.step q call.op)
          (Queue.empty : Queue UInt8 (size.val - 1)) calls ∧
      (final ringStep (ringBufferInit buf size.word) calls).headIndex.toNat < size.val ∧
      (final ringStep (ringBufferInit buf size.word) calls).tailIndex.toNat < size.val := by
  have hstep : ∀ rb (q : Queue UInt8 (size.val - 1)) (call : RingCall w), Holds size rb q →
      (ringStep rb call).2 = (DropOldest.step q call.op).2 ∧
        Holds size (ringStep rb call).1 (DropOldest.step q call.op).1 :=
    fun _ _ call h => h.step call
  obtain ⟨houts, hholds⟩ := outs_sim hstep (holds_init size buf) calls
  refine ⟨houts, ?_, hholds.tail⟩
  rw [hholds.head]
  apply Nat.mod_lt
  have := size.two_le
  omega

/-- Eight bytes: the eighth byte queued pushes out the first. -/
example : outs ringStep (ringBufferInit (fun _ => 0) (PowTwo.mk 3 (by decide) (by decide)).word)
    [RingCall.queueArr [1, 2, 3, 4, 5, 6, 7, 8], .numItems, .peek 0,
      .dequeueArr (100 : BitVec 32)] =
      [.done, .count 7, .one (some 2), .many 7 [2, 3, 4, 5, 6, 7, 8]] := by
  decide

end AdcUdpStream.Server
