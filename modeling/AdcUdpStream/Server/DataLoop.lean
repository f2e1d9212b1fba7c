import AdcUdpStream.Lib.CStr
import AdcUdpStream.Lib.Steps

/-!
# The data loop (`main.c` of the server)

A pass of `while (freq_flag)` builds one 22-byte frame and appends it to
`send_buffer`. From `total_cnt` bytes on every pass tries to send a datagram of
`total_cnt` bytes; only if `pbuf_alloc` succeeds the fill index goes back to 0.
The outcome of `pbuf_alloc` is an input; `udp_sendto` transmits what it is given.
-/

namespace AdcUdpStream.Server

open Steps

/-! ## The functions -/

/-- 1000 Hz. -/
def totalCnt : Nat := 50 * 22

def sendBufferSize : Nat := 1500

/-- The statics of the loop. `sendBuffer` is RAM from `send_buffer` on, and the array is its first
`sendBufferSize` bytes. Behind it the committed map file has `time_counter`, `freq_flag`,
`upcb_command`, `upcb_data`, `sample_id` and `analog`, which a store past the array overwrites there
and does not touch here: the model is the program up to the first such store. -/
structure DataLoop where
  timeCounter : UInt32 := 0
  freqFlag : UInt8 := 0
  freetime : UInt16 := 0
  sampleId : UInt16 := 0
  timeCounterPrev : UInt32 := 0
  analog : UInt16 := 0
  sendBuffer : Nat → UInt8 := fun _ => 0
  sendCnt : Nat := 0

/-- The 22 bytes of `out_buffer` that are sent. -/
def outBuffer (sampleId analog : UInt16) : List UInt8 :=
  ([0x55, 0x33, (sampleId >>> 8).toUInt8, sampleId.toUInt8] : List UInt8) ++
    (List.range 8).flatMap (fun _ => [(analog >>> 8).toUInt8, analog.toUInt8]) ++
    [(sampleId <<< 2).toUInt8, ((sampleId <<< 2) &&& 0x00ff).toUInt8]

/-- `send_buffer[send_cnt++] = x`. -/
def DataLoop.store (s : DataLoop) (x : UInt8) : DataLoop :=
  { s with
    sendBuffer := fun k => if k = s.sendCnt then x else s.sendBuffer k
    sendCnt := s.sendCnt + 1 }

/-- What a pass does to the outside: the frame it builds, the indices of `send_buffer` it stores
to, what `pbuf_alloc` returned if it was called, and the payload sent. -/
structure Pass where
  frame : List UInt8
  stores : List Nat
  alloc : Option Bool := none
  payload : Option (List UInt8) := none

def Pass.Inside (p : Pass) : Prop := ∀ i ∈ p.stores, i < sendBufferSize

instance (p : Pass) : Decidable p.Inside := inferInstanceAs (Decidable (∀ i ∈ p.stores, _))

def DataLoop.frame (s : DataLoop) : List UInt8 := outBuffer s.sampleId s.analog

/-- The statics when the frame is in `send_buffer`. -/
def DataLoop.fill (s : DataLoop) : DataLoop :=
  let analog := s.analog + 1
  s.frame.foldl DataLoop.store { s with
    analog := if analog > 4095 then 0 else analog
    timeCounterPrev := s.timeCounter
    sampleId := s.sampleId + 1
    freetime := 0 }

/-- The body of the loop behind `freq_flag = 0`. `allocOk` is what `pbuf_alloc` would return. -/
def buildFrame (s : DataLoop) (allocOk : Bool) : DataLoop × Pass :=
  let frame := s.frame
  let stores := List.range' s.sendCnt frame.length
  let s := s.fill
  if s.sendCnt ≥ totalCnt then
    if allocOk then
      ({ s with sendCnt := 0 },
        { frame, stores, alloc := some true,
          payload := some ((List.range totalCnt).map s.sendBuffer) })
    else (s, { frame, stores, alloc := some false })
  else (s, { frame, stores })

/-- One pass of `while (freq_flag)`. -/
def sample (s : DataLoop) (allocOk : Bool) : DataLoop × Pass :=
  buildFrame { s with freqFlag := 0 } allocOk

theorem outBuffer_length (sampleId analog : UInt16) : (outBuffer sampleId analog).length = 22 := rfl

/-! ## The buffer -/

def DataLoop.contents (s : DataLoop) : List UInt8 := (List.range s.sendCnt).map s.sendBuffer

theorem DataLoop.contents_length (s : DataLoop) : s.contents.length = s.sendCnt := by
  rw [contents, List.length_map, List.length_range]

theorem contents_store (s : DataLoop) (x : UInt8) : (s.store x).contents = s.contents ++ [x] := by
  show (List.range (s.sendCnt + 1)).map (s.store x).sendBuffer = _
  rw [List.range_succ, List.map_append, List.map_singleton]
  congr 1
  · apply List.map_congr_left
    intro k hk
    exact if_neg (Nat.ne_of_lt (List.mem_range.mp hk))
  · exact congrArg (fun y => [y]) (if_pos rfl)

theorem contents_foldl (s : DataLoop) (xs : List UInt8) :
    (xs.foldl DataLoop.store s).contents = s.contents ++ xs := by
  induction xs generalizing s with
  | nil => exact (List.append_nil _).symm
  | cons x xs ih =>
    rw [List.foldl_cons, ih, contents_store, List.append_assoc, List.singleton_append]

theorem sendCnt_foldl (s : DataLoop) (xs : List UInt8) :
    (xs.foldl DataLoop.store s).sendCnt = s.sendCnt + xs.length := by
  rw [← DataLoop.contents_length, contents_foldl, List.length_append, DataLoop.contents_length]

theorem frame_length (s : DataLoop) : s.frame.length = 22 := outBuffer_length s.sampleId s.analog

/-- **A pass appends its frame.** -/
theorem contents_fill (s : DataLoop) : s.fill.contents = s.contents ++ s.frame :=
  contents_foldl _ _

theorem sendCnt_fill (s : DataLoop) : s.fill.sendCnt = s.sendCnt + 22 :=
  sendCnt_foldl _ _

theorem foldl_store (s : DataLoop) (xs : List UInt8) :
    ∃ buf cnt, xs.foldl DataLoop.store s = { s with sendBuffer := buf, sendCnt := cnt } := by
  induction xs generalizing s with
  | nil => exact ⟨_, _, rfl⟩
  | cons x xs ih =>
    obtain ⟨buf, cnt, h⟩ := ih (s.store x)
    exact ⟨buf, cnt, by rw [List.foldl_cons, h]; rfl⟩

/-! ## One pass -/

theorem buildFrame_statics (s : DataLoop) (allocOk : Bool) :
    ∃ buf cnt, (buildFrame s allocOk).1 =
      { s with
        analog := if s.analog + 1 > 4095 then 0 else s.analog + 1
        timeCounterPrev := s.timeCounter
        sampleId := s.sampleId + 1
        freetime := 0
        sendBuffer := buf
        sendCnt := cnt } := by
  have hfst : (buildFrame s allocOk).1 = s.fill ∨
      (buildFrame s allocOk).1 = { s.fill with sendCnt := 0 } := by
    unfold buildFrame
    dsimp only
    split
    · split
      · exact .inr rfl
      · exact .inl rfl
    · exact .inl rfl
  obtain ⟨buf, cnt, hfill⟩ := foldl_store { s with
    analog := if s.analog + 1 > 4095 then 0 else s.analog + 1
    timeCounterPrev := s.timeCounter
    sampleId := s.sampleId + 1
    freetime := 0 } s.frame
  have hfill : s.fill = _ := hfill
  rcases hfst with h | h
  · exact ⟨buf, cnt, h.trans hfill⟩
  · exact ⟨buf, 0, by rw [h, hfill]⟩

section Pass

variable {s : DataLoop} {allocOk : Bool}

theorem buildFrame_room (h : s.sendCnt + 22 < totalCnt) :
    buildFrame s allocOk =
      (s.fill, { frame := s.frame, stores := List.range' s.sendCnt 22 }) := by
  have hlt : ¬ s.fill.sendCnt ≥ totalCnt := by
    rw [sendCnt_fill]
    omega
  rw [buildFrame]
  simp only [if_neg hlt, frame_length]

theorem buildFrame_null (h : totalCnt ≤ s.sendCnt + 22) :
    buildFrame s false =
      (s.fill, { frame := s.frame, stores := List.range' s.sendCnt 22, alloc := some false }) := by
  have hge : s.fill.sendCnt ≥ totalCnt := by
    rw [sendCnt_fill]
    exact h
  rw [buildFrame]
  simp only [if_pos hge, Bool.false_eq_true, ↓reduceIte, frame_length]

/-- A pass that sends: the first `total_cnt` bytes go out, what follows them is forgotten. -/
theorem buildFrame_sent (h : totalCnt ≤ s.sendCnt + 22) :
    buildFrame s true =
      ({ s.fill with sendCnt := 0 },
        { frame := s.frame, stores := List.range' s.sendCnt 22, alloc := some true,
          payload := some ((s.contents ++ s.frame).take totalCnt) }) := by
  have hge : s.fill.sendCnt ≥ totalCnt := by
    rw [sendCnt_fill]
    exact h
  have htake : (List.range totalCnt).map s.fill.sendBuffer =
      (s.contents ++ s.frame).take totalCnt := by
    rw [← contents_fill, DataLoop.contents, ← List.map_take, List.take_range, Nat.min_eq_left hge]
  rw [buildFrame]
  simp only [if_pos hge, ↓reduceIte, frame_length, htake]

end Pass

/-! ## Runs -/

def built (ps : List Pass) : List UInt8 := (ps.map Pass.frame).flatten

def payloads (ps : List Pass) : List (List UInt8) := ps.filterMap Pass.payload

/-- What `pbuf_alloc` returned, call by call. -/
def allocs (ps : List Pass) : List Bool := ps.filterMap Pass.alloc

theorem allocs_append (ps qs : List Pass) : allocs (ps ++ qs) = allocs ps ++ allocs qs :=
  List.filterMap_append

/-- The number of `NULL`s at the end. -/
def nullRun (as : List Bool) : Nat := (as.reverse.takeWhile (! ·)).length

@[simp] theorem nullRun_concat (as : List Bool) (a : Bool) :
    nullRun (as ++ [a]) = if a then 0 else nullRun as + 1 := by
  cases a <;> simp [nullRun]

/-- The fill index counts frames, and from 50 frames on it counts the `NULL`s. -/
def Counts (s : DataLoop) (ps : List Pass) : Prop :=
  ∃ j, s.sendCnt = 22 * j ∧ nullRun (allocs ps) = j - 49

theorem counts_start : Counts {} [] := ⟨0, rfl, rfl⟩

theorem Counts.buildFrame {s : DataLoop} {ps : List Pass} (h : Counts s ps) (allocOk : Bool) :
    Counts (buildFrame s allocOk).1 (ps ++ [(buildFrame s allocOk).2]) := by
  obtain ⟨j, hj, hnull⟩ := h
  have hlen : totalCnt = 22 * 50 := rfl
  unfold Counts
  rw [allocs_append]
  by_cases hroom : s.sendCnt + 22 < totalCnt
  · rw [buildFrame_room hroom]
    refine ⟨j + 1, ?_, ?_⟩
    · rw [sendCnt_fill]
      omega
    · show nullRun (allocs ps ++ []) = _
      rw [List.append_nil]
      omega
  · cases allocOk with
    | false =>
      rw [buildFrame_null (by omega)]
      refine ⟨j + 1, ?_, ?_⟩
      · rw [sendCnt_fill]
        omega
      · show nullRun (allocs ps ++ [false]) = _
        rw [nullRun_concat, if_neg (by decide)]
        omega
    | true =>
      rw [buildFrame_sent (by omega)]
      refine ⟨0, rfl, ?_⟩
      show nullRun (allocs ps ++ [true]) = _
      rw [nullRun_concat, if_pos rfl]

end AdcUdpStream.Server
