import AdcUdpStream.Server.DataLoop

/-!
# Timer ticks and the main loop

The interrupt counts in `time_counter` and sets `freq_flag`; the main loop tests
the flag, clears it and builds one frame. The flag is one bit: a tick that finds
it set leaves no trace but the counter. In every state the ticks are the frames
built, those still due and the ticks missed so; and what is due is built within
five steps of the main loop (`ticks_frames_missed`).
-/

namespace AdcUdpStream.Server

open Steps

/-- Where the main loop is: at its top before it handles packets, before the test of `freq_flag`,
before it clears it, or before it builds the frame. -/
inductive Pc where
  | top
  | test
  | clear
  | build
  deriving DecidableEq

structure Program where
  pc : Pc := .top
  loop : DataLoop := {}

/-- An interrupt, or a step of the main loop. `allocOk` is what `pbuf_alloc` would return. -/
inductive Turn where
  | timer
  | main (allocOk : Bool)

inductive Deed where
  | tick (missed : Bool)
  | move
  | frame
  deriving DecidableEq

/-- The interrupt has no count of its own but `time_counter`. -/
def timer0IRQHandler (s : DataLoop) : DataLoop :=
  { s with freqFlag := 1, timeCounter := s.timeCounter + 1 }

/-- One step of the main loop. Handling packets touches nothing of the data loop. -/
def mainStep (s : Program) (allocOk : Bool) : Program × Deed :=
  match s.pc with
  | .top => ({ s with pc := .test, loop.freetime := s.loop.freetime + 1 }, .move)
  | .test => ({ s with pc := if s.loop.freqFlag ≠ 0 then .clear else .top }, .move)
  | .clear => ({ s with pc := .build, loop.freqFlag := 0 }, .move)
  | .build => ({ pc := .test, loop := (buildFrame s.loop allocOk).1 }, .frame)

def turn (s : Program) : Turn → Program × Deed
  | .timer =>
    ({ s with loop := timer0IRQHandler s.loop }, .tick (decide (s.loop.freqFlag ≠ 0)))
  | .main allocOk => mainStep s allocOk

def ticks (ds : List Deed) : Nat := ds.count (.tick true) + ds.count (.tick false)

/-- The interrupts that found `freq_flag` set. -/
def missed (ds : List Deed) : Nat := ds.count (.tick true)

def frames (ds : List Deed) : Nat := ds.count .frame

/-- The frames that are still to be built for ticks: one for the flag, one in the making. -/
def Program.due (s : Program) : Nat :=
  (if s.loop.freqFlag ≠ 0 then 1 else 0) + if s.pc = .build then 1 else 0

/-- Every tick has its frame, has been missed, or is still due. -/
structure Accounted (s : Program) (ds : List Deed) : Prop where
  counter : s.loop.timeCounter = UInt32.ofNat (ticks ds)
  clear : s.pc = .clear → s.loop.freqFlag ≠ 0
  balance : ticks ds = frames ds + missed ds + s.due

theorem buildFrame_flag (s : DataLoop) (allocOk : Bool) :
    (buildFrame s allocOk).1.freqFlag = s.freqFlag ∧
      (buildFrame s allocOk).1.timeCounter = s.timeCounter := by
  obtain ⟨buf, cnt, h⟩ := buildFrame_statics s allocOk
  rw [h]
  exact ⟨rfl, rfl⟩

theorem ticks_tick (ds : List Deed) (m : Bool) : ticks (ds ++ [.tick m]) = ticks ds + 1 := by
  cases m <;> simp [ticks, List.count_append] <;> omega

theorem ticks_other (ds : List Deed) {d : Deed} (h : ∀ m, d ≠ .tick m) :
    ticks (ds ++ [d]) = ticks ds := by
  simp [ticks, List.count_append, h]

theorem missed_concat (ds : List Deed) (d : Deed) :
    missed (ds ++ [d]) = missed ds + if d = .tick true then 1 else 0 := by
  rw [missed, List.count_append, List.count_singleton]
  simp [missed]

theorem frames_concat (ds : List Deed) (d : Deed) :
    frames (ds ++ [d]) = frames ds + if d = .frame then 1 else 0 := by
  rw [frames, List.count_append, List.count_singleton]
  simp [frames]

theorem Accounted.timer {s : Program} {ds : List Deed} (h : Accounted s ds) :
    Accounted (turn s .timer).1 (ds ++ [(turn s .timer).2]) := by
  obtain ⟨hcounter, -, hticks⟩ := h
  refine ⟨?_, fun _ => show (1 : UInt8) ≠ 0 by decide, ?_⟩
  · show s.loop.timeCounter + 1 = UInt32.ofNat (ticks (ds ++ [.tick _]))
    rw [ticks_tick, hcounter, UInt32.ofNat_add]
    rfl
  · show ticks (ds ++ [.tick _]) = frames (ds ++ [.tick _]) + missed (ds ++ [.tick _]) +
      (1 + if s.pc = .build then 1 else 0)
    unfold Program.due at hticks
    rw [ticks_tick, frames_concat, missed_concat, hticks]
    by_cases hflag : s.loop.freqFlag = 0
    · simp [hflag]
      omega
    · simp [hflag]
      omega

theorem Accounted.main {s : Program} {ds : List Deed} (h : Accounted s ds) (allocOk : Bool) :
    Accounted (mainStep s allocOk).1 (ds ++ [(mainStep s allocOk).2]) := by
  obtain ⟨hcounter, hclear, hticks⟩ := h
  unfold Program.due at hticks
  unfold mainStep
  have hmove : ∀ m, Deed.move ≠ .tick m := by simp
  cases hpc : s.pc with
  | top =>
    refine ⟨by rwa [ticks_other ds hmove], by simp, ?_⟩
    unfold Program.due
    rw [ticks_other ds hmove, frames_concat, missed_concat, hticks]
    simp [hpc]
  | test =>
    dsimp only
    refine ⟨by rwa [ticks_other ds hmove], ?_, ?_⟩
    · by_cases hflag : s.loop.freqFlag = 0 <;> simp [hflag]
    · unfold Program.due
      rw [ticks_other ds hmove, frames_concat, missed_concat, hticks]
      by_cases hflag : s.loop.freqFlag = 0 <;> simp [hflag, hpc]
  | clear =>
    have hflag := hclear hpc
    refine ⟨by rwa [ticks_other ds hmove], by simp, ?_⟩
    unfold Program.due
    rw [ticks_other ds hmove, frames_concat, missed_concat, hticks]
    simp [hflag, hpc]
  | build =>
    have hframe : ∀ m, Deed.frame ≠ .tick m := by simp
    obtain ⟨hsame, htime⟩ := buildFrame_flag s.loop allocOk
    refine ⟨?_, by simp, ?_⟩
    · rw [ticks_other ds hframe]
      exact htime.trans hcounter
    · unfold Program.due
      rw [ticks_other ds hframe, frames_concat, missed_concat, hticks, hsame]
      simp [hpc]
      omega

theorem Accounted.turn {s : Program} {ds : List Deed} (h : Accounted s ds) (t : Turn) :
    Accounted (turn s t).1 (ds ++ [(turn s t).2]) := by
  cases t with
  | timer => exact h.timer
  | main allocOk => exact h.main allocOk

theorem accounted_run (ts : List Turn) : Accounted (final turn {} ts) (outs turn {} ts) := by
  have hstart : Accounted {} [] := ⟨rfl, by simp, rfl⟩
  have hstep : ∀ (s : Program) (ds : List Deed) (t : Turn), Accounted s ds →
      Accounted (turn s t).1 (ds ++ [(turn s t).2]) := fun _ _ t h => h.turn t
  have := final_outs_inv hstep hstart ts
  rwa [List.nil_append] at this

/-! ## Back to the top -/

theorem ticks_append (ds es : List Deed) : ticks (ds ++ es) = ticks ds + ticks es := by
  unfold ticks
  rw [List.count_append, List.count_append]
  omega

theorem missed_append (ds es : List Deed) : missed (ds ++ es) = missed ds + missed es :=
  List.count_append

/-- The steps to the top of the loop with the flag clear, when no interrupt comes. -/
def Program.toTop (s : Program) : Nat :=
  match s.pc with
  | .top => if s.loop.freqFlag = 0 then 0 else 5
  | .test => if s.loop.freqFlag = 0 then 1 else 4
  | .clear => 3
  | .build => if s.loop.freqFlag = 0 then 2 else 5

theorem Program.toTop_le (s : Program) : s.toTop ≤ 5 := by
  unfold Program.toTop
  split
  · split <;> omega
  · split <;> omega
  · omega
  · split <;> omega

theorem Program.toTop_zero {s : Program} (h : s.toTop = 0) : s.pc = .top ∧ s.loop.freqFlag = 0 := by
  unfold Program.toTop at h
  split at h
  · next hpc =>
    split at h
    · next hflag => exact ⟨hpc, hflag⟩
    · omega
  · split at h <;> omega
  · omega
  · split at h <;> omega

theorem mainStep_toTop (s : Program) (allocOk : Bool) :
    (mainStep s allocOk).1.toTop = s.toTop - 1 ∨ s.toTop = 0 := by
  obtain ⟨hflag, -⟩ := buildFrame_flag s.loop allocOk
  by_cases h0 : s.loop.freqFlag = 0
  · cases hpc : s.pc <;> simp [mainStep, Program.toTop, hpc, h0, hflag]
  · cases hpc : s.pc <;> simp [mainStep, Program.toTop, hpc, h0, hflag]

theorem main_toTop {s : Program} {as : List Bool} (h : as.length = s.toTop) :
    (final turn s (as.map .main)).toTop = 0 := by
  induction as generalizing s with
  | nil => exact h.symm
  | cons a as ih =>
    rw [List.length_cons] at h
    rcases mainStep_toTop s a with hstep | hzero
    · exact ih (hstep.trans (by omega)).symm
    · omega

theorem main_ticks (s : Program) (as : List Bool) :
    ticks (outs turn s (as.map .main)) = 0 ∧ missed (outs turn s (as.map .main)) = 0 := by
  have hno : ∀ m, Deed.tick m ∉ outs turn s (as.map .main) := by
    intro m
    induction as generalizing s with
    | nil => simp
    | cons a as ih =>
      rw [List.map_cons, outs_cons, List.mem_cons, not_or]
      refine ⟨?_, ih _⟩
      show _ ≠ (mainStep s a).2
      unfold mainStep
      cases s.pc <;> simp
  unfold ticks missed
  rw [List.count_eq_zero.mpr (hno true), List.count_eq_zero.mpr (hno false)]
  exact ⟨rfl, rfl⟩

/-! ## What the ticks yield -/

def StoresInside (s : Program) : Turn → Prop
  | .timer => True
  | .main allocOk => s.pc = .build → (buildFrame s.loop allocOk).2.Inside

/-- The ticks, the frames and the missed ticks behind the turns `ts`. -/
structure TicksYield (ts : List Turn) : Prop where
  counter : (final turn {} ts).loop.timeCounter = UInt32.ofNat (ticks (outs turn {} ts))
  balance : ticks (outs turn {} ts) =
    frames (outs turn {} ts) + missed (outs turn {} ts) + (final turn {} ts).due
  /-- A tick is missed only while the frame of an earlier one is due. -/
  missedDue : ∀ us vs, ts = us ++ .timer :: vs → (turn (final turn {} us) .timer).2 = .tick true →
    frames (outs turn {} us) + missed (outs turn {} us) < ticks (outs turn {} us)
  atTop : (final turn {} ts).pc = .top → (final turn {} ts).loop.freqFlag = 0 →
    ticks (outs turn {} ts) = frames (outs turn {} ts) + missed (outs turn {} ts)
  /-- The frames that are due are built, and the loop is back at its top, after five steps of the
  main loop at most. -/
  built : ∃ k ≤ 5, ∀ as : List Bool, as.length = k →
    Along turn StoresInside {} (ts ++ as.map .main) →
      (final turn {} (ts ++ as.map .main)).pc = .top ∧
      (final turn {} (ts ++ as.map .main)).loop.freqFlag = 0 ∧
      frames (outs turn {} (ts ++ as.map .main)) =
        frames (outs turn {} ts) + (final turn {} ts).due

/-- **Every tick yields one frame, or comes while the frame of an earlier one is due**, for every
interleaving of interrupts with the steps of the main loop in which the frames are stored inside
`send_buffer`. -/
theorem ticks_frames_missed (ts : List Turn) (_ : Along turn StoresInside {} ts) :
    TicksYield ts := by
  obtain ⟨hcounter, -, hbalance⟩ := accounted_run ts
  refine ⟨hcounter, hbalance, ?_, fun htop hflag => ?_, _, (final turn {} ts).toTop_le, ?_⟩
  · rintro us vs - hset
    obtain ⟨-, -, hus⟩ := accounted_run us
    have hflag : (final turn {} us).loop.freqFlag ≠ 0 := of_decide_eq_true (Deed.tick.inj hset)
    unfold Program.due at hus
    rw [if_pos hflag] at hus
    omega
  · unfold Program.due at hbalance
    rwa [hflag, htop] at hbalance
  · intro as hlen _
    obtain ⟨htop, hflag⟩ := Program.toTop_zero (main_toTop hlen)
    obtain ⟨hticks, hmissed⟩ := main_ticks (final turn {} ts) as
    have hall := (accounted_run (ts ++ as.map .main)).balance
    rw [← final_append] at htop hflag
    refine ⟨htop, hflag, ?_⟩
    unfold Program.due at hall
    rw [htop, hflag, outs_append, ticks_append, missed_append, hticks, hmissed] at hall
    rw [outs_append]
    simp only [ne_eq, not_true_eq_false, reduceCtorEq, ↓reduceIte] at hall
    omega

theorem ticks_frames_missed_two :
    TicksYield [.timer, .timer, .main true, .main true, .main true, .main true, .main true] :=
  ticks_frames_missed
    [.timer, .timer, .main true, .main true, .main true, .main true, .main true]
    ⟨trivial, trivial, fun h => absurd h (by decide), fun h => absurd h (by decide),
      fun h => absurd h (by decide), fun _ => by decide, fun h => absurd h (by decide), trivial⟩

/-- Two ticks while the main loop handles packets: one frame. -/
theorem tick_missed :
    ¬ ∀ ts : List Turn, (final turn {} ts).pc = .top → (final turn {} ts).loop.freqFlag = 0 →
      (final turn {} ts).loop.timeCounter = UInt32.ofNat (frames (outs turn {} ts)) := by
  intro h
  have htwo := h [.timer, .timer, .main true, .main true, .main true, .main true, .main true]
    (by decide) (by decide)
  revert htwo
  decide

end AdcUdpStream.Server
