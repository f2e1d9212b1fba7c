import AdcUdpStream.Lib.CStr
import AdcUdpStream.Lib.Steps

/-!
# Tick timers (`tickloop.c`)

A timer is armed at a 32-bit tick with a delta of at most `HALF_LOOP` and polled
with later ticks. Its deadline is `t0 + delta`, with `over_loop` set when that
wraps. Polled at an elapsed time up to the delta it must ask for the next tick;
it fires instead when the deadline lies behind `HALF_LOOP` without a wrap and the
poll before it (`check_early_iff`): the test for a wrapped poll compares both
with `HALF_LOOP`, and these look the same. Behind the deadline a timer that has
fired stays so; one with a wrapped deadline does not fire from `HALF_LOOP` on
(`check_late_iff`).
-/

namespace AdcUdpStream.Server

open Steps

/-! ## The functions -/

/-- `t_s_loop`. -/
structure SLoop where
  cLoop : UInt32
  overLoop : UInt8
  deriving DecidableEq

def halfLoop : UInt32 := (0xFFFFFFFF : UInt32) >>> 1

/-- Returns 0 if the next tick is needed and 1 if ready. -/
def checkHalfloop (loop : SLoop) (tickLoop : UInt32) : SLoop × UInt8 :=
  if loop.overLoop &&& 0x80 ≠ 0 then (loop, 1)
  else if loop.overLoop = 0 then
    if tickLoop > loop.cLoop ∨ tickLoop < halfLoop ∧ loop.cLoop > halfLoop then
      ({ loop with overLoop := loop.overLoop ||| 0x80 }, 1)
    else (loop, 0)
  else if tickLoop > loop.cLoop ∧ tickLoop < halfLoop then
    ({ loop with overLoop := loop.overLoop ||| 0x80 }, 1)
  else (loop, 0)

def getCmploop (delta : UInt32) (loop : SLoop) (tickLoop : UInt32) : SLoop × UInt8 :=
  if delta > halfLoop then (loop, 0)
  else
    let cLoop := tickLoop + delta
    ({ cLoop, overLoop := if cLoop < tickLoop then 0x1 else 0 }, 1)

def tickAt (t0 : UInt32) (e : Nat) : UInt32 := t0 + UInt32.ofNat e

theorem tickAt_toNat (t0 : UInt32) (e : Nat) : (tickAt t0 e).toNat = (t0.toNat + e) % 2 ^ 32 := by
  rw [tickAt, UInt32.toNat_add, UInt32.toNat_ofNat', Nat.add_mod_mod]

/-! ## An armed timer -/

variable {delta t0 : UInt32} {loop : SLoop}

theorem halfLoop_toNat : halfLoop.toNat = 0x7FFFFFFF := by decide

theorem getCmploop_plain (hd : delta.toNat ≤ 0x7FFFFFFF)
    (h : t0.toNat + delta.toNat < 2 ^ 32) :
    getCmploop delta loop t0 = (⟨t0 + delta, 0⟩, 1) := by
  have hge : ¬ t0 + delta < t0 := by
    rw [UInt32.lt_iff_toNat_lt, UInt32.toNat_add, Nat.mod_eq_of_lt h]
    omega
  have hle : ¬ delta > halfLoop := by
    rw [gt_iff_lt, UInt32.lt_iff_toNat_lt, halfLoop_toNat]
    omega
  rw [getCmploop, if_neg hle]
  simp only [if_neg hge]

theorem getCmploop_over (hd : delta.toNat ≤ 0x7FFFFFFF)
    (h : 2 ^ 32 ≤ t0.toNat + delta.toNat) :
    getCmploop delta loop t0 = (⟨t0 + delta, 1⟩, 1) := by
  have hlt := t0.toNat_lt
  have hover : t0 + delta < t0 := by
    rw [UInt32.lt_iff_toNat_lt, UInt32.toNat_add]
    omega
  have hle : ¬ delta > halfLoop := by
    rw [gt_iff_lt, UInt32.lt_iff_toNat_lt, halfLoop_toNat]
    omega
  rw [getCmploop, if_neg hle]
  simp only [if_pos hover]

theorem checkHalfloop_plain (c tick : UInt32) :
    checkHalfloop ⟨c, 0⟩ tick = (⟨c, 0⟩, 0) ↔
      tick.toNat ≤ c.toNat ∧ (c.toNat ≤ 0x7FFFFFFF ∨ 0x7FFFFFFF ≤ tick.toNat) := by
  have hfires : (tick > c ∨ tick < halfLoop ∧ c > halfLoop) ↔
      ¬ (tick.toNat ≤ c.toNat ∧ (c.toNat ≤ 0x7FFFFFFF ∨ 0x7FFFFFFF ≤ tick.toNat)) := by
    simp only [gt_iff_lt, UInt32.lt_iff_toNat_lt, halfLoop_toNat]
    omega
  unfold checkHalfloop
  dsimp only
  rw [if_neg (show ¬ (0 : UInt8) &&& 0x80 ≠ 0 by decide), if_pos rfl]
  by_cases hc : tick.toNat ≤ c.toNat ∧ (c.toNat ≤ 0x7FFFFFFF ∨ 0x7FFFFFFF ≤ tick.toNat)
  · rw [if_neg fun h => hfires.mp h hc]
    exact iff_of_true rfl hc
  · rw [if_pos (hfires.mpr hc)]
    exact iff_of_false (by simp) hc

/-- A poll of a wrapped deadline asks for the next tick unless it is between the deadline and
`HALF_LOOP`. -/
theorem checkHalfloop_over (c tick : UInt32) :
    checkHalfloop ⟨c, 1⟩ tick = (⟨c, 1⟩, 0) ↔
      tick.toNat ≤ c.toNat ∨ 0x7FFFFFFF ≤ tick.toNat := by
  have hfires : (tick > c ∧ tick < halfLoop) ↔
      ¬ (tick.toNat ≤ c.toNat ∨ 0x7FFFFFFF ≤ tick.toNat) := by
    simp only [gt_iff_lt, UInt32.lt_iff_toNat_lt, halfLoop_toNat]
    omega
  unfold checkHalfloop
  dsimp only
  rw [if_neg (show ¬ (1 : UInt8) &&& 0x80 ≠ 0 by decide), if_neg (show ¬ (1 : UInt8) = 0 by decide)]
  by_cases hc : tick.toNat ≤ c.toNat ∨ 0x7FFFFFFF ≤ tick.toNat
  · rw [if_neg fun h => hfires.mp h hc]
    exact iff_of_true rfl hc
  · rw [if_pos (hfires.mpr hc)]
    exact iff_of_false (by simp) hc

/-! ## Never early -/

/-- The deadline wraps, or does not lie behind `HALF_LOOP`, or the poll is not before it. -/
def NotSplit (t0 delta : UInt32) (e : Nat) : Prop :=
  2 ^ 32 ≤ t0.toNat + delta.toNat ∨ t0.toNat + delta.toNat ≤ 0x7FFFFFFF ∨ 0x7FFFFFFF ≤ t0.toNat + e

theorem check_early_iff (hd : delta ≤ halfLoop) {e : Nat} (he : e ≤ delta.toNat) :
    checkHalfloop (getCmploop delta loop t0).1 (tickAt t0 e) =
        ((getCmploop delta loop t0).1, 0) ↔ NotSplit t0 delta e := by
  have hd' : delta.toNat ≤ 0x7FFFFFFF := by rwa [← halfLoop_toNat]
  have ht0 := t0.toNat_lt
  have htick := tickAt_toNat t0 e
  have hdead := UInt32.toNat_add t0 delta
  unfold NotSplit
  by_cases hwrap : t0.toNat + delta.toNat < 2 ^ 32
  · rw [Nat.mod_eq_of_lt hwrap] at hdead
    rw [Nat.mod_eq_of_lt (by omega)] at htick
    rw [getCmploop_plain hd' hwrap, checkHalfloop_plain]
    omega
  · rw [getCmploop_over hd' (by omega), checkHalfloop_over]
    omega

/-- **When a tick timer never fires early.** For every start tick and every delta up to
`HALF_LOOP`, polled any number of times up to the deadline: all polls return 0 and leave the timer
as armed if and only if no poll comes before `HALF_LOOP` while the deadline lies behind it without
a wrap. -/
theorem never_early_iff (t0 delta : UInt32) (loop : SLoop) (hd : delta ≤ halfLoop) (es : List Nat)
    (hes : ∀ e ∈ es, e ≤ delta.toNat) :
    Along checkHalfloop (fun l tick => checkHalfloop l tick = (l, 0)) (getCmploop delta loop t0).1
        (es.map (tickAt t0)) ↔
      ∀ e ∈ es, NotSplit t0 delta e := by
  rw [along_still, List.forall_mem_map]
  constructor
  · exact fun h e he => (check_early_iff hd (hes e he)).mp (h e he)
  · exact fun h e he => (check_early_iff hd (hes e he)).mpr (h e he)

theorem never_early_iff_hundred :
    Along checkHalfloop (fun l tick => checkHalfloop l tick = (l, 0))
        (getCmploop 10 ⟨0, 0⟩ 90).1 ([0, 5, 10].map (tickAt 90)) ↔
      ∀ e ∈ [0, 5, 10], NotSplit 90 10 e :=
  never_early_iff 90 10 ⟨0, 0⟩ (by decide) [0, 5, 10] (by decide)

/-- Armed at tick 1000 for the longest delta and polled in the same tick. -/
theorem fires_early :
    ¬ Along checkHalfloop (fun l tick => checkHalfloop l tick = (l, 0))
      (getCmploop halfLoop ⟨0, 0⟩ 1000).1 ([0].map (tickAt 1000)) := by
  intro h
  have hfirst := h.1
  revert hfirst
  decide

/-! ## Never late -/

def SLoop.Fired (l : SLoop) : Prop := l.overLoop &&& 0x80 ≠ 0

theorem SLoop.Fired.check {l : SLoop} (h : l.Fired) (tick : UInt32) :
    checkHalfloop l tick = (l, 1) := if_pos h

/-- A fired timer returns 1 to every poll. -/
theorem SLoop.Fired.outs {l : SLoop} (h : l.Fired) (ticks : List UInt32) :
    ∀ r ∈ Steps.outs checkHalfloop l ticks, r = 1 := by
  induction ticks with
  | nil => simp
  | cons tick ticks ih =>
    rw [outs_cons, h.check, List.forall_mem_cons]
    exact ⟨rfl, ih⟩

theorem or_fired (x : UInt8) : (x ||| 0x80) &&& 0x80 ≠ 0 := by
  intro h
  have hbit : Nat.testBit 128 7 = true := by decide
  have := congrArg (fun y : UInt8 => y.toNat.testBit 7) h
  simp [UInt8.toNat_and, UInt8.toNat_or, hbit] at this

theorem check_cases (l : SLoop) (tick : UInt32) :
    checkHalfloop l tick = (l, 0) ∨
      (checkHalfloop l tick).1.Fired ∧ (checkHalfloop l tick).2 = 1 := by
  unfold checkHalfloop
  split
  · next h => exact .inr ⟨h, rfl⟩
  · split
    · split
      · exact .inr ⟨or_fired l.overLoop, rfl⟩
      · exact .inl rfl
    · split
      · exact .inr ⟨or_fired l.overLoop, rfl⟩
      · exact .inl rfl

/-- From a poll on every poll returns 1, exactly if this poll or one before it does not leave the
timer as it is. -/
theorem fires_iff (l : SLoop) (ticks : List UInt32) (tick : UInt32) (more : List UInt32) :
    (∀ r ∈ outs checkHalfloop (final checkHalfloop l ticks) (tick :: more), r = 1) ↔
      ∃ t ∈ ticks ++ [tick], checkHalfloop l t ≠ (l, 0) := by
  constructor
  · intro hret
    by_contra hnone
    have hstill : ∀ t ∈ ticks ++ [tick], checkHalfloop l t = (l, 0) := by
      intro t ht
      by_contra hne
      exact hnone ⟨t, ht, hne⟩
    have hlast := hstill tick (by simp)
    rw [final_still fun t ht => hstill t (List.mem_append_left _ ht), outs_cons, hlast] at hret
    exact absurd (hret 0 (List.mem_cons_self ..)) (by decide)
  · intro hmoved
    have hstay : ∀ (l : SLoop) (tick : UInt32), l.Fired → (checkHalfloop l tick).1.Fired := by
      intro l tick h
      rw [h.check]
      exact h
    have hfired : (final checkHalfloop l (ticks ++ [tick])).Fired :=
      final_latched hstay (fun t => (check_cases l t).imp_right And.left) hmoved
    rw [final_append, final_cons, final_nil] at hfired
    rw [outs_cons, List.forall_mem_cons]
    refine ⟨?_, hfired.outs more⟩
    rcases check_cases (final checkHalfloop l ticks) tick with hstill | ⟨-, hone⟩
    · rw [hstill] at hfired
      rw [hfired.check]
    · exact hone

/-- A poll behind the deadline that the timer takes for one: the deadline does not wrap, or the
poll comes before `HALF_LOOP` after the wrap. -/
def Noticed (t0 delta : UInt32) (e : Nat) : Prop :=
  delta.toNat < e ∧
    (t0.toNat + delta.toNat < 2 ^ 32 ∨ t0.toNat + e < 2 ^ 32 + 0x7FFFFFFF)

theorem check_late_iff (hd : delta ≤ halfLoop) {e : Nat} (he : e ≤ delta.toNat + 0x7FFFFFFF)
    (h : delta.toNat < e ∨ 2 ^ 32 ≤ t0.toNat + delta.toNat) :
    checkHalfloop (getCmploop delta loop t0).1 (tickAt t0 e) =
        ((getCmploop delta loop t0).1, 0) ↔ ¬ Noticed t0 delta e := by
  have hd' : delta.toNat ≤ 0x7FFFFFFF := by rwa [← halfLoop_toNat]
  have ht0 := t0.toNat_lt
  have htick := tickAt_toNat t0 e
  have hdead := UInt32.toNat_add t0 delta
  unfold Noticed
  by_cases hwrap : t0.toNat + delta.toNat < 2 ^ 32
  · rw [getCmploop_plain hd' hwrap, checkHalfloop_plain]
    omega
  · rw [getCmploop_over hd' (by omega), checkHalfloop_over]
    omega

/-- **When a tick timer does not miss its deadline.** For every start tick and every delta up to
`HALF_LOOP`, polled any number of times and then at an elapsed time up to `HALF_LOOP` behind the
deadline: this poll and all polls after it return 1 if and only if this poll or one before it is
noticed. -/
theorem never_late_iff (t0 delta : UInt32) (loop : SLoop) (hd : delta ≤ halfLoop) (es : List Nat)
    (e : Nat) (hes : ∀ e' ∈ es, e' ≤ e) (hlate : delta.toNat < e)
    (he : e ≤ delta.toNat + halfLoop.toNat) (fs : List Nat) :
    (∀ r ∈ outs checkHalfloop
        (final checkHalfloop (getCmploop delta loop t0).1 (es.map (tickAt t0)))
        ((e :: fs).map (tickAt t0)), r = 1) ↔
      ∃ e' ∈ es ++ [e], Noticed t0 delta e' := by
  rw [halfLoop_toNat] at he
  have hle : ∀ e' ∈ es ++ [e], e' ≤ delta.toNat + 0x7FFFFFFF := by
    intro e' he'
    rcases List.mem_append.mp he' with he' | he'
    · exact (hes e' he').trans he
    · rwa [List.mem_singleton.mp he']
  have hlast : e ∈ es ++ [e] := List.mem_append_right _ (List.mem_singleton_self e)
  have hticks : es.map (tickAt t0) ++ [tickAt t0 e] = (es ++ [e]).map (tickAt t0) := by
    rw [List.map_append, List.map_singleton]
  rw [List.map_cons, fires_iff, hticks]
  simp only [List.mem_map, exists_exists_and_eq_and]
  by_cases hwrap : t0.toNat + delta.toNat < 2 ^ 32
  · have hnoticed : Noticed t0 delta e := ⟨hlate, .inl hwrap⟩
    refine iff_of_true ⟨e, hlast, fun hstill => ?_⟩ ⟨e, hlast, hnoticed⟩
    exact (check_late_iff hd he (.inl hlate)).mp hstill hnoticed
  · apply exists_congr
    intro e'
    apply and_congr_right
    intro he'
    rw [Ne, check_late_iff hd (hle e' he') (.inr (Nat.le_of_not_lt hwrap)), not_not]

theorem never_late_iff_wrap :
    (∀ r ∈ outs checkHalfloop
        (final checkHalfloop (getCmploop 100 ⟨0, 0⟩ 0xFFFFFFF0).1 ([100].map (tickAt 0xFFFFFFF0)))
        ((101 :: [102, 5000000000]).map (tickAt 0xFFFFFFF0)), r = 1) ↔
      ∃ e' ∈ [100] ++ [101], Noticed 0xFFFFFFF0 100 e' :=
  never_late_iff 0xFFFFFFF0 100 ⟨0, 0⟩ (by decide) [100] 101 (by decide) (by decide) (by decide)
    [102, 5000000000]

/-- Armed over the wrap for the longest delta, and polled one tick after the deadline. -/
theorem deadline_missed :
    ¬ ∀ r ∈ outs checkHalfloop
        (final checkHalfloop (getCmploop halfLoop ⟨0, 0⟩ 0xFFFFFFFF).1
          ([].map (tickAt 0xFFFFFFFF)))
        ((0x80000000 :: []).map (tickAt 0xFFFFFFFF)), r = 1 := by
  decide

end AdcUdpStream.Server
