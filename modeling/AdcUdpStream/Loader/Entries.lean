import AdcUdpStream.Loader.Session

/-!
# The calls of `write_flash`

A note of every call, kept beside the driver. A call that fails leaves `byte_ctr` at
the size of `flash_buf`, so the next one stores behind the array. Every store is
inside exactly as long as no call follows one that failed (`staged_kept`). Behind the
first store that is not, memory is no longer what the model says: results about all
result codes are stated of the runs before it.
-/

namespace AdcUdpStream.Loader

open CStr Steps

/-! ## Drivers with a history -/

section Map

variable {F G : Type}

def Stage.mapFlash (g : F → G) (s : Stage F) : Stage G :=
  ⟨s.dataArr, s.flashCnt, s.flashPos, g s.flash⟩

def Updater.mapFlash (g : F → G) (u : Updater F) : Updater G :=
  ⟨u.fwupdate, u.curlen, u.stage.mapFlash g⟩

def Post.mapFlash (g : F → G) (s : Post F) : Post G :=
  ⟨s.currentConnection, s.validConnection, s.upd.mapFlash g, s.close, s.reboot, s.jumped⟩

variable {wf : WriteFlash F} {wg : WriteFlash G} {g : F → G}

/-- `wf` is `wg` with more state. -/
def Extends (wf : WriteFlash F) (wg : WriteFlash G) (g : F → G) : Prop :=
  ∀ f dst src n, wg (g f) dst src n = ((wf f dst src n).1, g (wf f dst src n).2)

theorem storeByte_mapFlash (h : Extends wf wg g) (s : Stage F) (x : UInt8) :
    (storeByte wf s x).mapFlash g = storeByte wg (s.mapFlash g) x := by
  have hput : (s.mapFlash g).put x = s.put x := rfl
  unfold storeByte
  rw [hput]
  simp only [Stage.mapFlash, h s.flash]
  split
  · rfl
  · split <;> rfl

theorem octetStream_mapFlash (h : Extends wf wg g) (u : Updater F) (xs : List UInt8) :
    octetStream wg (u.mapFlash g) xs =
      ((octetStream wf u xs).1.mapFlash g, (octetStream wf u xs).2) := by
  have hfold : (xs.foldl (storeByte wf) u.stage).mapFlash g =
      xs.foldl (storeByte wg) (u.stage.mapFlash g) := by
    generalize u.stage = s
    induction xs generalizing s with
    | nil => rfl
    | cons x xs ih => rw [List.foldl_cons, List.foldl_cons, ih, storeByte_mapFlash h]
  have hrest : ∀ s : Stage F, writeRest wg (s.mapFlash g) = (writeRest wf s).mapFlash g := by
    intro s
    simp only [writeRest, Stage.mapFlash, h s.flash]
    split <;> rfl
  simp only [octetStream, Updater.mapFlash, ← hfold, hrest]
  split <;> rfl

theorem fwupdateLoop_mapFlash (h : Extends wf wg g) (mem : List UInt8) (buflen n : Nat)
    (u : Updater F) (cur : Cursor) :
    fwupdateLoop wg mem buflen n (u.mapFlash g) cur =
      ((fwupdateLoop wf mem buflen n u cur).1.mapFlash g,
        (fwupdateLoop wf mem buflen n u cur).2) := by
  have hpass : ∀ (u : Updater F) cur k, fwupdatePass wg mem buflen (u.mapFlash g) cur k =
      ((fwupdatePass wf mem buflen u cur k).1.mapFlash g,
        (fwupdatePass wf mem buflen u cur k).2) := by
    intro u cur k
    have hstate : (u.mapFlash g).fwupdate = u.fwupdate := rfl
    unfold fwupdatePass
    rw [hstate]
    cases u.fwupdate.state with
    | header => rfl
    | octetStart => rfl
    | octetStream => simp only [octetStream_mapFlash h]
  induction n generalizing u cur with
  | zero => rfl
  | succ n ih =>
    unfold fwupdateLoop
    split
    · rfl
    · split
      · rw [hpass, ih]
      · rfl

/-- **What the driver keeps beside its state changes no call.** -/
theorem step_mapFlash (h : Extends wf wg g) (s : Post F) (e : Event) :
    (step wf s e).1.mapFlash g = (step wg (s.mapFlash g) e).1 := by
  have hjumped : (s.mapFlash g).jumped = s.jumped := rfl
  unfold step
  rw [hjumped]
  split
  · rfl
  · cases e with
    | postBegin c uri n =>
      have hc : (s.mapFlash g).currentConnection = s.currentConnection := rfl
      simp only [httpdPostBegin, hc]
      split
      · split <;> rfl
      · rfl
    | receiveData c p =>
      have hc : (s.mapFlash g).currentConnection = s.currentConnection := rfl
      have hupd : (s.mapFlash g).upd = s.upd.mapFlash g := rfl
      simp only [httpdPostReceiveData, fwupdateMultipartStateMachine, hc, hupd,
        fwupdateLoop_mapFlash h]
      split
      · split <;> rfl
      · rfl
    | postFinished c =>
      have hr : (s.mapFlash g).reboot = s.reboot := rfl
      have hc : (s.mapFlash g).currentConnection = s.currentConnection := rfl
      simp only [httpdPostFinished, hr, hc]
      split
      · rfl
      · split <;> rfl

end Map

/-! ## Notes -/

/-- A call of `write_flash`: how it was entered, and the code it returned. -/
structure Entry where
  byteCtr : Nat
  noOfBytes : Nat
  code : Nat

/-- Every store `flash_buf[byte_ctr + i]` is inside the array. -/
def Entry.Inside (e : Entry) : Prop := ∀ i < e.noOfBytes, e.byteCtr + i < flashBufSize

/-- No call follows one that failed; the newest entry comes first. -/
def NoneAfterFailure (es : List Entry) : Prop := ∀ e ∈ es.tail, e.code = cmdSuccess

/-- `write_flash` with a note of each call. -/
def noted (b : Board) : WriteFlash (Main × List Entry) := fun g dst src n =>
  ((writeFlash b g.1 dst src n).1, (writeFlash b g.1 dst src n).2,
    ⟨g.1.byteCtr, n, (writeFlash b g.1 dst src n).1⟩ :: g.2)

/-- The calls of `write_flash` in a run, newest first. -/
def entries (b : Board) (s : Post Main) (es : List Event) : List Entry :=
  (final (step (noted b)) (s.mapFlash fun m => (m, [])) es).upd.stage.flash.2

def Board.copyFails : Board := ⟨12000000, fun _ c =>
  match c with
  | .copyRamToFlash .. => 1
  | _ => cmdSuccess⟩

variable {b : Board}

def AllSucceeded (es : List Entry) : Prop := ∀ e ∈ es, e.code = cmdSuccess

theorem noted_succeeded (g : Main × List Entry) (dst : Nat) (src : List UInt8) (n : Nat) :
    AllSucceeded (noted b g dst src n).2.2 ↔
      (noted b g dst src n).1 = cmdSuccess ∧ AllSucceeded g.2 := List.forall_mem_cons

theorem noted_extends (b : Board) : Extends (noted b) (writeFlash b) Prod.fst :=
  fun _ _ _ _ => rfl

theorem noted_run (s : Post Main) (es : List Event) :
    (final (step (noted b)) (s.mapFlash fun m => (m, [])) es).mapFlash Prod.fst =
      final (step (writeFlash b)) s es :=
  final_map (Post.mapFlash Prod.fst) (step_mapFlash (noted_extends b)) _ es

/-! ## One call -/

theorem entry_inside_iff (n r : Nat) : Entry.Inside ⟨n, 1024, r⟩ ↔ n = 0 := by
  unfold Entry.Inside
  have hsize : flashBufSize = 1024 := rfl
  constructor
  · intro h
    have hlast : n + 1023 < flashBufSize := h 1023 (by simp)
    omega
  · rintro rfl i hi
    dsimp only at hi ⊢
    omega

/-- **From an empty buffer**: the block is written, or it stays staged with the code of a
failure. -/
theorem writeFlash_counter {m : Main} (hb : m.byteCtr = 0) (dst : Nat) (src : List UInt8) :
    (writeFlash b m dst src 1024).2.byteCtr = 0 ∧
        (writeFlash b m dst src 1024).1 = cmdSuccess ∨
      (writeFlash b m dst src 1024).2.byteCtr = flashBufSize ∧
        (writeFlash b m dst src 1024).1 ≠ cmdSuccess := by
  have hfull : (m.accumulate dst src 1024).byteCtr = flashBufSize := by
    simp only [Main.accumulate, hb]
    decide
  rw [writeFlash_eq, if_pos hfull]
  obtain ⟨m₁, m₂, h₁, h₂, hcases⟩ := program_cases b (m.accumulate dst src 1024)
  have hkeep : m₁.byteCtr = flashBufSize := by
    rw [h₁, findErasePrepareSector_byteCtr, hfull]
  rcases hcases with ⟨h1, hprog⟩ | ⟨h1, h2, hprog⟩ | ⟨h1, h2, hprog⟩
  · rw [hprog]
    exact .inr ⟨hkeep, h1⟩
  · rw [hprog]
    exact .inr ⟨by rw [h₂]; exact hkeep, h2⟩
  · rw [hprog]
    exact .inl ⟨rfl, rfl⟩

/-! ## Runs -/

/-- Every store so far was inside exactly if no call has followed a failed one; and as long as that
is so, a block is staged exactly if the last call failed. -/
structure Staged (g : Main × List Entry) : Prop where
  inside : (∀ e ∈ g.2, e.Inside) ↔ NoneAfterFailure g.2
  counter : NoneAfterFailure g.2 →
    g.1.byteCtr = 0 ∧ AllSucceeded g.2 ∨ g.1.byteCtr = flashBufSize ∧ ¬ AllSucceeded g.2

theorem AllSucceeded.noneAfter {es : List Entry} (h : AllSucceeded es) : NoneAfterFailure es :=
  fun e he => h e (List.mem_of_mem_tail he)

theorem staged_kept (b : Board) : KeptByWrites (noted b) Staged := by
  rintro ⟨m, es⟩ dst src - ⟨hiff, hcounter⟩
  dsimp only at hiff hcounter
  constructor
  · dsimp only [noted]
    rw [List.forall_mem_cons, entry_inside_iff, hiff]
    show _ ↔ AllSucceeded es
    constructor
    · rintro ⟨h0, hes⟩
      rcases hcounter hes with ⟨-, hall⟩ | ⟨hfull, -⟩
      · exact hall
      · rw [h0] at hfull
        cases hfull
    · intro hall
      rcases hcounter hall.noneAfter with ⟨h0, -⟩ | ⟨-, hfailed⟩
      · exact ⟨h0, hall.noneAfter⟩
      · exact absurd hall hfailed
  · intro hall
    have hall : AllSucceeded es := hall
    rw [noted_succeeded]
    dsimp only [noted]
    rcases hcounter hall.noneAfter with ⟨h0, -⟩ | ⟨-, hfailed⟩
    · rcases writeFlash_counter (b := b) h0 dst src with ⟨h0', hok⟩ | ⟨hfull, hfail⟩
      · exact .inl ⟨h0', hok, hall⟩
      · exact .inr ⟨hfull, fun h => hfail h.1⟩
    · exact absurd hall hfailed

/-- **The notes of every run**, from statics with nothing staged. -/
theorem staged_run {s : Post Main} (hs : s.upd.stage.flash.byteCtr = 0) (es : List Event) :
    Staged (final (step (noted b)) (s.mapFlash fun m => (m, [])) es).upd.stage.flash := by
  have hstep : ∀ (s : Post (Main × List Entry)) (e : Event), Staged s.upd.stage.flash →
      Staged (step (noted b) s e).1.upd.stage.flash := fun _ e h => step_kept (staged_kept b) e h
  have hstart : Staged (s.mapFlash fun m => (m, ([] : List Entry))).upd.stage.flash :=
    ⟨iff_of_true (List.forall_mem_nil _) (List.forall_mem_nil _),
      fun _ => .inl ⟨hs, List.forall_mem_nil _⟩⟩
  exact final_inv_of_step hstep es hstart

end AdcUdpStream.Loader
