import AdcUdpStream.Loader.Entries

/-!
# Starts of the board (`main.c`)

What `main` does before the server loop: with pin 2.13 high it jumps to the
application at 0x10000; with the button held it erases sectors 16 to 29 and
serves. A `Device` is the flash and what runs on it; its events are starts, each
with its pin and its IAP results, and calls of httpd. Only the flash outlives a
start; the application writes no flash.

Over any events the sectors below 0x10000 stay as they are, as long as no store of
`write_flash` leaves its buffer (`loader_flash_kept`). A finished upload starts the
image, and so does every later start without the button (`upload_starts_image`); an
upload that is cut off leaves its whole blocks and nothing else, and the next start
runs into them (`cut_off_upload`).
-/

namespace AdcUdpStream.Loader

open Blocks CStr Overlay Steps

/-! ## The jump to the application -/

/-- `*(uint32_t *) a`. -/
def wordAt (mem : Nat → UInt8) (a : Nat) : UInt32 :=
  UInt32.ofNat ((mem a).toNat + 0x100 * (mem (a + 1)).toNat + 0x10000 * (mem (a + 2)).toNat +
    0x1000000 * (mem (a + 3)).toNat)

/-- The registers `jump_to_app_section` loads. -/
structure Core where
  vtor : UInt32
  sp : UInt32
  pc : UInt32
  deriving DecidableEq

/-- `VTOR` is made from the reset handler's address, not from that of the table. -/
def jumpToAppSection (mem : Nat → UInt8) : Core where
  vtor := wordAt mem 0x10004 &&& 0x1FFFFF80
  sp := wordAt mem 0x10000
  pc := wordAt mem 0x10004

/-! ## A start -/

/-- What runs: nothing, the server loop of the loader, or the application. -/
inductive Mode where
  | off
  | loader (b : Board) (s : Post Main)
  | application (c : Core)

/-- `main` up to the server loop; `pin` is `Chip_GPIO_GetPinState(LPC_GPIO, 2, 13)`. -/
def main (b : Board) (pin : Bool) (mem : Nat → UInt8) : Mode :=
  if pin then .application (jumpToAppSection mem)
  else .loader b (powerOn (eraseUserSectors b))

/-- The flash as the last start found it, and what runs since. -/
structure Device where
  flash : Flash
  mode : Mode

inductive DeviceEvent where
  | start (pin : Bool) (b : Board)
  | call (e : Event)

variable (cell : FlashCell)

/-- The flash now: the loader's commands are in its log. -/
def Device.current (d : Device) : Flash :=
  match d.mode with
  | .loader _ s => flashAfter cell d.flash s.upd.stage.flash.log
  | _ => d.flash

/-- A reset protects every sector. -/
def Flash.reset (f : Flash) : Flash := { f with prepared := fun _ => false }

/-- One event. `httpd_post_finished` does not return when it jumps. -/
def Device.step (d : Device) : DeviceEvent → Device × Option Answer
  | .start pin b => (⟨(d.current cell).reset, main b pin (d.current cell).mem⟩, none)
  | .call e =>
    match d.mode with
    | .loader b s =>
      let r := Loader.step (writeFlash b) s e
      let d' : Device := ⟨d.flash, .loader b r.1⟩
      if r.2.jumps then
        (⟨d'.current cell, .application (jumpToAppSection (d'.current cell).mem)⟩, some r.2)
      else (d', some r.2)
    | _ => (d, none)

def Device.unpowered (f : Flash) : Device := ⟨f, .off⟩

/-! ## The loader's own sectors -/

/-- A copy or an erase goes to sector 16 and above. -/
def IapCommand.AboveLoader : IapCommand → Prop
  | .prepareSectorForWrite .. => True
  | .copyRamToFlash dst .. => 0x10000 ≤ dst
  | .eraseSector s .. => 16 ≤ s

def AboveLoader (log : List IapEvent) : Prop := ∀ e ∈ log, e.command.AboveLoader

theorem aboveLoader_cons {e : IapEvent} {log : List IapEvent} :
    AboveLoader (e :: log) ↔ e.command.AboveLoader ∧ AboveLoader log := List.forall_mem_cons

theorem sectorOf_below {a : Nat} (ha : a < 0x10000) : sectorOf a < 16 := by
  rw [sectorOf, if_pos ha]
  omega

theorem exec_below {f : Flash} {e : IapEvent} (h : e.command.AboveLoader) {a : Nat}
    (ha : a < 0x10000) : (f.exec cell e).mem a = f.mem a := by
  obtain ⟨c, r⟩ := e
  have hs := sectorOf_below ha
  unfold Flash.exec
  split
  · cases c with
    | prepareSectorForWrite s t cclk => rfl
    | copyRamToFlash dst data count cclk =>
      have hd : 0x10000 ≤ dst := h
      dsimp only
      split
      · exact overlay_below (by omega)
      · rfl
    | eraseSector s t cclk =>
      have hi : 16 ≤ s := h
      exact if_neg (by omega)
  · rfl

theorem flashAfter_below {f : Flash} {log : List IapEvent} (h : AboveLoader log) {a : Nat}
    (ha : a < 0x10000) : (flashAfter cell f log).mem a = f.mem a := by
  induction log with
  | nil => rfl
  | cons e log ih =>
    obtain ⟨he, hlog⟩ := aboveLoader_cons.mp h
    rw [flashAfter_cons, exec_below cell he ha]
    exact ih hlog

/-- The address `write_flash` remembers is no address of the loader, and neither were those of its
commands. -/
structure Main.AboveLoader (m : Main) : Prop where
  flashAddress : m.flashAddress = 0 ∨ 0x10000 ≤ m.flashAddress
  log : Loader.AboveLoader m.log

section Writes

variable {b : Board} {m : Main}

theorem findErasePrepareSector_above (h : AboveLoader m.log) (cclk a : Nat) :
    (findErasePrepareSector b m cclk a).flashAddress = m.flashAddress ∧
      AboveLoader (findErasePrepareSector b m cclk a).log := by
  unfold findErasePrepareSector
  cases hf : userSectors.find? (fun i => decide (a < sectorEnd i)) with
  | none => exact ⟨rfl, h⟩
  | some i =>
    have hi := (mem_userSectors.mp (List.mem_of_find?_eq_some hf)).1
    by_cases hs : a = sectorStart i
    · simp only [if_pos hs, prepareSector, eraseSector, iapEntry, aboveLoader_cons]
      exact ⟨trivial, trivial, hi, trivial, h⟩
    · simp only [if_neg hs, prepareSector, iapEntry, aboveLoader_cons]
      exact ⟨trivial, trivial, h⟩

/-- A failed search (no sector) issues the copy all the same: its address is above every sector. -/
theorem program_above (ha : 0x10000 ≤ m.flashAddress) (h : AboveLoader m.log) :
    (m.program b).2.AboveLoader := by
  obtain ⟨haddr, hlog⟩ := findErasePrepareSector_above (b := b) h (b.systemCoreClock / 1000)
    m.flashAddress
  unfold Main.program
  generalize findErasePrepareSector b m (b.systemCoreClock / 1000) m.flashAddress = m' at *
  rw [← haddr] at ha
  have hcopy : AboveLoader (writeData b m' (b.systemCoreClock / 1000) m'.flashAddress
      m'.flashBuf flashBufSize).log := aboveLoader_cons.mpr ⟨ha, hlog⟩
  dsimp only
  split
  · exact ⟨.inr ha, hlog⟩
  · split
    · exact ⟨.inr ha, hcopy⟩
    · exact ⟨.inl rfl, hcopy⟩

/-- **A write above the loader stays above it**, whatever the ROM answers. -/
theorem writeFlash_above (hm : m.AboveLoader) {dst : Nat} (hd : 0x10000 ≤ dst) (src : List UInt8)
    (n : Nat) : (writeFlash b m dst src n).2.AboveLoader := by
  have haddr : 0x10000 ≤ (m.accumulate dst src n).flashAddress := by
    show 0x10000 ≤ (if m.flashAddress = 0 then dst else m.flashAddress)
    split
    · exact hd
    · next h0 => exact hm.flashAddress.resolve_left h0
  rw [writeFlash_eq]
  split
  · exact program_above haddr hm.log
  · exact ⟨.inr haddr, hm.log⟩

end Writes

structure Stage.AboveLoader (s : Stage Main) : Prop where
  flashPos : 0x10000 ≤ s.flashPos
  flash : s.flash.AboveLoader

section Kept

variable {b : Board}

theorem storeByte_above {s : Stage Main} (h : s.AboveLoader) (x : UInt8) :
    (storeByte (writeFlash b) s x).AboveLoader := by
  obtain ⟨hpos, hflash⟩ := h
  by_cases hlt : (s.flashCnt : Nat) + 1 < 1024
  · obtain ⟨-, -, hpos', hflash'⟩ := storeByte_lt (writeFlash b) x hlt
    exact ⟨by rwa [hpos'], by rwa [hflash']⟩
  · obtain ⟨-, hpos', hflash'⟩ := storeByte_full (writeFlash b) x hlt
    refine ⟨?_, by rw [hflash']; exact writeFlash_above hflash hpos _ _⟩
    rw [hpos']
    split <;> omega

theorem writeRest_above {s : Stage Main} (h : s.AboveLoader) :
    (writeRest (writeFlash b) s).AboveLoader := by
  obtain ⟨hpos, hflash⟩ := h
  have hwrite := writeFlash_above (b := b) hflash hpos s.dataArr.toList 1024
  rw [writeRest_eq]
  refine ⟨hpos, ?_⟩
  dsimp only
  split
  · exact hwrite
  · exact hflash

theorem octetStream_above {u : Updater Main} (h : u.stage.AboveLoader) (xs : List UInt8) :
    (octetStream (writeFlash b) u xs).1.stage.AboveLoader := by
  have hfold : (xs.foldl (storeByte (writeFlash b)) u.stage).AboveLoader := by
    generalize u.stage = s at h
    induction xs generalizing s with
    | nil => exact h
    | cons x xs ih => exact ih _ (storeByte_above h x)
  unfold octetStream
  dsimp only
  split
  · exact writeRest_above hfold
  · exact hfold

theorem step_above {s : Post Main} (h : s.upd.stage.AboveLoader) (e : Event) :
    (step (writeFlash b) s e).1.upd.stage.AboveLoader := by
  have hcall := step_call (writeFlash b) s e
  generalize step (writeFlash b) s e = r at hcall ⊢
  cases hcall with
  | @fed c p s' hj hc hupd hc' hj' hreboot =>
    rw [hupd]
    rcases feed_cases (writeFlash b) s.upd p.head with ⟨k, fw, -, -, -, hf⟩ | ⟨fw, ret, hf, -⟩
    · rw [hf]
      exact octetStream_above (u := { s.upd with fwupdate := fw }) h _
    · rw [hf]
      exact h
  | _ => exact h

theorem eraseUserSectors_above (b : Board) : (eraseUserSectors b).AboveLoader := by
  refine ⟨.inl rfl, ?_⟩
  simp only [eraseUserSectors, prepareSector, eraseSector, iapEntry, aboveLoader_cons]
  exact ⟨trivial, Nat.le_refl 16, trivial, fun e he => by cases he⟩

end Kept

/-- The bytes below 0x10000 are those of `f`, and the loader at work will not change them. -/
structure Device.Keeps (f : Flash) (d : Device) : Prop where
  below : ∀ a < 0x10000, (d.current cell).mem a = f.mem a
  serving : ∀ b s, d.mode = .loader b s → s.upd.stage.AboveLoader

theorem Device.current_below {d : Device}
    (h : ∀ b s, d.mode = .loader b s → s.upd.stage.AboveLoader) {a : Nat} (ha : a < 0x10000) :
    (d.current cell).mem a = d.flash.mem a := by
  obtain ⟨f, mode⟩ := d
  cases mode with
  | loader b s => exact flashAfter_below cell (h b s rfl).flash.log ha
  | off => rfl
  | application c => rfl

theorem keeps_step {f : Flash} {d : Device} (h : d.Keeps cell f) (e : DeviceEvent) :
    (d.step cell e).1.Keeps cell f := by
  obtain ⟨hbelow, hserving⟩ := h
  cases e with
  | start pin b =>
    have hnew : ∀ b' s, main b pin (d.current cell).mem = .loader b' s →
        s.upd.stage.AboveLoader := by
      intro b' s hs
      cases pin with
      | true => cases hs
      | false =>
        obtain ⟨rfl, rfl⟩ := Mode.loader.inj hs
        exact ⟨Nat.le_refl _, eraseUserSectors_above b⟩
    refine ⟨fun a ha => ?_, hnew⟩
    rw [Device.current_below cell hnew ha]
    exact hbelow a ha
  | call e =>
    obtain ⟨f0, mode⟩ := d
    cases mode with
    | off => exact ⟨hbelow, hserving⟩
    | application c => exact ⟨hbelow, hserving⟩
    | loader b s =>
      have hs := hserving b s rfl
      have hnext := step_above (b := b) hs e
      have hnow : ∀ a < 0x10000, ((⟨f0, .loader b (Loader.step (writeFlash b) s e).1⟩ :
          Device).current cell).mem a = f.mem a := by
        intro a ha
        rw [← hbelow a ha]
        exact (flashAfter_below cell hnext.flash.log ha).trans
          (flashAfter_below cell hs.flash.log ha).symm
      simp only [Device.step]
      split
      · exact ⟨hnow, fun b' s' hm => by cases hm⟩
      · refine ⟨hnow, fun b' s' hm => ?_⟩
        obtain ⟨-, rfl⟩ := Mode.loader.inj hm
        exact hnext

/-- Every store of the `write_flash` calls an event leads to is inside `flash_buf`. -/
def Device.StoresInside (d : Device) : DeviceEvent → Prop
  | .start _ _ => True
  | .call e => ∀ b s, d.mode = .loader b s → ∀ n ∈ entries b s [e], n.Inside

/-- **The loader never changes its own sectors**: over any starts, buttons and calls of httpd,
whatever the ROM answers at each start, the bytes below 0x10000 stay as they are, as long as no
store of `write_flash` leaves `flash_buf`. -/
theorem loader_flash_kept (f : Flash) (es : List DeviceEvent)
    (hes : Along (Device.step cell) Device.StoresInside (.unpowered f) es) (a : Nat)
    (ha : a < 0x10000) :
    ((final (Device.step cell) (.unpowered f) es).current cell).mem a = f.mem a :=
  (final_inv (I := Device.Keeps cell f) (fun _ e h _ => keeps_step cell h e)
    ⟨fun _ _ => rfl, fun _ _ h => by cases h⟩ hes).below a ha

theorem loader_flash_kept_restart :
    ((final (Device.step .nor) (.unpowered .erased) [.start false .succeeding,
      .call (.postBegin 7 (bytes "/upload") 2), .call (.receiveData 7 (.opening 0)),
      .start true .succeeding]).current .nor).mem 0 = 0xFF := by
  refine loader_flash_kept .nor .erased [.start false .succeeding,
    .call (.postBegin 7 (bytes "/upload") 2), .call (.receiveData 7 (.opening 0)),
    .start true .succeeding] ⟨trivial, ?_, ?_, trivial, trivial⟩ 0 (by decide)
  · rintro b s h
    cases h
    intro n hn
    cases hn
  · rintro b s h
    cases h
    refine (staged_run rfl _).inside.mpr fun n hn => ?_
    have hone : (entries .succeeding (step (writeFlash .succeeding)
        (powerOn (eraseUserSectors .succeeding)) (.postBegin 7 (bytes "/upload") 2)).1
        [.receiveData 7 (.opening 0)]).tail.length = 0 := by decide +kernel
    rw [entries] at hone
    rw [List.eq_nil_of_length_eq_zero hone] at hn
    cases hn

/-! ## A start with the button held -/

section Start

variable (f : Flash)

theorem eraseUserSectors_ready : (eraseUserSectors .succeeding).Ready := ⟨rfl, rfl, rfl⟩

def Flash.userErased : Flash :=
  { f with mem := fun a => if 0x10000 ≤ a ∧ a < 0x80000 then 0xFF else f.mem a }

theorem sectorOf_user_iff {a : Nat} :
    16 ≤ sectorOf a ∧ sectorOf a ≤ 29 ↔ 0x10000 ≤ a ∧ a < 0x80000 := by
  by_cases ha : a < 0x10000
  · have := sectorOf_below ha
    omega
  · rw [sectorOf_user (by omega)]
    omega

theorem flashAfter_eraseUserSectors :
    (flashAfter cell f (eraseUserSectors .succeeding).log).mem = f.userErased.mem := by
  funext a
  have hp : ∀ i, 16 ≤ i → i ≤ 29 → (decide (16 ≤ i ∧ i ≤ 29) || f.prepared i) = true :=
    fun i h1 h2 => by simp [h1, h2]
  have hs := sectorOf_user_iff (a := a)
  simp only [eraseUserSectors, prepareSector, eraseSector, iapEntry_succeeding, flashAfter_cons,
    flashAfter_nil, Flash.exec, userStartSector, maxUserSector, ↓reduceIte, Flash.userErased]
  by_cases ha : 0x10000 ≤ a ∧ a < 0x80000
  · obtain ⟨h1, h2⟩ := hs.mpr ha
    rw [if_pos ⟨h1, h2, hp _ h1 h2⟩, if_pos ha]
  · rw [if_neg fun h => ha (hs.mp ⟨h.1, h.2.1⟩), if_neg ha]

theorem Flash.userErased_erased : f.userErased.UserErased := by
  intro a h1 h2
  have hs : userFlashStart = 0x10000 := by decide
  have he : userFlashEnd = 0x7FFFF := by decide
  exact if_pos ⟨by omega, by omega⟩

theorem started_erased :
    (flashAfter cell f (eraseUserSectors .succeeding).log).UserErased := by
  intro a h1 h2
  rw [flashAfter_eraseUserSectors]
  exact f.userErased_erased a h1 h2

end Start

/-! ## Calls of a start -/

section Calls

variable {b : Board} {f : Flash}

theorem jumps_finished {s : Post Main} {e : Event}
    (h : (Loader.step (writeFlash b) s e).2.jumps = true) : ∃ c, e = .postFinished c := by
  have hcall := step_call (writeFlash b) s e
  generalize Loader.step (writeFlash b) s e = r at hcall h
  cases hcall with
  | jumps hj hr => exact ⟨_, rfl⟩
  | closes hj hr hc => exact ⟨_, rfl⟩
  | ignores hj hr hc => exact ⟨_, rfl⟩
  | _ => cases h

theorem device_calls {es : List Event} (h : ∀ e ∈ es, ∀ c, e ≠ .postFinished c) (s : Post Main) :
    final (Device.step cell) ⟨f, .loader b s⟩ (es.map .call) =
      ⟨f, .loader b (final (Loader.step (writeFlash b)) s es)⟩ := by
  induction es generalizing s with
  | nil => rfl
  | cons e es ih =>
    obtain ⟨he, hes⟩ := List.forall_mem_cons.mp h
    have hno : (Loader.step (writeFlash b) s e).2.jumps = false := by
      rw [← Bool.not_eq_true]
      intro hj
      obtain ⟨c, hc⟩ := jumps_finished hj
      exact he c hc
    have hstep : (Device.step cell ⟨f, .loader b s⟩ (.call e)).1 =
        ⟨f, .loader b (Loader.step (writeFlash b) s e).1⟩ := by
      simp only [Device.step, hno, Bool.false_eq_true, ↓reduceIte]
    rw [List.map_cons, final_cons, final_cons, hstep]
    exact ih hes _

theorem postEvents_ne (c : Conn) (uri : List UInt8) (n : Int) (ps : List Pbuf) :
    ∀ e ∈ postEvents c uri n ps, ∀ c', e ≠ .postFinished c' := by
  intro e he c'
  rcases List.mem_cons.mp he with rfl | he
  · exact Event.noConfusion
  · obtain ⟨p, -, rfl⟩ := List.mem_map.mp he
    exact Event.noConfusion

theorem held_post (d : Device) (c : Conn) (uri : List UInt8) (n : Int) (ps : List Pbuf) :
    final (Device.step cell) d
        (.start false b :: (postEvents c uri n ps).map .call) =
      ⟨(d.current cell).reset, .loader b (final (Loader.step (writeFlash b))
        (powerOn (eraseUserSectors b)) (postEvents c uri n ps))⟩ := by
  rw [final_cons]
  exact device_calls cell (postEvents_ne c uri n ps) _

end Calls

/-! ## Later starts -/

def DeviceEvent.Unpressed : DeviceEvent → Prop
  | .start pin _ => pin = true
  | .call _ => True

/-- The application runs from the flash `mem`. -/
structure Device.Runs (mem : Nat → UInt8) (d : Device) : Prop where
  flash : d.flash.mem = mem
  mode : d.mode = .application (jumpToAppSection mem)

theorem Device.Runs.current {mem : Nat → UInt8} {d : Device} (h : d.Runs mem) :
    (d.current cell).mem = mem := by
  rw [Device.current, h.mode]
  exact h.flash

theorem runs_step {mem : Nat → UInt8} {d : Device} {e : DeviceEvent} (h : d.Runs mem)
    (he : e.Unpressed) : (d.step cell e).1.Runs mem := by
  have hc := h.current cell
  cases e with
  | start pin b =>
    obtain rfl : pin = true := he
    exact ⟨hc, congrArg (fun m => Mode.application (jumpToAppSection m)) hc⟩
  | call e =>
    have hstay : d.step cell (.call e) = (d, none) := by
      simp only [Device.step, h.mode]
    rw [hstay]
    exact h

/-- **Without the button every start runs what is in flash**, and changes nothing. -/
theorem runs_later {mem : Nat → UInt8} {d : Device} (h : d.Runs mem) {es : List DeviceEvent}
    (hes : ∀ e ∈ es, e.Unpressed) : (final (Device.step cell) d es).Runs mem := by
  induction es generalizing d with
  | nil => exact h
  | cons e es ih =>
    obtain ⟨he, hes⟩ := List.forall_mem_cons.mp hes
    exact ih (runs_step cell h he) hes

theorem runs_start (d : Device) (b : Board) :
    (d.step cell (.start true b)).1.Runs (d.current cell).mem := ⟨rfl, rfl⟩

/-! ## A finished upload -/

def entry (image : List UInt8) : Core :=
  jumpToAppSection (overlay (fun _ y => y) (fun _ => 0xFF) 0x10000 image)

theorem jumpToAppSection_congr {mem mem' : Nat → UInt8}
    (h : ∀ i < 8, mem (0x10000 + i) = mem' (0x10000 + i)) :
    jumpToAppSection mem = jumpToAppSection mem' := by
  have h0 := h 0 (by decide)
  have h1 := h 1 (by decide)
  have h2 := h 2 (by decide)
  have h3 := h 3 (by decide)
  have h4 := h 4 (by decide)
  have h5 := h 5 (by decide)
  have h6 := h 6 (by decide)
  have h7 := h 7 (by decide)
  simp only [Nat.reduceAdd] at h0 h1 h2 h3 h4 h5 h6 h7
  simp only [jumpToAppSection, wordAt, Nat.reduceAdd, h0, h1, h2, h3, h4, h5, h6, h7]

theorem HoldsImage.congr {f g f' : Flash} {image : List UInt8} (h : HoldsImage f f' image)
    (hg : f.mem = g.mem) : HoldsImage g f' image :=
  ⟨h.stored, fun a ha => by rw [h.frame a ha, hg]⟩

theorem HoldsImage.of_mem {f f' g' : Flash} {image : List UInt8} (h : HoldsImage f f' image)
    (hg : g'.mem = f'.mem) : HoldsImage f g' image :=
  ⟨fun i hi => by rw [hg, h.stored i hi], fun a ha => by rw [hg, h.frame a ha]⟩

theorem HoldsImage.entry {f f' : Flash} {image : List UInt8} (h : HoldsImage f f' image)
    (h8 : 8 ≤ image.length) : jumpToAppSection f'.mem = entry image := by
  apply jumpToAppSection_congr
  intro i hi
  rw [h.stored i (by omega), overlay_at (List.getElem?_eq_getElem (by omega))]

theorem final_not_jumped {b : Board} {es : List Event}
    (h : ∀ e ∈ es, ∀ c, e ≠ .postFinished c) {s : Post Main} (hj : s.jumped = false) :
    (final (Loader.step (writeFlash b)) s es).jumped = false := by
  induction es generalizing s with
  | nil => exact hj
  | cons e es ih =>
    obtain ⟨he, hes⟩ := List.forall_mem_cons.mp h
    refine ih hes ?_
    have hcall := step_call (writeFlash b) s e
    generalize Loader.step (writeFlash b) s e = r at hcall
    cases hcall with
    | fed hj hc hupd hc' hj' hreboot => exact hj'
    | @jumps c hj hr => exact absurd rfl (he c)
    | _ => exact hj

theorem device_finished {b : Board} {f : Flash} {s : Post Main} (hj : s.jumped = false)
    (hr : s.reboot = true) (c : Conn) :
    (Device.step cell ⟨f, .loader b s⟩ (.call (.postFinished c))).1.Runs
      (flashAfter cell f s.upd.stage.flash.log).mem := by
  have hstep : Loader.step (writeFlash b) s (.postFinished c) =
      ({ s with jumped := true }, { jumps := true }) := by
    rw [step_of_running _ hj]
    exact if_pos hr
  simp only [Device.step, hstep, ↓reduceIte]
  exact ⟨rfl, rfl⟩

/-- **A finished upload starts the image.** From any state of the board: a start with the button
held, an upload, its end. The application runs from the first words of the image, flash holds the
image in erased sectors, and every later start without the button finds the same. -/
theorem upload_starts_image (d : Device) (U : Upload) (c : Conn) (uri : List UInt8)
    (later : List DeviceEvent) (hu : startsWith uri (bytes "/upload")) (hU : U.Unchained)
    (h8 : 8 ≤ U.data.length) (hfit : U.data.length ≤ 0x70000)
    (hlater : ∀ e ∈ later, e.Unpressed) :
    (final (Device.step cell) d (.start false .succeeding ::
        (U.events c uri).map .call ++ .call (.postFinished c) :: later)).mode =
      .application (entry U.data) ∧
    HoldsImage (d.current cell).userErased ((final (Device.step cell) d
      (.start false .succeeding :: (U.events c uri).map .call ++
        .call (.postFinished c) :: later)).current cell) U.data := by
  have hpost : U.events c uri = postEvents c uri U.contentLen U.pbufs := rfl
  have hheld := held_post cell (b := .succeeding) d c uri U.contentLen U.pbufs
  obtain ⟨hupd, -, hreb⟩ := post_run succeedingFlash (c := c) (n := U.contentLen)
    (f := eraseUserSectors .succeeding) U.pbufs hu
  obtain ⟨hfinal, houts⟩ := Upload.run succeedingFlash (U := U)
    (u := ((powerOn (eraseUserSectors .succeeding)).opened c U.contentLen).upd) hU rfl rfl rfl
  have hjump := final_not_jumped (b := .succeeding)
    (postEvents_ne c uri U.contentLen U.pbufs) (s := powerOn (eraseUserSectors .succeeding)) rfl
  have hreboot := hreb.mpr (by
    rw [show U.pbufs.map Pbuf.head = U.segments from rfl, houts]
    exact List.mem_append_right _ (List.mem_singleton_self _))
  have himage : HoldsImage (d.current cell).userErased _ U.data :=
    (stream_image_of_ready cell eraseUserSectors_ready
      (started_erased cell (d.current cell).reset) hfit).congr
      (flashAfter_eraseUserSectors cell (d.current cell).reset)
  rw [hpost, final_append, hheld, final_cons]
  generalize final (Loader.step (writeFlash .succeeding)) (powerOn (eraseUserSectors .succeeding))
    (postEvents c uri U.contentLen U.pbufs) = s at hupd hjump hreboot ⊢
  have hruns := runs_later cell (device_finished cell (b := .succeeding)
    (f := (d.current cell).reset) hjump hreboot c) hlater
  have hlog : s.upd.stage.flash.log = (writeRest succeedingFlash (U.data.foldl
      (storeByte succeedingFlash) (.powerOn (eraseUserSectors .succeeding)))).flash.log := by
    rw [hupd, show U.pbufs.map Pbuf.head = U.segments from rfl, hfinal, octetStream_done]
    · rfl
    · simp only [Fwupdate.armed, Post.opened, powerOn, Upload.contentLen, List.length_append]
      omega
  rw [hlog] at hruns
  refine ⟨?_, himage.of_mem ?_⟩
  · rw [hruns.mode, himage.entry h8]
  · exact hruns.current cell

def Upload.whole (data : List UInt8) (hne : data ≠ [])
    (hlen : (Preamble.plain.bytes ++ data).length < 0x10000) : Upload where
  preamble := .plain
  data := data
  pbufs := [.single (Preamble.plain.bytes ++ data) hlen]
  data_ne := hne
  nonempty := by
    intro p hp
    rw [List.mem_singleton.mp hp]
    have := List.length_pos_iff.mpr hne
    show 0 < (Preamble.plain.bytes ++ data).length + 0
    rw [List.length_append]
    omega
  bytes_eq := by simp [Pbuf.bytes, Pbuf.single]
  first := by
    intro p hp
    obtain rfl := Option.some.inj hp
    exact List.prefix_append _ _

def vectors : Upload :=
  .whole [0x00, 0x80, 0x00, 0x10, 0x31, 0x01, 0x01, 0x00] (List.cons_ne_nil _ _) (by decide)

theorem upload_starts_vectors :
    (final (Device.step .nor) (.unpowered .erased) (.start false .succeeding ::
      (vectors.events 7 (bytes "/upload")).map .call ++
        .call (.postFinished 7) :: [.start true .succeeding])).mode =
      .application ⟨0x10100, 0x10008000, 0x10131⟩ := by
  have h := (upload_starts_image .nor (.unpowered .erased) vectors 7 (bytes "/upload")
    [.start true .succeeding] (by decide) (fun p hp => by rw [List.mem_singleton.mp hp]; rfl) (by decide)
    (by decide) (fun e he => by rw [List.mem_singleton.mp he]; rfl)).1
  rw [h]
  congr 1

/-! ## An upload that is cut off -/

section CutOff

variable {U : Upload}

def Upload.delivered (U : Upload) (k : Nat) : List UInt8 :=
  (bodyBytes (U.pbufs.take k)).drop U.preamble.bytes.length

/-- The longest prefix of whole blocks. -/
def wholeBlocks (xs : List UInt8) : List UInt8 := xs.take (1024 * (xs.length / 1024))

theorem payloads_heads {ps : List Pbuf} (h : ∀ p ∈ ps, p.next = []) :
    payloads (ps.map Pbuf.head) = bodyBytes ps := by
  rw [payloads, bodyBytes, List.map_map]
  congr 1
  exact List.map_congr_left fun p hp => (Pbuf.bytes_of_len (Pbuf.totLen_of_next (h p hp))).symm

theorem Upload.take_lt {k : Nat} (hk : k < U.pbufs.length) :
    ((bodyBytes (U.pbufs.take k)).length : Int) < U.contentLen := by
  have hsplit : bodyBytes (U.pbufs.take k) ++ bodyBytes (U.pbufs.drop k) =
      U.preamble.bytes ++ U.data := by
    rw [← bodyBytes_append, List.take_append_drop]
    exact U.bytes_eq
  have hlen := congrArg List.length hsplit
  have hdrop : U.pbufs.drop k = U.pbufs[k] :: U.pbufs.drop (k + 1) := List.drop_eq_getElem_cons hk
  have hpos := U.nonempty _ (List.getElem_mem hk)
  have hrest : 0 < (bodyBytes (U.pbufs.drop k)).length := by
    rw [hdrop, bodyBytes, List.map_cons, List.flatten_cons, List.length_append,
      Pbuf.bytes_length]
    omega
  rw [Upload.contentLen, ← hlen, List.length_append]
  omega

/-- **The pbufs before the last one are streamed.** -/
theorem Upload.prefix_run {F : Type} (wf : WriteFlash F) {u : Updater F} (h : U.Unchained)
    (hs : u.fwupdate.state = .octetStart) (hn : u.fwupdate.contentLength = U.contentLen)
    (hc : u.curlen = 0) {k : Nat} (hk : k < U.pbufs.length) :
    (final (feed wf) u ((U.pbufs.take k).map Pbuf.head)).stage =
      (U.delivered k).foldl (storeByte wf) u.stage := by
  have hbytes := payloads_heads fun p (hp : p ∈ U.pbufs.take k) => h p (List.mem_of_mem_take hp)
  have hlt := U.take_lt hk
  have hne : ∀ q ∈ (U.pbufs.take k).map Pbuf.head, q.payload ≠ [] := by
    intro q hq
    obtain ⟨p, hp, rfl⟩ := List.mem_map.mp hq
    exact U.segment_ne h _ (List.mem_map_of_mem (List.mem_of_mem_take hp))
  have hfirst := U.first
  unfold Upload.delivered
  rw [← hbytes] at hlt ⊢
  rcases hp : U.pbufs with _ | ⟨p, ps⟩
  · exact absurd hp U.pbufs_ne
  rw [hp] at hlt hne hfirst
  cases k with
  | zero => simp
  | succ k =>
    rw [List.take_succ_cons, List.map_cons] at hlt hne ⊢
    have hpre : U.preamble.bytes <+: p.head.payload := hfirst p rfl
    obtain ⟨o, htag, ho⟩ := U.preamble.strstr_mem hpre
    have hP := hpre.length_le
    have hcons := congrArg List.length (payloads_cons p.head ((ps.take k).map Pbuf.head))
    rw [List.length_append] at hcons
    have hlen : U.contentLen = (U.preamble.bytes.length + U.data.length : Nat) := by
      rw [contentLen, List.length_append]
    have hdata : 0 < U.data.length := List.length_pos_iff.mpr U.data_ne
    have hlast : (ps.take k).map Pbuf.head ≠ [] → u.curlen +
        (payloads (p.head :: (ps.take k).map Pbuf.head).dropLast).length <
          u.fwupdate.contentLength := by
      intro _
      have hsplit := List.dropLast_append_getLast
        (List.cons_ne_nil p.head ((ps.take k).map Pbuf.head))
      have hsum := congrArg (fun l => (payloads l).length) hsplit
      simp only [payloads_append, List.length_append] at hsum
      omega
    obtain ⟨hfinal, -⟩ := body_run wf hs hpre htag ho
      (fun r hr => hne r (List.mem_cons_of_mem _ hr)) (.inr (by omega)) hlast
    rw [hfinal, octetStream_inprogress]
    rw [List.length_drop]
    simp only [Fwupdate.armed]
    omega

theorem Upload.delivered_prefix (U : Upload) (k : Nat) : U.delivered k <+: U.data := by
  have hsplit : bodyBytes (U.pbufs.take k) ++ bodyBytes (U.pbufs.drop k) =
      U.preamble.bytes ++ U.data := by
    rw [← bodyBytes_append, List.take_append_drop]
    exact U.bytes_eq
  have hdrop := congrArg (List.drop U.preamble.bytes.length) hsplit
  rw [List.drop_append, List.drop_left] at hdrop
  exact ⟨_, hdrop⟩

theorem flashAfter_stream (f : Flash) (xs : List UInt8) (hfit : xs.length ≤ 0x70000) :
    (flashAfter cell f (xs.foldl (storeByte succeedingFlash)
      (.powerOn (eraseUserSectors .succeeding))).flash.log).mem =
      overlay (fun _ y => y) f.userErased.mem 0x10000 (wholeBlocks xs) := by
  obtain ⟨-, -, -, hlog⟩ := foldl_ready (s := Stage.powerOn (eraseUserSectors .succeeding))
    eraseUserSectors_ready xs
  have hlog' : (xs.foldl (storeByte succeedingFlash)
      (.powerOn (eraseUserSectors .succeeding))).flash.log =
        blocksLog (placed 1024 0x10000 (fill 1024 [] xs).1) ++
          (eraseUserSectors .succeeding).log := hlog
  have h0 : ([] : List UInt8).length < 1024 := by decide
  obtain ⟨hcount, hwhole⟩ := fill_whole (n := 1024) (by decide) xs
  rw [hlog', flashAfter_append, flashAfter_blocksLog cell (by omega) (by omega) (by omega)
    (fill_block_length h0 xs) (started_erased cell f).above, hwhole,
    flashAfter_eraseUserSectors]
  rfl

end CutOff

theorem entry_userErased (f : Flash) (image : List UInt8) :
    jumpToAppSection (overlay (fun _ y => y) f.userErased.mem 0x10000 image) = entry image := by
  apply jumpToAppSection_congr
  intro i hi
  apply overlay_congr
  exact if_pos ⟨by omega, by omega⟩

theorem entry_congr {xs ys : List UInt8} (h : ∀ i < 8, xs[i]? = ys[i]?) : entry xs = entry ys := by
  apply jumpToAppSection_congr
  intro i hi
  simp only [overlay, Nat.le_add_right, ↓reduceIte, Nat.add_sub_cancel_left, h i hi]

theorem entry_wholeBlocks {xs ys : List UInt8} (h : xs <+: ys) (hlen : 1024 ≤ xs.length) :
    entry (wholeBlocks xs) = entry ys := by
  obtain ⟨rest, rfl⟩ := h
  apply entry_congr
  intro i hi
  rw [wholeBlocks, List.getElem?_take_of_lt (by omega), List.getElem?_append_left (by omega)]

theorem entry_nil : entry [] = ⟨0x1FFFFF80, 0xFFFFFFFF, 0xFFFFFFFF⟩ := by decide

/-- **A cut-off upload.** The power fails before the last pbuf: user flash holds the whole blocks
that were delivered, and is erased behind them. The next start without the button, and every later
one, runs what they hold, and into 0xFFFFFFFF when the first block was not complete. -/
theorem cut_off_upload (d : Device) (U : Upload) (c : Conn) (uri : List UInt8) (k : Nat)
    (b : Board) (later : List DeviceEvent) (hu : startsWith uri (bytes "/upload"))
    (hU : U.Unchained) (hk : k < U.pbufs.length) (hfit : U.data.length ≤ 0x70000)
    (hlater : ∀ e ∈ later, e.Unpressed) :
    (final (Device.step cell) d (.start false .succeeding ::
        (postEvents c uri U.contentLen (U.pbufs.take k)).map .call ++
          .start true b :: later)).Runs
      (overlay (fun _ y => y) (d.current cell).userErased.mem 0x10000
        (wholeBlocks (U.delivered k))) ∧
    (final (Device.step cell) d (.start false .succeeding ::
        (postEvents c uri U.contentLen (U.pbufs.take k)).map .call ++
          .start true b :: later)).mode =
      .application (if (U.delivered k).length < 1024 then ⟨0x1FFFFF80, 0xFFFFFFFF, 0xFFFFFFFF⟩
        else entry U.data) := by
  have hheld := held_post cell (b := .succeeding) d c uri U.contentLen (U.pbufs.take k)
  obtain ⟨hupd, -, -⟩ := post_run succeedingFlash (c := c) (n := U.contentLen)
    (f := eraseUserSectors .succeeding) (U.pbufs.take k) hu
  have hstage := U.prefix_run succeedingFlash
    (u := ((powerOn (eraseUserSectors .succeeding)).opened c U.contentLen).upd) hU rfl rfl rfl hk
  have hle := (U.delivered_prefix k).length_le
  have hmem := flashAfter_stream cell (d.current cell).reset (U.delivered k) (by omega)
  rw [final_append, hheld, final_cons]
  generalize final (Loader.step (writeFlash .succeeding)) (powerOn (eraseUserSectors .succeeding))
    (postEvents c uri U.contentLen (U.pbufs.take k)) = s at hupd ⊢
  have hnow : (Device.current cell ⟨(d.current cell).reset, .loader .succeeding s⟩).mem =
      overlay (fun _ y => y) (d.current cell).userErased.mem 0x10000
        (wholeBlocks (U.delivered k)) := by
    show (flashAfter cell _ s.upd.stage.flash.log).mem = _
    rw [hupd, hstage]
    exact hmem
  have hruns := runs_later cell (runs_start cell
    ⟨(d.current cell).reset, .loader .succeeding s⟩ b) hlater
  rw [hnow] at hruns
  refine ⟨hruns, ?_⟩
  rw [hruns.mode, entry_userErased]
  split
  · next hlt =>
    rw [wholeBlocks, Nat.div_eq_of_lt hlt, ← entry_nil]
    rfl
  · next hge => rw [entry_wholeBlocks (U.delivered_prefix k) (by omega)]

theorem cut_off_pair :
    (final (Device.step .nor) (.unpowered .erased) (.start false .succeeding ::
        (postEvents 7 (bytes "/upload") (Upload.pair 1 2).contentLen
          ((Upload.pair 1 2).pbufs.take 1)).map .call ++ .start true .succeeding :: [])).mode =
      .application ⟨0x1FFFFF80, 0xFFFFFFFF, 0xFFFFFFFF⟩ :=
  (cut_off_upload .nor (.unpowered .erased) (Upload.pair 1 2) 7 (bytes "/upload") 1 .succeeding []
    (by decide) (Upload.pair_unchained 1 2) (by decide) (by decide)
    (fun e he => by cases he)).2

end AdcUdpStream.Loader
