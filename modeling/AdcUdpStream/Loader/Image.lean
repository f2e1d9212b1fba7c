import AdcUdpStream.Loader.Stream
import AdcUdpStream.Loader.Upload

/-!
# The image an upload leaves in flash

A finished stream from an empty block writes its bytes, padded to whole blocks,
at consecutive addresses (`stream_blocks`); on erased user flash these bytes are
the image (`stream_image`). With the run of an upload this is the end-to-end
statement for one upload from power-on (`upload_stores_image`).
-/

namespace AdcUdpStream.Loader

open Blocks CStr Overlay Steps

/-! ## The blocks of a stream -/

section Blocks

variable {s : Stage Main} {xs : List UInt8}

theorem Stage.dataArr_split (s : Stage Main) :
    s.dataArr.toList = s.pend ++ s.dataArr.toList.drop s.flashCnt :=
  (List.take_append_drop ..).symm

/-- **A stream and the write of its rest are whole blocks**: the bytes, then padding. -/
theorem stream_blocks (hs : s.flash.Ready) (hpend : s.pend = []) (xs : List UInt8) :
    ∃ bs pad, (writeRest succeedingFlash (xs.foldl (storeByte succeedingFlash) s)).flash.log =
        blocksLog (placed 1024 s.flashPos bs) ++ s.flash.log ∧
      (∀ b ∈ bs, b.length = 1024) ∧ bs.flatten = xs ++ pad ∧
      bs.length = (xs.length + 1023) / 1024 := by
  obtain ⟨hready, hp, hpos, hlog⟩ := foldl_ready hs xs
  obtain ⟨-, hrest⟩ := writeRest_ready hready
  rw [hpend] at hp hpos hlog
  rw [hlog, hpos] at hrest
  generalize xs.foldl (storeByte succeedingFlash) s = t at hp hrest
  have h0 : ([] : List UInt8).length < 1024 := by decide
  have hblocks := fill_block_length h0 xs
  have hflat := fill_flatten (n := 1024) [] xs
  have hcount := fill_count h0 xs
  have hcnt : (t.flashCnt : Nat) = (fill 1024 [] xs).2.length := by
    rw [← hp, Stage.pend_length]
  rw [← hp, List.nil_append] at hflat
  rw [← hcnt, List.length_nil, Nat.zero_add] at hcount
  have hlt := t.flashCnt.isLt
  by_cases h : 0 < (t.flashCnt : Nat)
  · -- a rest: one more block, padded with what the array held
    rw [if_pos h] at hrest
    refine ⟨(fill 1024 [] xs).1 ++ [t.dataArr.toList], t.dataArr.toList.drop t.flashCnt, ?_, ?_,
      ?_, ?_⟩
    · rw [hrest, placed_append, blocksLog_append, List.append_assoc]
      rfl
    · intro b hb
      rcases List.mem_append.mp hb with hb | hb
      · exact hblocks b hb
      · rw [List.mem_singleton.mp hb, Vector.length_toList]
    · rw [List.flatten_append, List.flatten_singleton, t.dataArr_split, ← List.append_assoc, hflat,
        ← t.dataArr_split]
    · rw [List.length_append, List.length_singleton]
      omega
  · -- the last byte filled a block
    rw [if_neg h] at hrest
    have hnil : t.pend = [] := List.eq_nil_of_length_eq_zero (by rw [Stage.pend_length]; omega)
    rw [hnil, List.append_nil] at hflat
    exact ⟨(fill 1024 [] xs).1, [], hrest, hblocks, by rw [hflat, List.append_nil], by omega⟩

end Blocks

/-! ## The image -/

variable (cell : FlashCell) {f : Flash}

/-- `f'` holds `image` at 0x10000, and differs from `f` in the blocks of the image only. -/
structure HoldsImage (f f' : Flash) (image : List UInt8) : Prop where
  stored : ∀ i (h : i < image.length), f'.mem (0x10000 + i) = image[i]
  frame : ∀ a, a < 0x10000 ∨ 0x10000 + 1024 * ((image.length + 1023) / 1024) ≤ a →
    f'.mem a = f.mem a

theorem Flash.UserErased.above (h : f.UserErased) :
    ∀ x, 0x10000 ≤ x → x < 0x80000 → f.mem x = 0xFF := by
  intro x h1 h2
  have hs : userFlashStart = 0x10000 := by decide
  have he : userFlashEnd = 0x7FFFF := by decide
  exact h x (by omega) (by omega)

abbrev Stage.init : Stage Main := .powerOn {}

theorem Stage.init_pend : Stage.init.pend = [] := rfl

theorem Main.ready_init : Main.Ready {} := ⟨rfl, rfl, rfl⟩

/-- **A finished stream is the image**, over a driver at rest whose commands so far left user flash
erased. -/
theorem stream_image_of_ready {m : Main} (hm : m.Ready) (hf : (flashAfter cell f m.log).UserErased)
    {image : List UInt8} (hfit : image.length ≤ 0x70000) :
    HoldsImage (flashAfter cell f m.log) (flashAfter cell f
      (writeRest succeedingFlash
        (image.foldl (storeByte succeedingFlash) (.powerOn m))).flash.log) image := by
  obtain ⟨bs, pad, hlog, hblocks, hflat, hlen⟩ :=
    stream_blocks (s := Stage.powerOn m) hm rfl image
  have hlog' : (writeRest succeedingFlash
      (image.foldl (storeByte succeedingFlash) (.powerOn m))).flash.log =
        blocksLog (placed 1024 0x10000 bs) ++ m.log := hlog
  have hmem := flashAfter_blocksLog cell (f := flashAfter cell f m.log) (a := 0x10000) (by omega)
    (by omega) (by omega) hblocks hf.above
  rw [hlog', flashAfter_append]
  have htotal : bs.flatten.length = 1024 * ((image.length + 1023) / 1024) := by
    rw [flatten_length hblocks, hlen]
  constructor
  · intro i hi
    have hget : bs.flatten[i]? = some image[i] := by
      rw [hflat, List.getElem?_append_left hi, List.getElem?_eq_getElem hi]
    rw [hmem, overlay_at hget]
  · intro a ha
    rw [hmem, overlay_of_not_mem]
    rw [htotal]
    omega

/-- **A finished stream is the image**, from the power-on values on erased user flash. -/
theorem stream_image (hf : f.UserErased) {image : List UInt8} (hfit : image.length ≤ 0x70000) :
    HoldsImage f (flashAfter cell f
      (writeRest succeedingFlash (image.foldl (storeByte succeedingFlash) Stage.init)).flash.log)
      image :=
  stream_image_of_ready cell Main.ready_init hf hfit

/-! ## One upload from power-on -/

section Upload

variable {F : Type} (wf : WriteFlash F) {U : Upload} {c : Conn} {uri : List UInt8} {s : Post F}

/-- The upload from a state without a session: begin is accepted, and the state machine runs over
the segments from the armed state. -/
theorem upload_run (hu : startsWith uri (bytes "/upload")) (hc : s.currentConnection = none)
    (hj : s.jumped = false) :
    ∃ u : Updater F, u.fwupdate.state = .octetStart ∧ u.fwupdate.contentLength = U.contentLen ∧
      u.curlen = s.upd.curlen ∧ u.stage = s.upd.stage ∧
      ((outs (step wf) s (U.events c uri)).head?.map Answer.err = some .ok) ∧
      (final (step wf) s (U.events c uri)).upd = final (feed wf) u U.segments ∧
      statuses (outs (step wf) s (U.events c uri)) = outs (feed wf) u U.segments ∧
      ((final (step wf) s (U.events c uri)).reboot = true ↔
        s.reboot = true ∨ .done ∈ outs (feed wf) u U.segments) := by
  have hne : s.currentConnection ≠ some c := by simp [hc]
  have hbegin : step wf s (.postBegin c uri U.contentLen) = _ :=
    (show step wf s (.postBegin c uri U.contentLen) = httpdPostBegin s c uri U.contentLen by
      unfold step; rw [hj]; rfl).trans (begin_accepted hu hne)
  obtain ⟨h1, h2, -, -, h5⟩ := receive_run wf (c := c)
    (s := (step wf s (.postBegin c uri U.contentLen)).1) U.pbufs (by rw [hbegin]) (by
      rw [hbegin]; exact hj)
  rw [hbegin] at h1 h2 h5
  refine ⟨{ s.upd with
    fwupdate.state := .octetStart
    fwupdate.contentLength := U.contentLen }, rfl, rfl, rfl, rfl, ?_, ?_, ?_, ?_⟩
  · rw [Upload.events, outs_cons, hbegin]
    rfl
  · rw [Upload.events, final_cons, hbegin]
    exact h1
  · rw [Upload.events, outs_cons, hbegin]
    exact h2
  · rw [Upload.events, final_cons, hbegin]
    exact h5

end Upload

/-- **End-to-end upload.** A well-formed upload from power-on on erased user flash, every IAP
command succeeding: begin is accepted, the last pbuf and no other is answered `DONE`, and flash
holds the data at 0x10000 with nothing outside its blocks changed. -/
theorem upload_stores_image (cell : FlashCell) (f : Flash) (U : Upload) (c : Conn)
    (uri : List UInt8) (hf : f.UserErased) (hu : startsWith uri (bytes "/upload"))
    (hU : U.Unchained) (hfit : U.data.length ≤ 0x70000) :
    (outs (step succeedingFlash) (powerOn {}) (U.events c uri)).head?.map Answer.err = some .ok ∧
      statuses (outs (step succeedingFlash) (powerOn {}) (U.events c uri)) = U.answers ∧
      HoldsImage f (flashAfter cell f
        (final (step succeedingFlash) (powerOn {}) (U.events c uri)).upd.stage.flash.log)
        U.data := by
  obtain ⟨u, hstate, hn, hcur, hstage, hbegin, hupd, hst, -⟩ :=
    upload_run succeedingFlash (U := U) (c := c) (s := powerOn {}) hu rfl rfl
  obtain ⟨hfinal, houts⟩ := Upload.run succeedingFlash hU hstate hn hcur
  refine ⟨hbegin, hst.trans houts, ?_⟩
  rw [hupd, hfinal, octetStream_done]
  · have := stream_image cell hf hfit
    rw [show u.stage = Stage.init from hstage]
    exact this
  · rw [hcur]
    simp only [Fwupdate.armed, hn, Upload.contentLen, powerOn, List.length_append]
    omega

def Flash.erased : Flash := ⟨fun _ => 0xFF, fun _ => false⟩

theorem upload_stores_image_pair :
    statuses (outs (step succeedingFlash) (powerOn {})
        ((Upload.pair 1 2).events 7 (bytes "/upload"))) = [.inprogress, .done] ∧
      HoldsImage .erased (flashAfter .nor .erased
        (final (step succeedingFlash) (powerOn {})
          ((Upload.pair 1 2).events 7 (bytes "/upload"))).upd.stage.flash.log) [1, 2] :=
  (upload_stores_image .nor .erased (Upload.pair 1 2) 7 (bytes "/upload") (fun _ _ _ => rfl)
    (by decide) (Upload.pair_unchained 1 2) (by decide)).2

end AdcUdpStream.Loader
