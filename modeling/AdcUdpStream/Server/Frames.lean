import AdcUdpStream.Lib.BigEndian
import AdcUdpStream.Server.DataLoop

/-!
# What a frame says

A receiver reads 0x55 0x33 and then ten words, high byte first: the id, eight channels
and the digital word. The id and the channels are those of the frame's number, whatever
`pbuf_alloc` does (`decode_sample`). The digital word is not: both its bytes are the
low byte of four times the number (`frame_decodes_iff`).
-/

namespace AdcUdpStream.Server

open Steps

structure AMessage where
  ucMessageID : UInt16
  adcData : Vector UInt16 8
  digitalData : UInt16
  deriving DecidableEq

/-- The message in the words behind the mark. -/
def AMessage.ofWords : List UInt16 → Option AMessage
  | [id, c0, c1, c2, c3, c4, c5, c6, c7, digital] =>
    some ⟨id, #v[c0, c1, c2, c3, c4, c5, c6, c7], digital⟩
  | _ => none

def decode : List UInt8 → Option AMessage
  | b0 :: b1 :: bs => if b0 = 0x55 ∧ b1 = 0x33 then AMessage.ofWords (BigEndian.words bs) else none
  | _ => none

/-- The frame decodes to the `n`-th sample: id and digital word count the frames and the channels
are a saw tooth. -/
def IsSample (frame : List UInt8) (n : Nat) : Prop :=
  ∃ m, decode frame = some m ∧ m.ucMessageID.toNat = n % 2 ^ 16 ∧
    (∀ c ∈ m.adcData, c.toNat = n % 4096) ∧ m.digitalData.toNat = 4 * n % 2 ^ 16

/-- The id and the channels are read as they were written; the digital word is read from the low
byte alone. -/
theorem decode_outBuffer (sampleId analog : UInt16) :
    decode (outBuffer sampleId analog) =
      some ⟨sampleId, Vector.replicate 8 analog,
        BigEndian.word (sampleId <<< 2).toUInt8 ((sampleId <<< 2) &&& 0x00ff).toUInt8⟩ := by
  have hwords : outBuffer sampleId analog = (0x55 : UInt8) :: 0x33 ::
      ((sampleId :: List.replicate 8 analog).flatMap BigEndian.bytes ++
        [(sampleId <<< 2).toUInt8, ((sampleId <<< 2) &&& 0x00ff).toUInt8]) := rfl
  rw [hwords, decode, if_pos ⟨rfl, rfl⟩, BigEndian.words_flatMap_append]
  rfl

/-- Both bytes of the digital word are the low byte of four times the id. -/
theorem digital_toNat (x : UInt16) :
    (BigEndian.word (x <<< 2).toUInt8 ((x <<< 2) &&& 0x00ff).toUInt8).toNat =
      257 * (4 * x.toNat % 256) := by
  have hshift : (x <<< 2).toNat = 4 * x.toNat % 2 ^ 16 := by
    rw [UInt16.toNat_shiftLeft]
    show x.toNat <<< 2 % 2 ^ 16 = _
    rw [Nat.shiftLeft_eq, Nat.mul_comm]
  have hmask : ((x <<< 2) &&& 0x00ff).toNat = 4 * x.toNat % 256 := by
    rw [UInt16.toNat_and, hshift]
    show 4 * x.toNat % 2 ^ 16 &&& (2 ^ 8 - 1) = _
    rw [Nat.and_two_pow_sub_one_eq_mod]
    omega
  rw [BigEndian.word_toNat, UInt16.toNat_toUInt8, UInt16.toNat_toUInt8, hshift, hmask]
  omega

/-! ## Runs -/

structure Numbered (s : DataLoop) (n : Nat) : Prop where
  sampleId : s.sampleId.toNat = n % 2 ^ 16
  analog : s.analog.toNat = n % 4096

theorem numbered_start : Numbered {} 0 := ⟨rfl, rfl⟩

theorem Numbered.sample {s : DataLoop} {n : Nat} (h : Numbered s n) (allocOk : Bool) :
    Numbered (sample s allocOk).1 (n + 1) := by
  obtain ⟨hid, hanalog⟩ := h
  obtain ⟨buf, cnt, hnext⟩ := buildFrame_statics { s with freqFlag := 0 } allocOk
  unfold Server.sample
  rw [hnext]
  have hsucc : (s.analog + 1).toNat = n % 4096 + 1 := by
    rw [UInt16.toNat_add, hanalog]
    show (n % 4096 + 1) % 2 ^ 16 = _
    omega
  constructor
  · show (s.sampleId + 1).toNat = (n + 1) % 2 ^ 16
    rw [UInt16.toNat_add, hid]
    show (n % 2 ^ 16 + 1) % 2 ^ 16 = _
    omega
  · show (if s.analog + 1 > 4095 then 0 else s.analog + 1 : UInt16).toNat = (n + 1) % 4096
    have hreset : s.analog + 1 > 4095 ↔ n % 4096 + 1 > 4095 := by
      rw [gt_iff_lt, UInt16.lt_iff_toNat_lt, hsucc]
      rfl
    by_cases hfull : n % 4096 + 1 > 4095
    · rw [if_pos (hreset.mpr hfull)]
      show 0 = _
      omega
    · rw [if_neg fun h => hfull (hreset.mp h), hsucc]
      omega

theorem numbered_run (as : List Bool) : Numbered (final sample {} as) as.length := by
  induction as using List.reverseRecOn with
  | nil => exact numbered_start
  | append_singleton as a ih =>
    rw [final_append, List.length_append]
    exact ih.sample a

theorem decode_sample (as : List Bool) (a : Bool) :
    ∃ m, decode (sample (final sample {} as) a).2.frame = some m ∧
      m.ucMessageID.toNat = as.length % 2 ^ 16 ∧ (∀ c ∈ m.adcData, c.toNat = as.length % 4096) ∧
      m.digitalData.toNat = 257 * (4 * as.length % 256) := by
  obtain ⟨hid, hanalog⟩ := numbered_run as
  generalize final sample {} as = s at hid hanalog
  have hframe : (sample s a).2.frame = outBuffer s.sampleId s.analog := by
    unfold sample buildFrame
    dsimp only
    split
    · split
      · rfl
      · rfl
    · rfl
  rw [hframe]
  refine ⟨_, decode_outBuffer s.sampleId s.analog, hid, fun c hc => ?_, ?_⟩
  · rw [Vector.eq_of_mem_replicate hc]
    exact hanalog
  · rw [digital_toNat, hid]
    omega

theorem bytes_alike_iff (n : Nat) : 257 * (4 * n % 256) = 4 * n % 2 ^ 16 ↔ 257 ∣ n % 2 ^ 14 := by
  have hlow : 4 * n % 256 = 4 * (n % 64) := Nat.mul_mod_mul_left 4 n 64
  have hword : 4 * n % 2 ^ 16 = 4 * (n % 2 ^ 14) := Nat.mul_mod_mul_left 4 n (2 ^ 14)
  have hmod : n % 64 = n % 2 ^ 14 % 64 := (Nat.mod_mod_of_dvd n (by decide)).symm
  have hlt : n % 2 ^ 14 < 2 ^ 14 := Nat.mod_lt n (by decide)
  rw [hlow, hword, hmod]
  generalize n % 2 ^ 14 = r at hlt
  constructor
  · intro h
    exact ⟨r % 64, by omega⟩
  · rintro ⟨k, rfl⟩
    omega

/-- **When a frame decodes to its sample.** For every number of frames before it and every sequence
of `pbuf_alloc` outcomes with which these are stored inside `send_buffer`: the frame with the number
`n` says the sample `n` if and only if `n mod 16384` is a multiple of 257. -/
theorem frame_decodes_iff (as : List Bool) (a : Bool) (_ : ∀ p ∈ outs sample {} as, p.Inside) :
    IsSample (sample (final sample {} as) a).2.frame as.length ↔ 257 ∣ as.length % 2 ^ 14 := by
  obtain ⟨m, hm, hid, hchannels, hdigital⟩ := decode_sample as a
  constructor
  · rintro ⟨m', hm', -, -, hdigital'⟩
    obtain rfl := Option.some.inj (hm.symm.trans hm')
    exact (bytes_alike_iff _).mp (hdigital.symm.trans hdigital')
  · intro hdvd
    exact ⟨m, hm, hid, hchannels, hdigital.trans ((bytes_alike_iff _).mpr hdvd)⟩

theorem frame_decodes_iff_257 :
    IsSample (sample (final sample {} (List.replicate 257 true)) true).2.frame 257 := by
  have h := frame_decodes_iff (List.replicate 257 true) true (by decide +kernel)
  rw [List.length_replicate] at h
  exact h.mpr (by decide)

/-- The second frame says 0x0404 for 4. -/
theorem digital_garbled :
    ¬ ∀ (as : List Bool) (a : Bool),
      IsSample (sample (final sample {} as) a).2.frame as.length := by
  intro h
  obtain ⟨m, hm, -, -, hdigital⟩ := h [true] true
  have hread : decode (sample (final sample {} [true]) true).2.frame =
      some ⟨1, Vector.replicate 8 1, 0x0404⟩ := by decide
  rw [hread] at hm
  obtain rfl := Option.some.inj hm
  revert hdigital
  decide

end AdcUdpStream.Server
