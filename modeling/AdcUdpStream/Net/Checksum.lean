import AdcUdpStream.Lib.BigEndian
import AdcUdpStream.Lib.OnesComplement

/-!
# The Internet checksum (`inet_chksum.c`)

`LWIP_CHKSUM_ALGORITHM` is 1. A checksum is the remainder of the negative of a sum
modulo 65535 (`inetChksumPseudo_eq`), whatever pbufs the bytes lie in
(`inetChksumPseudo_cut`).
-/

namespace AdcUdpStream.Net

open OnesComplement

def lwipHtons (x : UInt16) : UInt16 := (x &&& 0x00FF) <<< 8 ||| (x &&& 0xFF00) >>> 8

def foldU32T (u : UInt32) : UInt32 := (u >>> 16) + (u &&& 0x0000FFFF)

def swapBytesInWord (w : UInt32) : UInt32 := (w &&& 0xFF) <<< 8 ||| (w &&& 0xFF00) >>> 8

/-- The loop of `lwip_standard_chksum`, and the octet that remains. -/
def chksumLoop (acc : UInt32) : List UInt8 → UInt32
  | x :: y :: xs => chksumLoop (acc + (x.toUInt16 <<< 8 ||| y.toUInt16).toUInt32) xs
  | [x] => acc + (x.toUInt16 <<< 8).toUInt32
  | [] => acc

def lwipStandardChksum (data : List UInt8) : UInt16 :=
  let acc := foldU32T (chksumLoop 0 data)
  let acc := if acc &&& 0xFFFF0000 ≠ 0 then foldU32T acc else acc
  lwipHtons acc.toUInt16

def inetChksum (data : List UInt8) : UInt16 := (~~~(lwipStandardChksum data).toUInt32).toUInt16

/-- The loop of `inet_cksum_pseudo_base` over the payloads of a chain: `acc` and `swapped`. -/
def pseudoLoop (acc : UInt32) (swapped : Bool) : List (List UInt8) → UInt32 × Bool
  | q :: qs =>
    let acc := foldU32T (acc + (lwipStandardChksum q).toUInt32)
    if q.length % 2 ≠ 0 then pseudoLoop (swapBytesInWord acc) (!swapped) qs
    else pseudoLoop acc swapped qs
  | [] => (acc, swapped)

def inetCksumPseudoBase (p : List (List UInt8)) (proto : UInt8) (protoLen : UInt16)
    (acc : UInt32) : UInt16 :=
  let r := pseudoLoop acc false p
  let acc := if r.2 then swapBytesInWord r.1 else r.1
  let acc := acc + (lwipHtons proto.toUInt16).toUInt32
  let acc := acc + (lwipHtons protoLen).toUInt32
  let acc := foldU32T (foldU32T acc)
  (~~~(acc &&& 0xFFFF)).toUInt16

/-- Addresses are in network byte order: the first octet is the low byte. -/
def inetChksumPseudo (p : List (List UInt8)) (proto : UInt8) (protoLen : UInt16)
    (src dest : UInt32) : UInt16 :=
  let acc := src &&& 0xFFFF
  let acc := acc + ((src >>> 16) &&& 0xFFFF)
  let acc := acc + (dest &&& 0xFFFF)
  let acc := acc + ((dest >>> 16) &&& 0xFFFF)
  inetCksumPseudoBase p proto protoLen (foldU32T (foldU32T acc))

/-! ## What they add up to -/

/-- Sums with an end-around carry of 16 bits. -/
abbrev Carried := ZMod 65535

/-- The sum of a byte string, as words with the low byte first. -/
def octets (xs : List UInt8) : Carried := (Nat.ofDigits 256 (xs.map UInt8.toNat) : ℕ)

def pseudoSum (data : List UInt8) (proto : UInt8) (protoLen : UInt16) (src dest : UInt32) :
    Carried :=
  src.toNat + dest.toNat + 256 * proto.toNat + 256 * protoLen.toNat + octets data

theorem carried_byte : ((256 : ℕ) : Carried) * (256 : ℕ) = 1 := by
  rw [← Nat.cast_mul]
  rfl

theorem carried_word : ((65536 : ℕ) : Carried) = 1 := rfl

theorem octets_append (xs ys : List UInt8) :
    octets (xs ++ ys) = octets xs + 256 ^ xs.length * octets ys := by
  rw [octets, List.map_append, Nat.ofDigits_append, List.length_map, Nat.cast_add, Nat.cast_mul,
    Nat.cast_pow]
  rfl

/-- **A byte** cannot be changed without changing the sum. -/
theorem octets_set {xs : List UInt8} {i : Nat} {b : UInt8}
    (h : octets (xs.set i b) = octets xs) : xs.set i b = xs := by
  have hbytes : ∀ x ∈ xs.map UInt8.toNat, x < 256 := fun x hx => by
    obtain ⟨y, -, rfl⟩ := List.mem_map.mp hx
    exact y.toNat_lt
  rw [octets, octets, List.map_set] at h
  have hset := set_eq_self carried_byte (by omega) hbytes b.toNat_lt h
  rw [← List.map_set] at hset
  exact List.map_injective_iff.mpr (fun x y => UInt8.toNat_inj.mp) hset

theorem swap_eq {x : ℕ} (h : x < 65536) :
    (x &&& 0xFF) <<< 8 ||| (x &&& 0xFF00) >>> 8 = swap 256 x := by
  have hlo : x &&& 0xFF = x % 256 := Nat.and_two_pow_sub_one_eq_mod x 8
  have hhi : (x &&& 0xFF00) >>> 8 = x / 256 := by
    rw [Nat.shiftRight_and_distrib, Nat.shiftRight_eq_div_pow]
    show x / 256 &&& 0xFF = _
    rw [show x / 256 &&& 0xFF = x / 256 % 256 from Nat.and_two_pow_sub_one_eq_mod _ 8]
    omega
  rw [hlo, hhi, ← Nat.shiftLeft_add_eq_or_of_lt (by omega : x / 256 < 2 ^ 8), Nat.shiftLeft_eq]
  rfl

theorem lwipHtons_toNat (x : UInt16) : (lwipHtons x).toNat = swap 256 x.toNat := by
  have hx := x.toNat_lt
  rw [← swap_eq hx, lwipHtons, UInt16.toNat_or, UInt16.toNat_shiftLeft, UInt16.toNat_shiftRight,
    UInt16.toNat_and, UInt16.toNat_and]
  have hlo : x.toNat &&& 0xFF = x.toNat % 256 := Nat.and_two_pow_sub_one_eq_mod _ 8
  show (x.toNat &&& 0xFF) <<< 8 % 2 ^ 16 ||| (x.toNat &&& 0xFF00) >>> 8 = _
  rw [Nat.mod_eq_of_lt]
  rw [hlo, Nat.shiftLeft_eq]
  omega

theorem swapBytesInWord_toNat {w : UInt32} (h : w.toNat < 65536) :
    (swapBytesInWord w).toNat = swap 256 w.toNat := by
  rw [← swap_eq h, swapBytesInWord, UInt32.toNat_or, UInt32.toNat_shiftLeft,
    UInt32.toNat_shiftRight, UInt32.toNat_and, UInt32.toNat_and]
  have hlo : w.toNat &&& 0xFF = w.toNat % 256 := Nat.and_two_pow_sub_one_eq_mod _ 8
  show (w.toNat &&& 0xFF) <<< 8 % 2 ^ 32 ||| (w.toNat &&& 0xFF00) >>> 8 = _
  rw [Nat.mod_eq_of_lt]
  rw [hlo, Nat.shiftLeft_eq]
  omega

theorem low_toNat (u : UInt32) : (u &&& 0xFFFF).toNat = u.toNat % 65536 := by
  rw [UInt32.toNat_and]
  exact Nat.and_two_pow_sub_one_eq_mod _ 16

theorem high_toNat (u : UInt32) : (u >>> 16).toNat = u.toNat / 65536 := by
  rw [UInt32.toNat_shiftRight]
  exact Nat.shiftRight_eq_div_pow ..

theorem foldU32T_toNat (u : UInt32) : (foldU32T u).toNat = fold 65536 u.toNat := by
  have hu := u.toNat_lt
  rw [foldU32T, UInt32.toNat_add, high_toNat, low_toNat, Nat.mod_eq_of_lt]
  · rfl
  · omega

theorem foldTwice_toNat (u : UInt32) :
    (foldU32T (foldU32T u)).toNat = fold 65536 (fold 65536 u.toNat) := by
  rw [foldU32T_toNat, foldU32T_toNat]

theorem foldTwice_lt (u : UInt32) : (foldU32T (foldU32T u)).toNat < 65536 := by
  rw [foldTwice_toNat]
  exact fold_lt (fold_lt_twice u.toNat_lt)

theorem word_toNat (x y : UInt8) :
    (x.toUInt16 <<< 8 ||| y.toUInt16).toUInt32.toNat = 256 * x.toNat + y.toNat := by
  rw [UInt16.toNat_toUInt32]
  exact BigEndian.word_toNat x y

theorem lastWord_toNat (x : UInt8) : (x.toUInt16 <<< 8).toUInt32.toNat = 256 * x.toNat := by
  have h := word_toNat x 0
  rwa [show (0 : UInt8).toUInt16 = 0 from rfl, UInt16.or_zero] at h

theorem chksumLoop_toNat : ∀ (acc : UInt32) (xs : List UInt8),
    acc.toNat + wordSum 256 (xs.map UInt8.toNat) < 2 ^ 32 →
      (chksumLoop acc xs).toNat = acc.toNat + wordSum 256 (xs.map UInt8.toNat)
  | acc, [], _ => rfl
  | acc, [x], h => by
    simp only [List.map_cons, List.map_nil, wordSum] at h ⊢
    rw [chksumLoop, UInt32.toNat_add, lastWord_toNat, Nat.mod_eq_of_lt h]
  | acc, x :: y :: xs, h => by
    simp only [List.map_cons, wordSum] at h ⊢
    have hadd : (acc + (x.toUInt16 <<< 8 ||| y.toUInt16).toUInt32).toNat =
        acc.toNat + (256 * x.toNat + y.toNat) := by
      rw [UInt32.toNat_add, word_toNat, Nat.mod_eq_of_lt (by omega)]
    rw [chksumLoop, chksumLoop_toNat _ xs (by rw [hadd]; omega), hadd, Nat.add_assoc]

theorem octets_pos {xs : List UInt8} (h : ∃ x ∈ xs, x ≠ 0) :
    ∃ x ∈ xs.map UInt8.toNat, 0 < x := by
  obtain ⟨x, hx, hne⟩ := h
  refine ⟨x.toNat, List.mem_map_of_mem hx, ?_⟩
  by_contra h0
  exact hne (UInt8.toNat_inj.mp (Nat.eq_zero_of_not_pos h0))

/-- **`lwip_standard_chksum`** is the sum of its bytes, and not 0 when one of them is not. -/
theorem lwipStandardChksum_spec {data : List UInt8} (hlen : data.length < 65536) :
    ((lwipStandardChksum data).toNat : Carried) = octets data ∧
      ((∃ x ∈ data, x ≠ 0) → 0 < (lwipStandardChksum data).toNat) := by
  generalize hw : wordSum 256 (data.map UInt8.toNat) = w
  have hle : w ≤ 65535 * ((data.length + 1) / 2) := by
    have hbytes : ∀ x ∈ data.map UInt8.toNat, x < 256 := fun x hx => by
      obtain ⟨y, -, rfl⟩ := List.mem_map.mp hx
      exact y.toNat_lt
    have h := wordSum_le hbytes
    rwa [hw, List.length_map] at h
  have hlt : w < 65536 * 65536 := by omega
  have hloop : (chksumLoop 0 data).toNat = w := by
    rw [chksumLoop_toNat 0 data (by rw [hw]; simpa using hlt), hw]
    exact Nat.zero_add w
  -- the second carry is added only when there is one
  have hacc : ∀ u : UInt32, u.toNat < 2 * 65536 - 1 →
      (if u &&& 0xFFFF0000 ≠ 0 then foldU32T u else u).toUInt16.toNat = fold 65536 u.toNat := by
    intro u hu
    split
    · rw [UInt32.toNat_toUInt16, foldU32T_toNat, Nat.mod_eq_of_lt (fold_lt hu)]
    · next hzero =>
      have hsmall : u.toNat < 65536 := by
        have hz : (u &&& 0xFFFF0000).toNat = 0 := by rw [not_not.mp hzero]; rfl
        rw [UInt32.toNat_and] at hz
        have hbit := congrArg (Nat.testBit · 16) hz
        simp only [Nat.testBit_and, Nat.zero_testBit] at hbit
        by_contra hge
        have hq : u.toNat / 65536 = 1 := Nat.div_eq_of_lt_le (by omega) (by omega)
        have hset : u.toNat.testBit 16 = true := by
          rw [Nat.testBit_eq_decide_div_mod_eq, show 2 ^ 16 = 65536 from rfl, hq]
          rfl
        rw [hset] at hbit
        exact absurd hbit (by decide)
      rw [UInt32.toNat_toUInt16, Nat.mod_eq_of_lt hsmall, fold_of_lt hsmall]
  have hres : (lwipStandardChksum data).toNat = swap 256 (fold 65536 (fold 65536 w)) := by
    have hfold : (foldU32T (chksumLoop 0 data)).toNat = fold 65536 w := by
      rw [foldU32T_toNat, hloop]
    have h := hacc (foldU32T (chksumLoop 0 data)) (by rw [hfold]; exact fold_lt_twice hlt)
    rw [hfold] at h
    rw [lwipStandardChksum, lwipHtons_toNat, h]
  rw [hres]
  refine ⟨?_, fun hne => ?_⟩
  · rw [cast_swap carried_byte, cast_fold carried_word, cast_fold carried_word, ← hw,
      cast_wordSum carried_byte, ← mul_assoc, carried_byte, one_mul]
    rfl
  · have hpos := wordSum_pos (b := 256) (by omega) (octets_pos hne)
    rw [hw] at hpos
    exact swap_pos (by omega) (fold_pos (fold_pos hpos))

/-- Between two pbufs: `init` and the bytes of `done` so far. -/
structure Summed (init : Carried) (done : List UInt8) (r : UInt32 × Bool) : Prop where
  lt : r.1.toNat < 65536
  sum : Weighs 256 init (done.map UInt8.toNat) r.1.toNat
  swapped : r.2 = decide (done.length % 2 ≠ 0)

section Chain

variable {init : Carried} {done : List UInt8} {r : UInt32 × Bool}

theorem Summed.pbuf (h : Summed init done r) {q : List UInt8} (hq : q.length < 65536) :
    Summed init (done ++ q)
      (if q.length % 2 ≠ 0 then
        (swapBytesInWord (foldU32T (r.1 + (lwipStandardChksum q).toUInt32)), !r.2)
      else (foldU32T (r.1 + (lwipStandardChksum q).toUInt32), r.2)) := by
  obtain ⟨hlt, hsum, hswapped⟩ := h
  have hchk := (lwipStandardChksum q).toNat_lt
  have hadd : (r.1 + (lwipStandardChksum q).toUInt32).toNat =
      r.1.toNat + (lwipStandardChksum q).toNat := by
    rw [UInt32.toNat_add, UInt16.toNat_toUInt32, Nat.mod_eq_of_lt (by omega)]
  have hfold : (foldU32T (r.1 + (lwipStandardChksum q).toUInt32)).toNat < 65536 := by
    rw [foldU32T_toNat, hadd]
    exact fold_lt (by omega)
  have hcast : ((foldU32T (r.1 + (lwipStandardChksum q).toUInt32)).toNat : Carried) =
      r.1.toNat + (Nat.ofDigits 256 (q.map UInt8.toNat) : ℕ) := by
    rw [foldU32T_toNat, hadd, cast_fold carried_word, Nat.cast_add, (lwipStandardChksum_spec hq).1]
    rfl
  generalize foldU32T (r.1 + (lwipStandardChksum q).toUInt32) = acc at *
  split
  · next hodd =>
    refine ⟨?_, ?_, ?_⟩
    · rw [swapBytesInWord_toNat hfold]
      exact swap_lt hfold
    · rw [List.map_append]
      refine hsum.append carried_byte ?_
      rw [swapBytesInWord_toNat hfold, cast_swap carried_byte, hcast, List.length_map,
        pow_odd carried_byte hodd]
    · rw [hswapped, List.length_append, ← decide_not]
      exact decide_eq_decide.mpr (by omega)
  · next heven =>
    refine ⟨hfold, ?_, ?_⟩
    · rw [List.map_append]
      refine hsum.append carried_byte ?_
      rw [hcast, List.length_map, pow_even carried_byte (not_not.mp heven), one_mul]
    · rw [hswapped, List.length_append]
      exact decide_eq_decide.mpr (by omega)

theorem Summed.chain {p : List (List UInt8)} (h : Summed init done r)
    (hp : ∀ q ∈ p, q.length < 65536) : Summed init (done ++ p.flatten) (pseudoLoop r.1 r.2 p) := by
  induction p generalizing done r with
  | nil =>
    rw [List.flatten_nil, List.append_nil]
    exact h
  | cons q p ih =>
    have hq := ih (h.pbuf (hp q List.mem_cons_self)) fun q hq => hp q (List.mem_cons_of_mem _ hq)
    rw [List.flatten_cons, ← List.append_assoc]
    rw [pseudoLoop]
    split
    · next hodd => rwa [if_pos hodd] at hq
    · next heven => rwa [if_neg heven] at hq

end Chain

theorem complement_toNat {c : UInt32} (h : c.toNat < 65536) :
    (~~~c).toUInt16.toNat = 65535 - c.toNat := by
  rw [UInt32.toNat_toUInt16, UInt32.toNat_not]
  show (2 ^ 32 - 1 - c.toNat) % 2 ^ 16 = _
  omega

/-- **`inet_cksum_pseudo_base`** for a protocol that is not 0. -/
theorem inetCksumPseudoBase_eq {p : List (List UInt8)} (hp : ∀ q ∈ p, q.length < 65536)
    {proto : UInt8} (hproto : proto ≠ 0) (protoLen : UInt16) {acc : UInt32}
    (hacc : acc.toNat < 65536) :
    (inetCksumPseudoBase p proto protoLen acc).toNat =
      (-(acc.toNat + 256 * proto.toNat + 256 * protoLen.toNat + octets p.flatten :
        Carried)).val := by
  have h0 : Summed (acc.toNat : Carried) [] (acc, false) := ⟨hacc, weighs_nil, rfl⟩
  obtain ⟨hlt, hsum, hswapped⟩ := h0.chain hp
  rw [List.nil_append] at hsum hswapped
  unfold inetCksumPseudoBase
  generalize pseudoLoop acc false p = r at *
  dsimp only
  have hunswapped : (if r.2 = true then swapBytesInWord r.1 else r.1).toNat < 65536 ∧
      ((if r.2 = true then swapBytesInWord r.1 else r.1).toNat : Carried) =
        acc.toNat + octets p.flatten := by
    rw [hswapped]
    by_cases hodd : p.flatten.length % 2 ≠ 0
    · rw [decide_eq_true hodd, if_pos rfl, swapBytesInWord_toNat hlt, cast_swap carried_byte]
      exact ⟨swap_lt hlt, hsum.odd carried_byte (by rwa [List.length_map])⟩
    · rw [decide_eq_false hodd, if_neg Bool.false_ne_true]
      exact ⟨hlt, hsum.even carried_byte (by rw [List.length_map]; exact not_not.mp hodd)⟩
  generalize (if r.2 = true then swapBytesInWord r.1 else r.1) = a at hunswapped
  obtain ⟨ha, hsum⟩ := hunswapped
  have hproto' : 0 < (lwipHtons proto.toUInt16).toNat := by
    rw [lwipHtons_toNat, UInt8.toNat_toUInt16]
    refine swap_pos (by omega) (Nat.pos_of_ne_zero fun h0 => hproto (UInt8.toNat_inj.mp h0))
  have hprotoLt := (lwipHtons proto.toUInt16).toNat_lt
  have hlenLt := (lwipHtons protoLen).toNat_lt
  have htotal : (a + (lwipHtons proto.toUInt16).toUInt32 +
      (lwipHtons protoLen).toUInt32).toNat =
      a.toNat + (lwipHtons proto.toUInt16).toNat + (lwipHtons protoLen).toNat := by
    rw [UInt32.toNat_add, UInt32.toNat_add, UInt16.toNat_toUInt32, UInt16.toNat_toUInt32]
    omega
  generalize hb : a + (lwipHtons proto.toUInt16).toUInt32 + (lwipHtons protoLen).toUInt32 = b
    at htotal ⊢
  have hfold := foldTwice_toNat b
  have hfoldLt := foldTwice_lt b
  have hpos : 0 < (foldU32T (foldU32T b)).toNat := by
    rw [hfold]
    exact fold_pos (fold_pos (by omega))
  have hcast : ((foldU32T (foldU32T b)).toNat : Carried) =
      acc.toNat + 256 * proto.toNat + 256 * protoLen.toNat + octets p.flatten := by
    rw [hfold, cast_fold carried_word, cast_fold carried_word, htotal, Nat.cast_add, Nat.cast_add,
      hsum, lwipHtons_toNat, lwipHtons_toNat, cast_swap carried_byte, cast_swap carried_byte,
      UInt8.toNat_toUInt16]
    push_cast
    ring
  generalize foldU32T (foldU32T b) = c at *
  have hlow : c &&& 0xFFFF = c := by
    apply UInt32.toNat_inj.mp
    rw [low_toNat, Nat.mod_eq_of_lt hfoldLt]
  rw [hlow, complement_toNat hfoldLt, ← sub_eq_val hpos (by omega) hcast]

theorem halves_toNat (a : UInt32) :
    (a &&& 0xFFFF).toNat + ((a >>> 16) &&& 0xFFFF).toNat = fold 65536 a.toNat := by
  have ha := a.toNat_lt
  rw [low_toNat, low_toNat, high_toNat, Nat.mod_eq_of_lt (by omega : a.toNat / 65536 < 65536),
    Nat.add_comm]
  rfl

/-- **`inet_chksum_pseudo`** is a function of the bytes alone: the remainder of the negative of
their sum. -/
theorem inetChksumPseudo_eq {p : List (List UInt8)} (hp : ∀ q ∈ p, q.length < 65536)
    {proto : UInt8} (hproto : proto ≠ 0) (protoLen : UInt16) (src dest : UInt32) :
    (inetChksumPseudo p proto protoLen src dest).toNat =
      (-pseudoSum p.flatten proto protoLen src dest).val := by
  have hs := halves_toNat src
  have hd := halves_toNat dest
  have hslt := fold_lt_twice (n := 65536) src.toNat_lt
  have hdlt := fold_lt_twice (n := 65536) dest.toNat_lt
  rw [inetChksumPseudo]
  generalize src &&& 0xFFFF = s0, (src >>> 16) &&& 0xFFFF = s1, dest &&& 0xFFFF = d0,
    (dest >>> 16) &&& 0xFFFF = d1 at hs hd ⊢
  have hadd : (s0 + s1 + d0 + d1).toNat = fold 65536 src.toNat + fold 65536 dest.toNat := by
    simp only [UInt32.toNat_add]
    omega
  rw [inetCksumPseudoBase_eq hp hproto protoLen (foldTwice_lt _), foldTwice_toNat,
    cast_fold carried_word, cast_fold carried_word, hadd, Nat.cast_add, cast_fold carried_word,
    cast_fold carried_word]
  rfl

/-- **A chain may be cut anywhere**, also behind an odd byte: the checksum is the same. -/
theorem inetChksumPseudo_cut {p q : List (List UInt8)} (hp : ∀ b ∈ p, b.length < 65536)
    (hq : ∀ b ∈ q, b.length < 65536) (h : p.flatten = q.flatten) {proto : UInt8}
    (hproto : proto ≠ 0) (protoLen : UInt16) (src dest : UInt32) :
    inetChksumPseudo p proto protoLen src dest = inetChksumPseudo q proto protoLen src dest := by
  apply UInt16.toNat_inj.mp
  rw [inetChksumPseudo_eq hp hproto, inetChksumPseudo_eq hq hproto, h]

theorem inetChksumPseudo_cut_three :
    inetChksumPseudo [[1], [2, 3]] 17 3 0 0 = inetChksumPseudo [[1, 2, 3]] 17 3 0 0 := by
  have hflat : [[1], [2, 3]].flatten = [[(1 : UInt8), 2, 3]].flatten := rfl
  exact inetChksumPseudo_cut (by decide) (by decide) hflat (by decide) 3 0 0

/-- **`inet_chksum`** of bytes that are not all 0. -/
theorem inetChksum_eq {data : List UInt8} (hlen : data.length < 65536) (hne : ∃ x ∈ data, x ≠ 0) :
    (inetChksum data).toNat = (-octets data).val := by
  obtain ⟨hsum, hpos⟩ := lwipStandardChksum_spec hlen
  have hlt := (lwipStandardChksum data).toNat_lt
  have hwide : (lwipStandardChksum data).toUInt32.toNat < 65536 := by
    rw [UInt16.toNat_toUInt32]
    exact hlt
  rw [inetChksum, complement_toNat hwide, UInt16.toNat_toUInt32,
    ← sub_eq_val (hpos hne) (by omega) hsum]

end AdcUdpStream.Net
