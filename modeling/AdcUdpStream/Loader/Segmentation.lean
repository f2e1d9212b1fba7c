import AdcUdpStream.Loader.Session

/-!
# How a body is cut

The preamble is looked for in one pbuf and must be whole there; the file bytes
behind it may be cut anywhere. Two cuttings of a body whose first pbufs both
hold the whole preamble have the same outcome, and so have two that never show a
tag where it is looked for (`cutting_irrelevant`). A cut inside the preamble changes the outcome
(`cut_in_preamble`).
-/

namespace AdcUdpStream.Loader

open CStr Steps

/-- `B` in non-empty unchained pbufs, with a NUL behind each. -/
structure Cutting (B : List UInt8) where
  pbufs : List Pbuf
  unchained : ∀ p ∈ pbufs, p.next = []
  nonempty : ∀ p ∈ pbufs, p.head.payload ≠ []
  confined : ∀ p ∈ pbufs, p.head.beyond = []
  bytes_eq : payloads (pbufs.map Pbuf.head) = B

namespace Cutting

variable {B : List UInt8}

def events (K : Cutting B) (c : Conn) (uri : List UInt8) : List Event :=
  postEvents c uri B.length K.pbufs

def ops (K : Cutting B) (c : Conn) (uri : List UInt8) : List (Nat × List UInt8) :=
  programOps (final (step succeedingFlash) (powerOn {}) (K.events c uri)).upd.stage.flash.log

def answers (K : Cutting B) (c : Conn) (uri : List UInt8) : List FwupdateStatus :=
  statuses (outs (step succeedingFlash) (powerOn {}) (K.events c uri))

/-- The same blocks are programmed, and both runs end the file or neither. -/
structure SameOutcome (K K' : Cutting B) (c : Conn) (uri : List UInt8) : Prop where
  ops : K.ops c uri = K'.ops c uri
  done : .done ∈ K.answers c uri ↔ .done ∈ K'.answers c uri

def Holds (K : Cutting B) (P : Preamble) : Prop :=
  ∃ p, K.pbufs.head? = some p ∧ P.bytes <+: p.head.payload

def NoTagFirst (K : Cutting B) : Prop :=
  ∀ p ∈ K.pbufs.head?, strstr p.head.payload octetStreamTag = none

/-- No pbuf but the first starts like a POST header. -/
def NoHeaderBehind (K : Cutting B) : Prop :=
  ∀ p ∈ K.pbufs.tail, ¬ bytes "POST /upload" <+: p.head.payload

/-- The cuttings agree on the preamble: it is whole in both first pbufs, or the body holds no tag,
or it is found in neither first pbuf and no later pbuf of either starts like a POST header. -/
def AgreeOnPreamble (K K' : Cutting B) : Prop :=
  (∃ P : Preamble, K.Holds P ∧ K'.Holds P) ∨
    ¬ octetStreamTag <:+: B ∨
    (K.NoTagFirst ∧ K.NoHeaderBehind) ∧ K'.NoTagFirst ∧ K'.NoHeaderBehind

theorem payload_infix (K : Cutting B) {p : Pbuf} (hp : p ∈ K.pbufs) : p.head.payload <:+: B := by
  rw [← K.bytes_eq, payloads]
  exact List.infix_of_mem_flatten (List.mem_map_of_mem (List.mem_map_of_mem hp))

theorem Holds.prefix_body {K : Cutting B} {P : Preamble} (h : K.Holds P) : P.bytes <+: B := by
  obtain ⟨p, hp, hpre⟩ := h
  have hbytes := K.bytes_eq
  rcases hps : K.pbufs with _ | ⟨q, qs⟩
  · rw [hps] at hp
    cases hp
  · rw [hps] at hp hbytes
    obtain rfl : q = p := Option.some.inj hp
    rw [List.map_cons, payloads_cons] at hbytes
    exact hpre.trans ⟨_, hbytes⟩

theorem mem_eq (K : Cutting B) {p : Pbuf} (hp : p ∈ K.pbufs) : p.head.mem = p.head.payload := by
  rw [Segment.mem, K.confined p hp, List.append_nil]

theorem flatten_bytes (K : Cutting B) : (K.pbufs.map Pbuf.bytes).flatten = B := by
  have hmap : K.pbufs.map Pbuf.bytes = (K.pbufs.map Pbuf.head).map Segment.payload := by
    rw [List.map_map]
    exact List.map_congr_left fun p hp =>
      Pbuf.bytes_of_len (Pbuf.totLen_of_next (K.unchained p hp))
  rw [hmap]
  exact K.bytes_eq

def start (B : List UInt8) (c : Conn) : Updater Main := ((powerOn {}).opened c B.length).upd

theorem ops_eq (K : Cutting B) (c : Conn) {uri : List UInt8}
    (hu : startsWith uri (bytes "/upload")) :
    K.ops c uri = programOps
      (final (feed succeedingFlash) (start B c) (K.pbufs.map Pbuf.head)).stage.flash.log := by
  obtain ⟨hupd, -, -⟩ := post_run succeedingFlash (c := c) (n := B.length) (f := {})
    K.pbufs hu
  unfold ops events start
  rw [hupd]

theorem answers_eq (K : Cutting B) (c : Conn) {uri : List UInt8}
    (hu : startsWith uri (bytes "/upload")) :
    K.answers c uri = outs (feed succeedingFlash) (start B c) (K.pbufs.map Pbuf.head) :=
  (post_run succeedingFlash (c := c) (n := B.length) (f := {}) K.pbufs hu).2.1

/-! ## The preamble in the first pbuf -/

def toUpload (K : Cutting B) (P : Preamble) (D : List UInt8) (hB : B = P.bytes ++ D) (hD : D ≠ [])
    (hP : K.Holds P) : Upload where
  preamble := P
  data := D
  pbufs := K.pbufs
  data_ne := hD
  nonempty := by
    intro p hp
    rw [Pbuf.totLen, Pbuf.len]
    exact Nat.lt_of_lt_of_le (List.length_pos_iff.mpr (K.nonempty p hp)) (Nat.le_add_right _ _)
  bytes_eq := K.flatten_bytes.trans hB
  first := by
    obtain ⟨q, hq, hpre⟩ := hP
    intro p hp
    obtain rfl : q = p := Option.some.inj (hq.symm.trans hp)
    exact hpre

theorem run_upload (K : Cutting B) {P : Preamble} {D : List UInt8} (hB : B = P.bytes ++ D)
    (hD : D ≠ []) (hP : K.Holds P) (c : Conn) :
    final (feed succeedingFlash) (start B c) (K.pbufs.map Pbuf.head) =
        (octetStream succeedingFlash
          { start B c with fwupdate := (start B c).fwupdate.armed P.bytes.length } D).1 ∧
      .done ∈ outs (feed succeedingFlash) (start B c) (K.pbufs.map Pbuf.head) := by
  have hn : (start B c).fwupdate.contentLength = (K.toUpload P D hB hD hP).contentLen :=
    congrArg (fun l : List UInt8 => (l.length : Int)) hB
  obtain ⟨hfinal, houts⟩ :=
    (K.toUpload P D hB hD hP).run succeedingFlash (u := start B c) K.unchained rfl hn rfl
  refine ⟨hfinal, ?_⟩
  show .done ∈ outs (feed succeedingFlash) (start B c) (K.toUpload P D hB hD hP).segments
  rw [houts, Upload.answers]
  simp

theorem single_of_preamble (K : Cutting B) {P : Preamble} (hB : B = P.bytes) (hP : K.Holds P) :
    K.pbufs.map Pbuf.head = [⟨B, []⟩] := by
  obtain ⟨p, hp, hpre⟩ := hP
  have hbytes := K.bytes_eq
  have hne := K.nonempty
  have hconf := K.confined
  generalize K.pbufs = ps at hp hbytes hne hconf ⊢
  rcases ps with _ | ⟨q, qs⟩
  · cases hp
  · obtain rfl : q = p := Option.some.inj hp
    have hlen := congrArg List.length hbytes
    rw [List.map_cons, payloads_cons, List.length_append] at hlen
    have hle := hpre.length_le
    rw [← hB] at hle hpre
    -- the other pbufs would hold bytes behind the preamble
    have hrest : qs = [] := by
      rcases qs with _ | ⟨r, rs⟩
      · rfl
      · have := List.length_pos_iff.mpr (hne r (by simp))
        rw [List.map_cons, payloads_cons, List.length_append] at hlen
        omega
    have heq : q.head.payload = B := (hpre.eq_of_length (by omega)).symm
    have hbeyond := hconf q (List.mem_cons_self ..)
    rw [hrest]
    show [q.head] = [⟨B, []⟩]
    rw [← heq, ← hbeyond]

/-! ## No preamble -/

/-- The run streams nothing and does not end. -/
def Quiet (u : Updater Main) (qs : List Segment) : Prop :=
  (final (feed succeedingFlash) u qs).stage = u.stage ∧ .done ∉ outs (feed succeedingFlash) u qs

theorem Quiet.cons {u : Updater Main} {q : Segment} {qs : List Segment} {fw : Fwupdate}
    {ret : FwupdateStatus} (hf : feed succeedingFlash u q = ({ u with fwupdate := fw }, ret))
    (hret : ret ≠ .done) (h : Quiet { u with fwupdate := fw } qs) : Quiet u (q :: qs) := by
  obtain ⟨h1, h2⟩ := h
  unfold Quiet
  rw [final_cons, outs_cons, hf]
  refine ⟨h1, fun hmem => ?_⟩
  rcases List.mem_cons.mp hmem with h | h
  · exact hret h.symm
  · exact h2 h

theorem feed_no_tag {u : Updater Main} {q : Segment} (hs : u.fwupdate.state ≠ .octetStream)
    (ht : ¬ octetStreamTag <:+: q.mem) :
    ∃ fw ret, feed succeedingFlash u q = ({ u with fwupdate := fw }, ret) ∧ ret ≠ .done ∧
      fw.state ≠ .octetStream := by
  have hnone : fileStart u.fwupdate q.mem q.payload.length = none := by
    have htag : ∀ k, strstr (q.mem.drop k) octetStreamTag = none := by
      intro k
      by_contra hne
      obtain ⟨o, ho⟩ := Option.ne_none_iff_exists'.mp hne
      exact ht ((infix_of_strstr ho).trans (List.drop_suffix k _).isInfix)
    unfold fileStart
    split
    · next h => exact absurd h hs
    · have h0 := htag 0
      rw [List.drop_zero] at h0
      rw [h0, Option.map_none]
    · cases parseHeader q.mem q.payload.length with
      | none => rfl
      | some r =>
        rw [Option.bind_some]
        split
        · rw [htag, Option.map_none]
        · rfl
  rcases feed_cases succeedingFlash u q with ⟨k, fw, -, hsome, -, -⟩ | ⟨fw, ret, hf, hret, -, hst⟩
  · rw [hnone] at hsome
    cases hsome
  · exact ⟨fw, ret, hf, hret, hst hnone⟩

theorem quiet_of_no_tag : ∀ {qs : List Segment} {u : Updater Main},
    u.fwupdate.state ≠ .octetStream → (∀ q ∈ qs, ¬ octetStreamTag <:+: q.mem) → Quiet u qs
  | [], _, _, _ => ⟨rfl, by simp⟩
  | q :: qs, u, hs, ht => by
    obtain ⟨fw, ret, hf, hret, hst⟩ := feed_no_tag hs (ht q (List.mem_cons_self ..))
    apply Quiet.cons hf hret
    exact quiet_of_no_tag hst fun r hr => ht r (List.mem_cons_of_mem _ hr)

theorem quiet_of_header : ∀ {qs : List Segment} {u : Updater Main}, u.fwupdate.state = .header →
    (∀ q ∈ qs, isPostHeader q.mem q.payload.length = false) → Quiet u qs
  | [], _, _, _ => ⟨rfl, by simp⟩
  | q :: qs, u, hs, hh => by
    have hq := hh q (List.mem_cons_self ..)
    have hparse : parseHeader q.mem q.payload.length = none := by
      rw [parseHeader, if_neg (by rw [hq]; decide)]
    obtain ⟨n, ret, hf, hret, -⟩ := feed_header succeedingFlash hs hparse
    apply Quiet.cons hf hret
    exact quiet_of_header hs fun r hr => hh r (List.mem_cons_of_mem _ hr)

theorem quiet_of_no_header {qs : List Segment} {u : Updater Main}
    (hs : u.fwupdate.state = .octetStart)
    (hfirst : ∀ q ∈ qs.head?, strstr q.mem octetStreamTag = none) (hne : ∀ q ∈ qs, q.payload ≠ [])
    (hh : ∀ q ∈ qs.tail, isPostHeader q.mem q.payload.length = false) : Quiet u qs := by
  rcases qs with _ | ⟨q, qs⟩
  · exact ⟨rfl, by simp⟩
  · have hpos := List.length_pos_iff.mpr (hne q (List.mem_cons_self ..))
    have hf : feed succeedingFlash u q = ({ u with fwupdate.state := .header }, .error) :=
      machine_octetStart_none succeedingFlash hs hpos (hfirst q rfl)
    apply Quiet.cons hf (by simp)
    exact quiet_of_header rfl hh

theorem outcome_of_quiet (K : Cutting B) (c : Conn) {uri : List UInt8}
    (hu : startsWith uri (bytes "/upload"))
    (h : Quiet (start B c) (K.pbufs.map Pbuf.head)) :
    K.ops c uri = [] ∧ .done ∉ K.answers c uri := by
  rw [K.ops_eq c hu, K.answers_eq c hu, h.1]
  exact ⟨rfl, h.2⟩

theorem sameOutcome_of_quiet {K K' : Cutting B} {c : Conn} {uri : List UInt8}
    (hu : startsWith uri (bytes "/upload"))
    (h : Quiet (start B c) (K.pbufs.map Pbuf.head))
    (h' : Quiet (start B c) (K'.pbufs.map Pbuf.head)) : K.SameOutcome K' c uri := by
  obtain ⟨hops, hdone⟩ := K.outcome_of_quiet c hu h
  obtain ⟨hops', hdone'⟩ := K'.outcome_of_quiet c hu h'
  exact ⟨hops.trans hops'.symm, fun hd => absurd hd hdone, fun hd => absurd hd hdone'⟩

theorem quiet_no_tag (K : Cutting B) (c : Conn) (ht : ¬ octetStreamTag <:+: B) :
    Quiet (start B c) (K.pbufs.map Pbuf.head) := by
  have hstate : (start B c).fwupdate.state = .octetStart := rfl
  refine quiet_of_no_tag (by rw [hstate]; decide) fun q hq hin => ?_
  obtain ⟨p, hp, rfl⟩ := List.mem_map.mp hq
  rw [K.mem_eq hp] at hin
  exact ht (hin.trans (K.payload_infix hp))

theorem quiet_no_header (K : Cutting B) (c : Conn) (hfirst : K.NoTagFirst)
    (hh : K.NoHeaderBehind) : Quiet (start B c) (K.pbufs.map Pbuf.head) := by
  refine quiet_of_no_header rfl ?_ ?_ fun q hq => ?_
  · intro q hq
    rw [List.head?_map] at hq
    obtain ⟨p, hp, rfl⟩ := Option.map_eq_some_iff.mp hq
    rw [K.mem_eq (List.mem_of_mem_head? hp)]
    exact hfirst p hp
  · intro q hq
    obtain ⟨p, hp, rfl⟩ := List.mem_map.mp hq
    exact K.nonempty p hp
  · rw [← List.map_tail] at hq
    obtain ⟨p, hp, rfl⟩ := List.mem_map.mp hq
    by_contra hne
    have hpost : isPostHeader p.head.mem p.head.payload.length = true := Bool.not_eq_false _ ▸ hne
    rw [K.mem_eq (List.mem_of_mem_tail hp), isPostHeader, Bool.and_eq_true, startsWith,
      List.isPrefixOf_iff_prefix] at hpost
    exact hh p hp hpost.2

end Cutting

/-- **The cut does not matter behind the preamble.** For every body and every two cuttings of it
that agree on the preamble, from power-on with every IAP command succeeding: the same blocks are
programmed, and both runs are answered `DONE` or neither is. -/
theorem cutting_irrelevant {B : List UInt8} (K K' : Cutting B) (c : Conn) (uri : List UInt8)
    (hu : startsWith uri (bytes "/upload") = true) (h : K.AgreeOnPreamble K') :
    K.SameOutcome K' c uri := by
  rcases h with ⟨P, hP, hP'⟩ | ht | ⟨⟨hfirst, hh⟩, hfirst', hh'⟩
  · obtain ⟨D, hB⟩ := hP.prefix_body
    by_cases hD : D = []
    · -- the body is the preamble: both cuttings are one pbuf
      rw [hD, List.append_nil] at hB
      have hsegs : K.pbufs.map Pbuf.head = K'.pbufs.map Pbuf.head := by
        rw [K.single_of_preamble hB.symm hP, K'.single_of_preamble hB.symm hP']
      constructor
      · rw [K.ops_eq c hu, K'.ops_eq c hu, hsegs]
      · rw [K.answers_eq c hu, K'.answers_eq c hu, hsegs]
    · obtain ⟨hfinal, hdone⟩ := K.run_upload hB.symm hD hP c
      obtain ⟨hfinal', hdone'⟩ := K'.run_upload hB.symm hD hP' c
      constructor
      · rw [K.ops_eq c hu, K'.ops_eq c hu, hfinal, hfinal']
      · rw [K.answers_eq c hu, K'.answers_eq c hu]
        exact ⟨fun _ => hdone', fun _ => hdone⟩
  · exact Cutting.sameOutcome_of_quiet hu (K.quiet_no_tag c ht) (K'.quiet_no_tag c ht)
  · exact Cutting.sameOutcome_of_quiet hu (K.quiet_no_header c hfirst hh)
      (K'.quiet_no_header c hfirst' hh')

def wholeBody : Cutting (Preamble.plain.bytes ++ [1]) where
  pbufs := [.opening 1]
  unchained := by simp [Pbuf.opening, Pbuf.single]
  nonempty := by simp [Pbuf.opening, Pbuf.single]
  confined := by simp [Pbuf.opening, Pbuf.single]
  bytes_eq := rfl

def bodyCutBehind : Cutting (Preamble.plain.bytes ++ [1]) where
  pbufs := [.single Preamble.plain.bytes (by decide), .single [1] (by decide)]
  unchained := by simp [Pbuf.single]
  nonempty := by simp [Pbuf.single]; decide
  confined := by simp [Pbuf.single]
  bytes_eq := rfl

theorem cutting_irrelevant_behind :
    wholeBody.SameOutcome bodyCutBehind 1 (bytes "/upload") :=
  cutting_irrelevant wholeBody bodyCutBehind 1 (bytes "/upload") (by decide)
    (.inl ⟨.plain, ⟨_, rfl, List.prefix_append _ _⟩, ⟨_, rfl, List.prefix_refl _⟩⟩)

/-- The same body, cut inside the preamble. -/
def bodyCutInside : Cutting (Preamble.plain.bytes ++ [1]) where
  pbufs := [.single (Preamble.plain.bytes.take 5) (by decide),
    .single (Preamble.plain.bytes.drop 5 ++ [1]) (by decide)]
  unchained := by simp [Pbuf.single]
  nonempty := by simp [Pbuf.single]; decide
  confined := by simp [Pbuf.single]
  bytes_eq := rfl

/-- The whole body is answered `DONE`, the same body cut inside the preamble is not. -/
theorem cut_in_preamble : ¬ wholeBody.SameOutcome bodyCutInside 1 (bytes "/upload") := by
  intro h
  have hwhole : .done ∈ wholeBody.answers 1 (bytes "/upload") := by decide
  have hcut : .done ∉ bodyCutInside.answers 1 (bytes "/upload") := by decide
  exact hcut (h.done.mp hwhole)

end AdcUdpStream.Loader
