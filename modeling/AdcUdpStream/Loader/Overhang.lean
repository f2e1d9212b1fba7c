import AdcUdpStream.Loader.Body

/-!
# Bytes beyond the content length

`http_post_rxpbuf` counts down to 0 and no further, but hands on the whole pbuf,
and the state machine stores all of it before it tests for the end. What a POST
writes is therefore its body up to the end of the pbuf that holds the last
declared byte, and if a byte has followed the preamble by then, the loader jumps and
looks at no later pbuf (`overhang_stops_at_pbuf`).
-/

namespace AdcUdpStream.Loader

open Blocks CStr Steps

/-! ## The body behind a header -/

theorem Pbuf.behind_flat {p q : Pbuf} {hdrLen : Nat} (h : p.next = [])
    (hq : q ∈ p.behind hdrLen) : q.totLen = q.len := by
  have hnext : q.next = [] := by
    unfold Pbuf.behind at hq
    split at hq
    · cases hq
    · next r hr =>
      obtain rfl := Option.some.inj hq
      rw [h] at hr
      unfold skipHeader at hr
      split at hr
      · cases hr
      · obtain rfl := Option.some.inj hr
        rfl
  exact Pbuf.totLen_of_next hnext

/-- A POST to the upload page on one connection, and everything that is delivered after its header:
unchained pbufs, at least `contentLen` bytes, the preamble inside the first of them. -/
structure PostStream where
  preamble : Preamble
  uri : List UInt8
  uriEnd : Nat
  contentLen : Int
  hdrLen : Nat
  /-- The pbuf of the header, and what may have come with it. -/
  header : Pbuf
  opens : Bool
  later : List (Pbuf × Bool)
  upload : startsWith uri (bytes "/upload")
  request : parseRequest header.head.mem header.len = .post uri uriEnd
  accepts : postHeader header.head.mem header.len uriEnd = some (contentLen, hdrLen)
  header_flat : header.next = []
  flat : ∀ i ∈ later, i.1.next = []
  first : ∀ p ∈ ((header.behind hdrLen).toList ++ later.map Prod.fst).head?,
    preamble.bytes <+: p.head.payload
  long : contentLen ≤ (bodyBytes ((header.behind hdrLen).toList ++ later.map Prod.fst)).length

def Received.data (i : Pbuf × Bool) : Received := ⟨some i.1, i.2⟩

namespace PostStream

variable (S : PostStream)

def body (is : List (Pbuf × Bool)) : List UInt8 :=
  bodyBytes ((S.header.behind S.hdrLen).toList ++ is.map Prod.fst)

def inputs (is : List (Pbuf × Bool)) : List Received :=
  .data (S.header, S.opens) :: is.map .data

theorem contentLen_pos : 0 < S.contentLen := postHeader_pos S.accepts

end PostStream

section Run

variable {F : Type} {wf : WriteFlash F} {f : F} {c : Conn} {n : Nat} {P : Preamble}
  {B : List UInt8} {l : Link F}

theorem recv_taking (h : Taking wf f c n P B l) (i : Pbuf × Bool) :
    ∃ l', Taking wf f c n P B l' ∧
      recv wf c l (.data i) =
        ((httpPostRxpbuf wf c i.2 l' i.1).1,
          { (httpPostRxpbuf wf c i.2 l' i.1).2 with err := .ok }) := by
  refine ⟨{ l with hs.retries := 0 }, ?_, ?_⟩
  · obtain ⟨hc, hj, hr, hopen, hleft, hshort, htaken⟩ := h
    exact ⟨hc, hj, hr, hopen, hleft, hshort, htaken⟩
  · have hleft := h.left
    have hshort := h.short
    have hpos : l.hs.postContentLenLeft > 0 := by omega
    unfold recv
    rw [if_neg (by simp [h.running, h.unclosed])]
    show httpRecv wf c i.2 l (some i.1) = _
    unfold httpRecv
    dsimp only
    rw [if_pos hpos]

theorem Finished.answer {r : Link F × HttpAnswer} (h : Finished wf f c P B r) (err : ErrT) :
    Finished wf f c P B (r.1, { r.2 with err }) :=
  ⟨h.left, h.curlen, h.stage, h.finished, h.done, h.jumped⟩

/-- **The POST ends at the pbuf with its last byte**, and not before. -/
theorem taking_ends {is : List (Pbuf × Bool)} (h : Taking wf f c n P B l)
    (hflat : ∀ i ∈ is, i.1.totLen = i.1.len)
    (hfirst : B = [] → ∀ i ∈ is.head?, P.bytes <+: i.1.head.payload)
    (hlong : n ≤ (B ++ bodyBytes (is.map Prod.fst)).length) :
    ∃ pre i post, is = pre ++ i :: post ∧ (B ++ bodyBytes (pre.map Prod.fst)).length < n ∧
      n ≤ (B ++ bodyBytes ((pre ++ [i]).map Prod.fst)).length ∧
      Finished wf f c P (B ++ bodyBytes ((pre ++ [i]).map Prod.fst))
        (recv wf c (final (recv wf c) l (pre.map .data)) (.data i)) := by
  induction is generalizing B l with
  | nil =>
    have := h.short
    simp only [bodyBytes, List.map_nil, List.flatten_nil, List.append_nil] at hlong
    omega
  | cons i is ih =>
    have hi := hflat i (List.mem_cons_self ..)
    have hfirst' : B = [] → P.bytes <+: i.1.head.payload := fun hB => hfirst hB i rfl
    have hbytes : B ++ bodyBytes [i.1] = B ++ i.1.head.payload := by
      rw [bodyBytes_singleton, Pbuf.bytes_of_len hi]
    obtain ⟨l', h', hrecv⟩ := recv_taking h i
    by_cases hlt : (B ++ i.1.head.payload).length < n
    · -- not yet
      obtain ⟨hnext, -⟩ := httpPostRxpbuf_taking i.2 h' hi hfirst' hlt
      have hcons : ∀ js : List (Pbuf × Bool), B ++ bodyBytes ((i :: js).map Prod.fst) =
          (B ++ i.1.head.payload) ++ bodyBytes (js.map Prod.fst) := by
        intro js
        rw [List.map_cons, ← List.singleton_append, bodyBytes_append, ← List.append_assoc, hbytes]
      rw [hcons] at hlong
      obtain ⟨pre, j, post, rfl, hbefore, hafter, hfin⟩ := ih hnext
        (fun j hj => hflat j (List.mem_cons_of_mem _ hj)) (fun hnil => absurd hnil (begun hfirst'))
        hlong
      refine ⟨i :: pre, j, post, rfl, ?_, ?_, ?_⟩
      · rw [hcons]
        exact hbefore
      · rw [List.cons_append, hcons]
        exact hafter
      · rw [List.cons_append, hcons, List.map_cons, final_cons, hrecv]
        exact hfin
    · refine ⟨[], i, is, rfl, ?_, ?_, ?_⟩
      · simpa [bodyBytes] using h.short
      · rw [List.nil_append, List.map_singleton, hbytes]
        omega
      · rw [List.nil_append, List.map_singleton, hbytes, List.map_nil, final_nil, hrecv]
        exact (httpPostRxpbuf_finishes i.2 h' hi hfirst' (by omega)).answer .ok

theorem final_of_jumped (hj : l.post.jumped = true) (is : List Received) :
    final (recv wf c) l is = l := by
  induction is with
  | nil => rfl
  | cons i is ih =>
    rw [final_cons, show recv wf c l i = (l, {}) from if_pos (.inl hj)]
    exact ih

end Run

/-! ## What a POST writes -/

namespace PostStream

variable (S : PostStream) (c : Conn)

/-- The connection after `is`, from power-on, every IAP command succeeding. -/
def linkAfter (is : List (Pbuf × Bool)) : Link Main :=
  final (recv succeedingFlash c) { post := powerOn {} } (S.inputs is)

def callsAfter (is : List (Pbuf × Bool)) : List (Event × Answer) :=
  (outs (recv succeedingFlash c) { post := powerOn {} } (S.inputs is)).flatMap HttpAnswer.calls

def blocks (is : List (Pbuf × Bool)) : List (Nat × List UInt8) :=
  programOps (S.linkAfter c is).post.upd.stage.flash.log

/-- The POST ended with the last of `is`, with what was written until then. -/
structure EndsAfter (is : List (Pbuf × Bool)) : Prop where
  finished : ∃ a, (Event.postFinished c, a) ∈ S.callsAfter c is
  stage : (S.linkAfter c is).post.upd.stage =
    writeRest succeedingFlash (stored succeedingFlash {} S.preamble.bytes.length (S.body is))
  jumped : (S.linkAfter c is).post.jumped = true ↔ S.preamble.bytes.length < (S.body is).length

abbrev opened : Link Main := accepted succeedingFlash {} c S.uri S.contentLen.toNat

theorem opened_taking :
    Taking succeedingFlash {} c S.contentLen.toNat S.preamble [] (S.opened c) :=
  accepted_taking succeedingFlash {} S.preamble S.upload (by have := S.contentLen_pos; omega)

theorem recv_header :
    ∃ r : Answer, recv succeedingFlash c { post := powerOn {} } (.data (S.header, S.opens)) =
      match S.header.behind S.hdrLen with
      | none => (S.opened c, { calls := [(.postBegin c S.uri S.contentLen, r)] })
      | some q =>
        let f := httpPostRxpbuf succeedingFlash c S.opens (S.opened c) q
        (f.1, { f.2.after (.postBegin c S.uri S.contentLen) r with err := .ok }) := by
  have hpos := S.contentLen_pos
  have hn : ((S.contentLen.toNat : Nat) : Int) = S.contentLen := by omega
  have hbegin : step succeedingFlash (powerOn {}) (.postBegin c S.uri S.contentLen) =
      ((S.opened c).post, { responseUri := some "/loginfail.html" }) := by
    rw [opened, accepted, hn, step_of_running succeedingFlash rfl]
    dsimp only
    rw [begin_accepted S.upload (by simp [powerOn])]
  have hreq : httpParseRequest succeedingFlash c S.opens { post := powerOn {} } S.header =
      httpPostRequest succeedingFlash c S.opens { post := powerOn {} } S.header S.uri S.uriEnd := by
    unfold httpParseRequest
    rw [if_neg (by simp), S.request]
  have hparse := hreq.trans
    (httpPostRequest_accepted (l := { post := powerOn ({} : Main) }) S.accepts hbegin rfl)
  have hrecv : recv succeedingFlash c { post := powerOn {} } (.data (S.header, S.opens)) =
      httpRecv succeedingFlash c S.opens { post := powerOn {} } (some S.header) :=
    if_neg (by simp [powerOn])
  refine ⟨{ responseUri := some "/loginfail.html" }, ?_⟩
  rw [hrecv]
  cases hq : S.header.behind S.hdrLen with
  | none =>
    rw [hq] at hparse
    exact httpRecv_of_parse rfl rfl hparse (by simp)
  | some q =>
    rw [hq] at hparse
    exact httpRecv_of_parse rfl rfl hparse (httpPostRxpbuf_err S.opens (S.opened c) q)

/-- The last declared byte lies in the last of `is`, or came with the header. -/
structure LastByteIn (is : List (Pbuf × Bool)) : Prop where
  reached : S.contentLen ≤ (S.body is).length
  before : ∀ pre i, is = pre ++ [i] → ((S.body pre).length : Int) < S.contentLen

variable {S c}

theorem endsAfter_of_finished {l : Link Main} {a : HttpAnswer} {pre : List (Pbuf × Bool)}
    {i : Pbuf × Bool}
    (h : recv succeedingFlash c { post := powerOn {} } (.data (S.header, S.opens)) = (l, a))
    (hfin : Finished succeedingFlash {} c S.preamble (S.body (pre ++ [i]))
      (recv succeedingFlash c (final (recv succeedingFlash c) l (pre.map .data)) (.data i))) :
    S.EndsAfter c (pre ++ [i]) := by
  have hlink : S.linkAfter c (pre ++ [i]) =
      (recv succeedingFlash c (final (recv succeedingFlash c) l (pre.map .data)) (.data i)).1 := by
    rw [linkAfter, inputs, final_cons, h, List.map_append, final_append]
    rfl
  refine ⟨?_, ?_, ?_⟩
  · obtain ⟨b, hb⟩ := hfin.finished
    refine ⟨b, List.mem_flatMap.mpr ⟨_, ?_, hb⟩⟩
    rw [inputs, outs_cons, h, List.map_append, outs_append]
    exact List.mem_cons_of_mem _ (List.mem_append_right _ (List.mem_singleton.mpr rfl))
  · rw [hlink]
    exact hfin.stage
  · rw [hlink]
    exact hfin.jumped

theorem ends_of_taking {l : Link Main} {a : HttpAnswer} {B : List UInt8}
    (h : recv succeedingFlash c { post := powerOn {} } (.data (S.header, S.opens)) = (l, a))
    (hB : ∀ is, S.body is = B ++ bodyBytes (is.map Prod.fst))
    (ht : Taking succeedingFlash {} c S.contentLen.toNat S.preamble B l)
    (hfirst : B = [] → ∀ i ∈ S.later.head?, S.preamble.bytes <+: i.1.head.payload) :
    ∃ kept dropped, S.later = kept ++ dropped ∧ S.LastByteIn kept ∧ S.EndsAfter c kept := by
  have hlong : S.contentLen ≤ (S.body S.later).length := S.long
  rw [hB] at hlong
  have hflat : ∀ i ∈ S.later, i.1.totLen = i.1.len :=
    fun i hi => Pbuf.totLen_of_next (S.flat i hi)
  obtain ⟨pre, i, post, hsplit, hbefore, hafter, hfin⟩ := taking_ends ht hflat hfirst (by omega)
  rw [← hB] at hbefore hafter
  rw [← hB] at hfin
  refine ⟨pre ++ [i], post, ?_, ⟨by omega, fun pre' j hj => ?_⟩, endsAfter_of_finished h hfin⟩
  · rw [hsplit, List.append_assoc, List.singleton_append]
  · rw [← List.append_inj_left' hj rfl]
    omega

theorem ends (S : PostStream) (c : Conn) :
    ∃ kept dropped, S.later = kept ++ dropped ∧ S.LastByteIn kept ∧ S.EndsAfter c kept := by
  obtain ⟨r, hrecv⟩ := S.recv_header c
  have hfirst := S.first
  cases hq : S.header.behind S.hdrLen with
  | none =>
    rw [hq] at hrecv hfirst
    refine ends_of_taking hrecv (fun is => ?_) (S.opened_taking c) (fun _ i hi => ?_)
    · rw [body, hq]
      rfl
    · apply hfirst i.1
      rw [Option.toList_none, List.nil_append, List.head?_map]
      exact Option.mem_map_of_mem _ hi
  | some q =>
    rw [hq] at hrecv hfirst
    have hflat : q.totLen = q.len := Pbuf.behind_flat S.header_flat hq
    have hpre : ([] : List UInt8) = [] → S.preamble.bytes <+: q.head.payload :=
      fun _ => hfirst q rfl
    have hbody : ∀ is, S.body is = q.head.payload ++ bodyBytes (is.map Prod.fst) := by
      intro is
      rw [body, hq, Option.toList_some, bodyBytes_append, bodyBytes_singleton,
        Pbuf.bytes_of_len hflat]
    by_cases hlt : q.head.payload.length < S.contentLen.toNat
    · obtain ⟨hnext, -⟩ := httpPostRxpbuf_taking S.opens (S.opened_taking c) hflat hpre hlt
      exact ends_of_taking hrecv hbody hnext fun hnil => absurd hnil (begun hpre)
    · have hfin := (httpPostRxpbuf_finishes S.opens (S.opened_taking c) hflat hpre
        (Nat.not_lt.mp hlt))
      have hnil : S.body [] = q.head.payload := by
        rw [hbody, List.map_nil]
        exact List.append_nil _
      have hlink : S.linkAfter c [] =
          (httpPostRxpbuf succeedingFlash c S.opens (S.opened c) q).1 := by
        rw [linkAfter, inputs, List.map_nil, final_cons, final_nil, hrecv]
      refine ⟨[], S.later, rfl, ⟨?_, fun pre i hi => ?_⟩, ⟨?_, ?_, ?_⟩⟩
      · rw [hnil]
        omega
      · exact absurd hi (by simp)
      · obtain ⟨a, ha⟩ := hfin.finished
        refine ⟨a, List.mem_flatMap.mpr ⟨_, List.mem_singleton.mpr rfl, ?_⟩⟩
        rw [hrecv]
        exact List.mem_cons_of_mem _ ha
      · rw [hlink, hnil]
        exact hfin.stage
      · rw [hlink, hnil]
        exact hfin.jumped

/-- The blocks of the body bytes `xs`: whole blocks from 0x10000 on, the last one padded. -/
def WritesBlocks (ws : List (Nat × List UInt8)) (xs : List UInt8) : Prop :=
  ∃ bs pad, ws = placed 1024 0x10000 bs ∧ (∀ b ∈ bs, b.length = 1024) ∧ bs.flatten = xs ++ pad ∧
    pad.length < 1024

theorem EndsAfter.writes {is : List (Pbuf × Bool)} (h : S.EndsAfter c is) :
    WritesBlocks (S.blocks c is) ((S.body is).drop S.preamble.bytes.length) := by
  obtain ⟨bs, pad, hlog, hlen, hflat, hcount⟩ := stream_blocks Main.ready_init Stage.init_pend
    ((S.body is).drop S.preamble.bytes.length)
  refine ⟨bs, pad, ?_, hlen, hflat, ?_⟩
  · rw [blocks, h.stage]
    show programOps (writeRest succeedingFlash
      (((S.body is).drop S.preamble.bytes.length).foldl (storeByte succeedingFlash)
        Stage.init)).flash.log = _
    rw [hlog, programOps_append, programOps_blocksLog]
    rfl
  · have htotal := congrArg List.length hflat
    rw [flatten_length hlen, hcount, List.length_append] at htotal
    omega

end PostStream

/-- **What a POST writes, and where it stops.** For every POST to the upload page and every stream
of at least the declared length behind its header, in unchained pbufs whose first one holds the
preamble, from power-on with every IAP command succeeding: the POST is finished with the pbuf that
holds the last declared byte, the blocks written for it are those of the stream cut off at the end
of that pbuf, and if a byte has followed the preamble by then the loader has jumped, so that what
is delivered later changes nothing. -/
theorem overhang_stops_at_pbuf (S : PostStream) (c : Conn) :
    ∃ kept dropped, S.later = kept ++ dropped ∧ S.LastByteIn kept ∧
      (∃ a, (Event.postFinished c, a) ∈ S.callsAfter c kept) ∧
      PostStream.WritesBlocks (S.blocks c kept)
        ((S.body kept).drop S.preamble.bytes.length) ∧
      (S.preamble.bytes.length < (S.body kept).length →
        (S.linkAfter c kept).post.jumped = true ∧ S.blocks c S.later = S.blocks c kept) := by
  obtain ⟨kept, dropped, hsplit, hlast, hends⟩ := PostStream.ends S c
  refine ⟨kept, dropped, hsplit, hlast, hends.finished, hends.writes, fun hlt => ?_⟩
  have hj := hends.jumped.mpr hlt
  refine ⟨hj, ?_⟩
  have hlink : S.linkAfter c S.later = S.linkAfter c kept := by
    rw [PostStream.linkAfter, hsplit, PostStream.inputs, List.map_append, ← List.cons_append,
      final_append]
    exact final_of_jumped hj _
  rw [PostStream.blocks, hlink, PostStream.blocks]

def PostStream.short (xs : List UInt8) (hpos : 0 < xs.length)
    (hlen : (Preamble.plain.bytes ++ xs).length < 0x10000) : PostStream where
  preamble := .plain
  uri := bytes "/upload"
  uriEnd := 12
  contentLen := 48
  hdrLen := 45
  header := .single (bytes "POST /upload HTTP/1.1\r\nContent-Length: 48\r\n\r\n") (by decide)
  opens := false
  later := [(.single (Preamble.plain.bytes ++ xs) hlen, false)]
  upload := by decide
  request := by decide
  accepts := by decide
  header_flat := rfl
  flat := by
    intro i hi
    rw [List.mem_singleton.mp hi]
    rfl
  first := by
    intro p hp
    obtain rfl : Pbuf.single (Preamble.plain.bytes ++ xs) hlen = p := Option.some.inj hp
    exact List.prefix_append _ _
  long := by
    have hplain : Preamble.plain.bytes.length = 47 := by decide
    show (48 : Int) ≤ (bodyBytes [Pbuf.single (Preamble.plain.bytes ++ xs) hlen]).length
    rw [bodyBytes_singleton, Pbuf.bytes_length]
    show (48 : Int) ≤ ((Preamble.plain.bytes ++ xs).length + 0 : Nat)
    rw [List.length_append]
    omega

def shortBlocks (xs : List UInt8) (hpos : 0 < xs.length)
    (hlen : (Preamble.plain.bytes ++ xs).length < 0x10000) : List (Nat × List UInt8) :=
  (PostStream.short xs hpos hlen).blocks 7 (PostStream.short xs hpos hlen).later

/-- The byte behind the declared ones is written: the blocks are not those of the stream cut off
after 48 bytes. -/
theorem overhang_written :
    (shortBlocks [65, 88] (by decide) (by decide)).map (fun w => w.2.take 3) = [[65, 88, 0]] ∧
      (shortBlocks [65] (by decide) (by decide)).map (fun w => w.2.take 3) = [[65, 0, 0]] ∧
      shortBlocks [65, 88] (by decide) (by decide) ≠ shortBlocks [65] (by decide) (by decide) := by
  have h1 : (shortBlocks [65, 88] (by decide) (by decide)).map (fun w => w.2.take 3) =
      [[65, 88, 0]] := by decide +kernel
  have h2 : (shortBlocks [65] (by decide) (by decide)).map (fun w => w.2.take 3) =
      [[65, 0, 0]] := by decide +kernel
  refine ⟨h1, h2, fun h => ?_⟩
  rw [h, h2] at h1
  exact absurd h1 (by decide)

end AdcUdpStream.Loader
