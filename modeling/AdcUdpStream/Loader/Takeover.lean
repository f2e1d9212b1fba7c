import AdcUdpStream.Loader.Session

/-!
# Several clients

One session slot and one set of stream counters serve all connections. A
`Delivery` is kept beside the run: the last accepted POST and the pbufs handed
over for it. As long as every accepted begin finds the byte counter at 0, a
`DONE` means that flash holds the data of that connection alone
(`done_holds_own_image`), also when begins are refused or take the session over.
-/

namespace AdcUdpStream.Loader

open CStr Steps

/-- The last accepted POST: its connection, declared length and the pbufs handed over since. -/
structure Delivery where
  conn : Conn
  declared : Int
  pbufs : List Pbuf

def Delivery.record (g : Option Delivery) (e : Event) (a : Answer) : Option Delivery :=
  match e with
  | .postBegin c _ n => if a.err = .ok then some ⟨c, n, []⟩ else g
  | .receiveData c p => g.map fun l => if l.conn = c then { l with pbufs := l.pbufs ++ [p] } else l
  | .postFinished _ => g

structure Delivery.PartOf (l : Delivery) (U : Upload) : Prop where
  declared : U.contentLen = l.declared
  pbufs : l.pbufs <+: U.pbufs

/-- Every body is well-formed: data of the current connection continues an upload. -/
def WellFormed (sg : Post Main × Option Delivery) : Event → Prop
  | .receiveData c p => sg.1.currentConnection = some c → ∀ l, sg.2 = some l →
    ∃ U : Upload, Delivery.PartOf { l with pbufs := l.pbufs ++ [p] } U
  | _ => True

def FitsFlash (sg : Post Main × Option Delivery) : Event → Prop
  | .receiveData c p => sg.1.currentConnection = some c → ∀ l, sg.2 = some l →
    ∀ U : Upload, Delivery.PartOf { l with pbufs := l.pbufs ++ [p] } U → U.data.length ≤ 0x70000
  | _ => True

/-- An accepted begin finds the byte counter at 0. -/
def FreshBegin (s : Post Main) : Event → Prop
  | .postBegin c uri _ => Accepts s c uri → s.upd.curlen = 0
  | _ => True

/-- `DONE` is returned for the last pbuf of a body, and flash holds the data of that body. -/
def HoldsOwn (cell : FlashCell) (f : Flash) (sg : Post Main × Option Delivery) (e : Event) : Prop :=
  (step succeedingFlash sg.1 e).2.status = some .done →
    ∃ (c : Conn) (p : Pbuf) (l : Delivery) (U : Upload), e = .receiveData c p ∧
      sg.2 = some l ∧ l.conn = c ∧ U.contentLen = l.declared ∧
      U.pbufs = l.pbufs ++ [p] ∧
      HoldsImage f (flashAfter cell f (step succeedingFlash sg.1 e).1.upd.stage.flash.log) U.data

/-! ## Bodies -/

/-- Two preambles of one body are equal: the first tag ends both. -/
theorem Preamble.unique {P Q : Preamble} {B : List UInt8} (hP : P.bytes <+: B)
    (hQ : Q.bytes <+: B) : P.bytes = Q.bytes := by
  obtain ⟨o, ho, hlen⟩ := P.tag
  obtain ⟨o', ho', hlen'⟩ := Q.tag
  obtain ⟨r, rfl⟩ := hP
  obtain ⟨r', hr⟩ := hQ
  have h : find octetStreamTag (P.bytes ++ r) = some o := find_append ho
  rw [← hr, find_append ho', Option.some.injEq] at h
  exact (List.append_inj hr (by omega)).1.symm

theorem Upload.bytes_split {U : Upload} {ps qs : List Pbuf} (h : ps ++ qs = U.pbufs) :
    bodyBytes ps ++ bodyBytes qs = U.preamble.bytes ++ U.data := by
  rw [← bodyBytes_append, h]
  exact U.bytes_eq

theorem Upload.rest_nil {U : Upload} {ps qs : List Pbuf} (hsplit : ps ++ qs = U.pbufs)
    (hall : (U.preamble.bytes ++ U.data).length ≤ (bodyBytes ps).length) : qs = [] := by
  have hbytes := congrArg List.length (U.bytes_split hsplit)
  rw [List.length_append] at hbytes
  rcases qs with _ | ⟨q, qs⟩
  · rfl
  · have hpos := U.nonempty q (by rw [← hsplit]; simp)
    rw [← List.singleton_append, bodyBytes_append, bodyBytes_singleton, List.length_append,
      q.bytes_length] at hbytes
    omega

/-- What the state machine gets to see of the chains. -/
theorem payloads_sublist (ps : List Pbuf) :
    (payloads (ps.map Pbuf.head)).Sublist (bodyBytes ps) := by
  induction ps with
  | nil => exact List.Sublist.slnil
  | cons p ps ih =>
    rw [List.map_cons, payloads_cons, ← List.singleton_append, bodyBytes_append,
      bodyBytes_singleton]
    exact (List.sublist_append_left _ _).append ih

theorem payloads_snoc (ps : List Pbuf) (p : Pbuf) :
    payloads ((ps ++ [p]).map Pbuf.head) = payloads (ps.map Pbuf.head) ++ p.head.payload := by
  rw [List.map_append, payloads_append, List.map_singleton, payloads_cons, payloads_nil,
    List.append_nil]

/-! ## The invariant -/

/-- How far the machine is with the current delivery: before the first pbuf, in the stream with the
bytes `xs` taken, or past the end. -/
inductive Progress (u : Updater Main) (l : Delivery) : Prop
  | start (hps : l.pbufs = []) (hs : u.fwupdate.state = .octetStart)
      (hn : u.fwupdate.contentLength = l.declared) (hcur : u.curlen = 0)
  | stream (P : Preamble) (xs : List UInt8)
      (hP : ∃ q, l.pbufs.head? = some q ∧ P.bytes <+: q.head.payload)
      (hbytes : payloads (l.pbufs.map Pbuf.head) = P.bytes ++ xs)
      (hs : u.fwupdate.state = .octetStream)
      (hfl : u.fwupdate.fileLength = l.declared - P.bytes.length) (hcur : u.curlen = xs.length)
      (hstage : u.stage = xs.foldl (storeByte succeedingFlash) Stage.init)
  | past (hall : l.declared ≤ (bodyBytes l.pbufs).length)

section Step

variable {u : Updater Main} {l : Delivery} {p : Pbuf} {U : Upload} (cell : FlashCell) {f : Flash}

theorem progress_stream {xs ys : List UInt8} {ps qs : List Pbuf}
    (hfit : U.data.length ≤ 0x70000) (hf : f.UserErased)
    (hP : ∃ q, ps.head? = some q ∧ U.preamble.bytes <+: q.head.payload)
    (hsplit : ps ++ qs = U.pbufs)
    (hbytes : payloads (ps.map Pbuf.head) = U.preamble.bytes ++ (xs ++ ys))
    (hs : u.fwupdate.state = .octetStream)
    (hfl : u.fwupdate.fileLength = U.contentLen - U.preamble.bytes.length)
    (hcur : u.curlen = xs.length)
    (hstage : u.stage = xs.foldl (storeByte succeedingFlash) Stage.init) (c : Conn) :
    Progress (octetStream succeedingFlash u ys).1 ⟨c, U.contentLen, ps⟩ ∧
      ((octetStream succeedingFlash u ys).2 = .done → qs = [] ∧
        HoldsImage f
          (flashAfter cell f (octetStream succeedingFlash u ys).1.stage.flash.log) U.data) := by
  have hall := U.bytes_split hsplit
  have hlen : U.contentLen = ((U.preamble.bytes ++ U.data).length : Nat) := rfl
  have hfold : ys.foldl (storeByte succeedingFlash) u.stage =
      (xs ++ ys).foldl (storeByte succeedingFlash) Stage.init := by
    rw [hstage, List.foldl_append]
  by_cases hle : u.fwupdate.fileLength ≤ u.curlen + ys.length
  · have hsub := payloads_sublist ps
    have hpay := congrArg List.length hbytes
    rw [List.length_append, List.length_append] at hpay
    rw [hfl, hlen, hcur] at hle
    have hseen : (U.preamble.bytes ++ U.data).length ≤ (payloads (ps.map Pbuf.head)).length := by
      omega
    have hpre := hseen.trans hsub.length_le
    have hqs : qs = [] := U.rest_nil hsplit hpre
    rw [hqs, show bodyBytes [] = [] from rfl, List.append_nil] at hall
    have hsame : payloads (ps.map Pbuf.head) = bodyBytes ps := by
      apply hsub.eq_of_length_le
      rw [hall]
      exact hseen
    have hdata : xs ++ ys = U.data := by
      rw [← hsame, hbytes] at hall
      exact List.append_cancel_left hall
    rw [octetStream_done succeedingFlash (by rw [hfl, hlen, hcur]; exact hle)]
    refine ⟨.past (by rw [hlen]; exact Int.ofNat_le.mpr hpre), fun _ => ⟨hqs, ?_⟩⟩
    dsimp only
    rw [hfold, hdata]
    exact stream_image cell hf hfit
  · rw [octetStream_inprogress succeedingFlash (Int.not_le.mp hle)]
    refine ⟨.stream U.preamble (xs ++ ys) hP hbytes hs hfl ?_ hfold, fun hd => by cases hd⟩
    dsimp only
    rw [hcur, List.length_append]
    rfl

/-- **One pbuf of a well-formed delivery.** The machine stays with the delivery, and `DONE` comes
with its last pbuf and leaves its data in flash. -/
theorem progress_feed (hl : Progress u l) (hstage : u.curlen = 0 → u.stage = Stage.init)
    (hpart : Delivery.PartOf { l with pbufs := l.pbufs ++ [p] } U)
    (hfit : U.data.length ≤ 0x70000) (hf : f.UserErased) :
    Progress (feed succeedingFlash u p.head).1 { l with pbufs := l.pbufs ++ [p] } ∧
      ((feed succeedingFlash u p.head).2 = .done → U.pbufs = l.pbufs ++ [p] ∧
        HoldsImage f
          (flashAfter cell f (feed succeedingFlash u p.head).1.stage.flash.log) U.data) := by
  obtain ⟨hdecl, ⟨rest, hsplit⟩⟩ := hpart
  dsimp only at hdecl hsplit
  obtain ⟨c, n, ps⟩ := l
  obtain rfl : U.contentLen = n := hdecl
  have hdone : ∀ {r : FwupdateStatus} {log : List IapEvent},
      (r = .done → rest = [] ∧ HoldsImage f (flashAfter cell f log) U.data) →
      r = .done → U.pbufs = ps ++ [p] ∧ HoldsImage f (flashAfter cell f log) U.data := by
    intro r log h hr
    obtain ⟨hnil, himage⟩ := h hr
    exact ⟨by rw [← hsplit, hnil, List.append_nil], himage⟩
  cases hl with
  | start hps hs hn hcur =>
    obtain rfl : ps = [] := hps
    have hpre : U.preamble.bytes <+: p.head.payload := U.first p (by rw [← hsplit]; rfl)
    obtain ⟨o, htag, ho⟩ := U.preamble.strstr_mem hpre
    have hdata := List.length_pos_iff.mpr U.data_ne
    have hlen : U.contentLen = (U.preamble.bytes.length + U.data.length : Nat) := by
      rw [Upload.contentLen, List.length_append]
    dsimp only at hn
    have hfeed := feed_preamble succeedingFlash hs hpre htag ho (.inr (by omega))
    have hbytes : payloads (([] ++ [p]).map Pbuf.head) =
        U.preamble.bytes ++ ([] ++ p.head.payload.drop U.preamble.bytes.length) := by
      obtain ⟨r, hr⟩ := hpre
      rw [payloads_snoc, List.map_nil, payloads_nil, List.nil_append, List.nil_append, ← hr,
        List.drop_left]
    have hprog := progress_stream cell
      (u := { u with fwupdate := u.fwupdate.armed U.preamble.bytes.length }) hfit hf
      ⟨p, rfl, hpre⟩ hsplit hbytes rfl (by simp only [Fwupdate.armed, hn]) hcur (hstage hcur) c
    rw [hfeed]
    exact ⟨hprog.1, hdone hprog.2⟩
  | stream P xs hfirst hbytes hs hfl hcur hst =>
    obtain ⟨q, hq, hPq⟩ := hfirst
    dsimp only at hq hbytes hfl
    have hq' : (ps ++ [p]).head? = some q := by rw [List.head?_append, hq, Option.some_or]
    -- the preamble found in the first pbuf is that of the upload
    have hUq : U.preamble.bytes <+: q.head.payload :=
      U.first q (by rw [← hsplit, List.head?_append, hq', Option.some_or]; rfl)
    have hP : P.bytes = U.preamble.bytes := Preamble.unique hPq hUq
    have hbytes' : payloads ((ps ++ [p]).map Pbuf.head) =
        U.preamble.bytes ++ (xs ++ p.head.payload) := by
      rw [payloads_snoc, hbytes, hP, List.append_assoc]
    by_cases hpne : p.head.payload = []
    · rw [feed_empty succeedingFlash hpne]
      refine ⟨.stream U.preamble xs ⟨q, hq', hUq⟩ ?_ hs (hP ▸ hfl) hcur hst, fun hd => by cases hd⟩
      rw [hbytes', hpne, List.append_nil]
    · have hprog := progress_stream cell hfit hf ⟨q, hq', hUq⟩ hsplit hbytes' hs (hP ▸ hfl) hcur
        hst c
      rw [feed_stream succeedingFlash hs hpne]
      exact ⟨hprog.1, hdone hprog.2⟩
  | past hpast =>
    -- the whole body has been delivered: no pbuf is left
    exfalso
    have hnil : p :: rest = [] :=
      U.rest_nil (by rw [← hsplit, List.append_assoc]; rfl) (Int.ofNat_le.mp hpast)
    cases hnil

end Step

/-- The block loop is untouched while the counter is 0, and until the jump the machine is with the
delivery of the current connection. -/
structure DeliveryInv (s : Post Main) (g : Option Delivery) : Prop where
  untouched : Untouched {} s
  session : s.jumped = false → ∀ c, s.currentConnection = some c →
    ∃ l, g = some l ∧ l.conn = c ∧ Progress s.upd l

/-- **One call keeps the invariant, and its `DONE` leaves the connection's own data in flash.** -/
theorem deliveryInv_step (cell : FlashCell) {f : Flash} (hf : f.UserErased) {s : Post Main}
    {g : Option Delivery} {e : Event} (h : DeliveryInv s g) (hw : WellFormed (s, g) e)
    (hfit : FitsFlash (s, g) e) (hb : FreshBegin s e) :
    DeliveryInv (step succeedingFlash s e).1
        (Delivery.record g e (step succeedingFlash s e).2) ∧ HoldsOwn cell f (s, g) e := by
  have huntouched := untouched_step succeedingFlash e h.untouched
  have hcall := step_call succeedingFlash s e
  unfold HoldsOwn
  generalize step succeedingFlash s e = r at hcall huntouched ⊢
  cases hcall with
  | off hj =>
    refine ⟨⟨huntouched, fun hj' => ?_⟩, fun hd => by cases hd⟩
    rw [show s.jumped = false from hj'] at hj
    cases hj
  | @accepted c uri n hj ha =>
    have h0 : s.upd.curlen = 0 := hb ha
    refine ⟨⟨huntouched, fun _ c' hc' => ?_⟩, fun hd => by cases hd⟩
    exact ⟨⟨c, n, []⟩, rfl, Option.some.inj hc', .start rfl rfl rfl h0⟩
  | refused hj ha => exact ⟨h, fun hd => by cases hd⟩
  | @fed c p s' hj hc hupd hc' hj' hreboot =>
    obtain ⟨l, hl, rfl, hprog⟩ := h.session hj c hc
    obtain ⟨U, hpart⟩ := hw hc l hl
    obtain ⟨hprog', hdone⟩ := progress_feed cell hprog h.untouched.stage hpart
      (hfit hc l hl U hpart) hf
    have hrec : Delivery.record g (.receiveData l.conn p)
        { status := some (feed succeedingFlash s.upd p.head).2 } =
          some { l with pbufs := l.pbufs ++ [p] } := by
      simp only [Delivery.record, hl, Option.map_some, ↓reduceIte]
    refine ⟨⟨huntouched, fun _ c hc => ?_⟩, fun hd => ?_⟩
    · rw [hrec]
      refine ⟨_, rfl, Option.some.inj (hc'.symm.trans hc), ?_⟩
      dsimp only
      rw [hupd]
      exact hprog'
    · obtain ⟨hps, himage⟩ := hdone (Option.some.inj hd)
      dsimp only
      rw [hupd]
      exact ⟨l.conn, p, l, U, rfl, hl, rfl, hpart.declared, hps, himage⟩
  | @unknown c p hj hc =>
    refine ⟨⟨huntouched, fun _ c' hc' => ?_⟩, fun hd => by cases hd⟩
    obtain ⟨l, hl, rfl, hprog⟩ := h.session hj c' hc'
    refine ⟨l, ?_, rfl, hprog⟩
    have hne : l.conn ≠ c := fun heq => hc (heq ▸ hc')
    simp only [Delivery.record, hl, Option.map_some, if_neg hne]
  | jumps hj hr => exact ⟨⟨huntouched, fun hj' => (by cases hj')⟩, fun hd => by cases hd⟩
  | closes hj hr hc =>
    exact ⟨⟨huntouched, fun _ c' hc' => (by cases hc')⟩, fun hd => by cases hd⟩
  | ignores hj hr hc => exact ⟨h, fun hd => by cases hd⟩

/-- **Clients do not mix their images** as long as no begin is accepted after bytes were streamed.
For every interleaving of calls from power-on on erased user flash, every IAP command succeeding,
every body well-formed and small enough for user flash: whenever `DONE` is returned, it is for the
last pbuf of the current connection's body, and flash holds the data of this body. -/
theorem done_holds_own_image (cell : FlashCell) (f : Flash) (es : List Event)
    (hf : f.UserErased)
    (hw : Along (withHistory (step succeedingFlash) Delivery.record) WellFormed
      (powerOn {}, none) es)
    (hfit : Along (withHistory (step succeedingFlash) Delivery.record) FitsFlash
      (powerOn {}, none) es)
    (hb : Along (step succeedingFlash) FreshBegin (powerOn {}) es) :
    Along (withHistory (step succeedingFlash) Delivery.record) (HoldsOwn cell f)
      (powerOn {}, none) es := by
  have hb' : Along (withHistory (step succeedingFlash) Delivery.record)
      (fun sg e => FreshBegin sg.1 e) (powerOn {}, none) es := (along_withHistory _ _ es).mpr hb
  have hguard := (along_and _ _).mpr ⟨hw, (along_and _ _).mpr ⟨hfit, hb'⟩⟩
  refine along_of_inv (I := fun sg => DeliveryInv sg.1 sg.2)
    (fun sg e h hq => (deliveryInv_step cell hf h hq.1 hq.2.1 hq.2.2).1)
    (fun sg e h hq => (deliveryInv_step cell hf h hq.1 hq.2.1 hq.2.2).2) ?_ hguard
  exact ⟨⟨Int.le_refl 0, fun _ => rfl⟩, fun _ c hc => by cases hc⟩

/-! ## Two runs -/

theorem Delivery.PartOf.data_le {l : Delivery} {U : Upload} (h : l.PartOf U) :
    U.data.length ≤ l.declared := by
  have hdecl := h.declared
  rw [Upload.contentLen, List.length_append] at hdecl
  omega

theorem Upload.pair_partOf (c : Conn) (x : UInt8) :
    Delivery.PartOf ⟨c, 49, (Upload.pair x 0).pbufs⟩ (.pair x 0) where
  declared := rfl
  pbufs := List.prefix_refl _

theorem Upload.opening_partOf (c : Conn) (x : UInt8) :
    Delivery.PartOf ⟨c, 49, [.opening x]⟩ (.pair x 0) where
  declared := rfl
  pbufs := ⟨_, rfl⟩

/-- Two clients begin before a byte is streamed. The second has the session, the first's pbuf is
answered `ERR_VAL`, and the second's upload is complete. -/
def secondBegins : List Event :=
  [.postBegin 1 (bytes "/upload") 49, .postBegin 2 (bytes "/upload") 49,
    .receiveData 2 (.opening 66), .receiveData 1 (.opening 65), .receiveData 2 (.byte 0)]

theorem done_holds_own_image_secondBegins :
    Along (withHistory (step succeedingFlash) Delivery.record) (HoldsOwn .nor .erased)
      (powerOn {}, none) secondBegins := by
  apply done_holds_own_image
  · exact fun _ _ _ => rfl
  · refine ⟨trivial, trivial, fun _ l hl => ?_, fun hc => ?_, fun _ l hl => ?_, trivial⟩
    · obtain rfl := Option.some.inj hl
      exact ⟨_, Upload.opening_partOf 2 66⟩
    · exact absurd hc (by decide)
    · obtain rfl := Option.some.inj hl
      exact ⟨_, Upload.pair_partOf 2 66⟩
  · refine ⟨trivial, trivial, fun _ l hl U hU => ?_, fun hc => ?_, fun _ l hl U hU => ?_, trivial⟩
    · obtain rfl := Option.some.inj hl
      have hle : (U.data.length : Int) ≤ 49 := hU.data_le
      omega
    · exact absurd hc (by decide)
    · obtain rfl := Option.some.inj hl
      have hle : (U.data.length : Int) ≤ 49 := hU.data_le
      omega
  · exact ⟨fun _ => rfl, fun _ => rfl, trivial, trivial, trivial, trivial⟩

/-- A second client takes the session over after one byte of the first was streamed. -/
def twoClients : List Event :=
  [.postBegin 1 (bytes "/upload") 49, .receiveData 1 (.opening 65),
    .postBegin 2 (bytes "/upload") 49, .receiveData 2 (.opening 66)]

/-- The second client's first pbuf is answered `DONE`, and flash begins with the first client's
byte. -/
theorem takeover_mixes :
    Along (withHistory (step succeedingFlash) Delivery.record) WellFormed (powerOn {}, none)
        twoClients ∧
      (flashAfter .nor .erased
        (final (step succeedingFlash) (powerOn {}) twoClients).upd.stage.flash.log).mem 0x10000 =
          65 ∧
      ¬ Along (withHistory (step succeedingFlash) Delivery.record) (HoldsOwn .nor .erased)
        (powerOn {}, none) twoClients := by
  refine ⟨?_, by decide +kernel, fun h => ?_⟩
  · refine ⟨trivial, fun _ l hl => ?_, trivial, fun _ l hl => ?_, trivial⟩
    · obtain rfl := Option.some.inj hl
      exact ⟨_, Upload.opening_partOf 1 65⟩
    · obtain rfl := Option.some.inj hl
      exact ⟨_, Upload.opening_partOf 2 66⟩
  · -- an upload of 49 bytes is not complete after 48
    obtain ⟨-, -, -, hdone, -⟩ := h
    obtain ⟨c, p, l, U, he, hl, -, hdecl, hps, -⟩ := hdone (by decide)
    obtain ⟨rfl, rfl⟩ := Event.receiveData.injEq .. ▸ he
    obtain rfl := Option.some.inj hl
    have hbytes := congrArg List.length U.bytes_eq
    rw [hps] at hbytes
    have h49 : (U.preamble.bytes ++ U.data).length = 49 := Int.ofNat.inj hdecl
    rw [h49] at hbytes
    exact absurd hbytes (by decide)

end AdcUdpStream.Loader
