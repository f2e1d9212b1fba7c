import AdcUdpStream.Loader.Session

/-!
# When the loader jumps to the application

The jump is taken by the first `httpd_post_finished` after some `DONE`. A
`Ledger` is kept beside the run: the last accepted POST, its declared length and
the bytes handed over for it. `Orderly` are the calls that meet neither the byte
counter nor the reboot flag of another session, nor the header parser, nor a tag
behind the buffer's end; along such calls every jump is that of a connection
whose whole body was handed over (`jump_only_after_body`).
-/

namespace AdcUdpStream.Loader

open CStr Steps

variable {F : Type} (wf : WriteFlash F)

/-- The last accepted POST: its connection, declared length and the bytes handed over since. -/
structure Ledger where
  conn : Conn
  declared : Int
  handed : Nat
  deriving DecidableEq

def Ledger.record (g : Option Ledger) (e : Event) (a : Answer) : Option Ledger :=
  match e with
  | .postBegin c _ n => if a.err = .ok then some ⟨c, n, 0⟩ else g
  | .receiveData c p =>
    g.map fun l => if l.conn = c then { l with handed := l.handed + p.totLen } else l
  | .postFinished _ => g

/-- A jump is taken for the connection of the last accepted POST, whose body was handed over. -/
def JumpJustified (sg : Post F × Option Ledger) (e : Event) : Prop :=
  (step wf sg.1 e).2.jumps = true →
    ∃ c l, e = .postFinished c ∧ sg.2 = some l ∧ l.conn = c ∧ l.declared ≤ l.handed

/-- The calls that keep clear of what earlier sessions left behind. -/
def Orderly (s : Post F) : Event → Prop
  | .postBegin c uri _ => Accepts s c uri → s.upd.curlen = 0
  | .receiveData c p => s.currentConnection = some c →
    (s.upd.fwupdate.state = .header → parseHeader p.head.mem p.len = none) ∧
      (s.upd.fwupdate.state = .octetStart → ∀ o, strstr p.head.mem octetStreamTag = some o →
        o + octetStreamTag.length ≤ p.len)
  | .postFinished c => s.reboot = true → s.currentConnection = some c

/-! ## The invariant -/

/-- The file the machine waits for is covered by the declared length and the bytes handed over. -/
structure Covered (u : Updater F) (l : Ledger) : Prop where
  start : u.fwupdate.state = .octetStart →
    u.fwupdate.contentLength = l.declared ∧ u.curlen = 0
  stream : u.fwupdate.state = .octetStream →
    l.declared ≤ u.fwupdate.fileLength + (l.handed - u.curlen)

section Feed

variable {u : Updater F} {l : Ledger} {q : Segment} {m : Nat}

theorem Covered.of_header (h : u.fwupdate.state = .header) : Covered u l :=
  ⟨fun hs => (by rw [h] at hs; cases hs), fun hs => (by rw [h] at hs; cases hs)⟩

theorem covered_stream {xs : List UInt8} (hs : u.fwupdate.state = .octetStream)
    (h : l.declared ≤ u.fwupdate.fileLength + (l.handed - (u.curlen + xs.length))) :
    Covered (octetStream wf u xs).1 l ∧
      ((octetStream wf u xs).2 = .done → l.declared ≤ l.handed) := by
  by_cases hle : u.fwupdate.fileLength ≤ u.curlen + xs.length
  · rw [octetStream_done wf hle]
    exact ⟨.of_header rfl, fun _ => by omega⟩
  · rw [octetStream_inprogress wf (Int.not_le.mp hle)]
    refine ⟨⟨fun hs' => ?_, fun _ => h⟩, fun hd => by cases hd⟩
    rw [show u.fwupdate.state = .octetStart from hs'] at hs
    cases hs

/-- **One pbuf keeps the file covered**, and ends it only when the whole body was handed over. -/
theorem covered_feed (h : Covered u l) (hm : q.payload.length ≤ m)
    (hhead : u.fwupdate.state = .header → parseHeader q.mem q.payload.length = none)
    (htag : u.fwupdate.state = .octetStart → ∀ o, strstr q.mem octetStreamTag = some o →
      o + octetStreamTag.length ≤ q.payload.length) :
    Covered (feed wf u q).1 { l with handed := l.handed + m } ∧
      ((feed wf u q).2 = .done → l.declared ≤ (l.handed + m : Nat)) := by
  cases hs : u.fwupdate.state with
  | header =>
    obtain ⟨n, ret, hf, hret, -⟩ := feed_header wf hs (hhead hs)
    rw [hf]
    exact ⟨.of_header hs, fun hd => absurd hd hret⟩
  | octetStart =>
    obtain ⟨hn, hc⟩ := h.start hs
    rcases feed_octetStart wf hs (htag hs) with hf | hf | ⟨e, he, hf | hf⟩
    · rw [hf]
      refine ⟨⟨fun _ => ⟨hn, hc⟩, fun hs' => ?_⟩, fun hd => by cases hd⟩
      rw [hs] at hs'
      cases hs'
    · rw [hf]
      exact ⟨.of_header rfl, fun hd => by cases hd⟩
    · rw [hf]
      refine ⟨⟨fun hs' => (by cases hs'), fun _ => ?_⟩, fun hd => by cases hd⟩
      simp only [Fwupdate.armed]
      omega
    · rw [hf]
      apply covered_stream wf rfl
      simp only [Fwupdate.armed, List.length_drop]
      omega
  | octetStream =>
    have hl := h.stream hs
    by_cases hq : q.payload = []
    · rw [feed_empty wf hq]
      refine ⟨⟨fun hs' => ?_, fun _ => ?_⟩, fun hd => by cases hd⟩
      · rw [hs] at hs'
        cases hs'
      · show l.declared ≤ u.fwupdate.fileLength + ((l.handed + m : Nat) - u.curlen)
        omega
    · rw [feed_stream wf hs hq]
      apply covered_stream wf hs
      dsimp only
      omega

end Feed

/-- The statics and the ledger: a pending reboot is that of the last accepted POST, complete; the
current connection's file is covered. -/
structure SessionInv (s : Post F) (g : Option Ledger) : Prop where
  curlen : 0 ≤ s.upd.curlen
  reboot : s.reboot = true → 0 < s.upd.curlen ∧
    ∃ l, g = some l ∧ s.currentConnection = some l.conn ∧ l.declared ≤ l.handed
  session : ∀ c, s.currentConnection = some c → ∃ l, g = some l ∧ l.conn = c ∧ Covered s.upd l

/-- **One orderly call keeps the invariant** until the jump. -/
theorem sessionInv_step {s : Post F} {g : Option Ledger} {e : Event}
    (h : s.jumped = false → SessionInv s g) (ho : Orderly s e) :
    (step wf s e).1.jumped = false →
      SessionInv (step wf s e).1 (Ledger.record g e (step wf s e).2) := by
  have hcall := step_call wf s e
  generalize step wf s e = r at hcall ⊢
  cases hcall with
  | off hj =>
    intro hj'
    rw [hj] at hj'
    cases hj'
  | @accepted c uri n hj ha =>
    intro _
    obtain ⟨hcur, hreb, -⟩ := h hj
    have h0 : s.upd.curlen = 0 := ho ha
    refine ⟨hcur, fun hr => ?_, fun c' hc' => ?_⟩
    · -- a pending reboot has a byte counter above 0
      have := (hreb hr).1
      omega
    · refine ⟨⟨c, n, 0⟩, rfl, Option.some.inj hc', fun _ => ⟨rfl, h0⟩, fun hs => ?_⟩
      cases hs
  | refused hj ha => exact fun _ => h hj
  | @fed c p s' hj hc hupd hc' hj' hreboot =>
    intro _
    obtain ⟨hcur, hreb, hses⟩ := h hj
    obtain ⟨l, hl, rfl, hcov⟩ := hses c hc
    obtain ⟨hhead, htag⟩ := ho hc
    obtain ⟨hcov', hdone⟩ := covered_feed wf (m := p.totLen) hcov (Nat.le_add_right _ _)
      hhead htag
    have hle := feed_curlen_le wf s.upd p.head
    have hrec : Ledger.record g (.receiveData l.conn p)
        { status := some (feed wf s.upd p.head).2 } =
          some { l with handed := l.handed + p.totLen } := by
      simp only [Ledger.record, hl, Option.map_some, ↓reduceIte]
    rw [hrec]
    refine ⟨by rw [hupd]; omega, fun hr => ?_, fun c hc => ⟨_, rfl, ?_, by rw [hupd]; exact hcov'⟩⟩
    · rw [hupd]
      rcases hreboot.mp hr with hr | hd
      · obtain ⟨hpos, l', hl', -, hcov⟩ := hreb hr
        obtain rfl := Option.some.inj (hl.symm.trans hl')
        refine ⟨by omega, _, rfl, hc', ?_⟩
        dsimp only
        omega
      · refine ⟨?_, _, rfl, hc', hdone hd⟩
        rcases feed_curlen wf s.upd p.head with hlt | ⟨-, -, hnd⟩
        · omega
        · exact absurd hd hnd
    · exact Option.some.inj (hc'.symm.trans hc)
  | @unknown c p hj hc =>
    intro _
    obtain ⟨hcur, hreb, hses⟩ := h hj
    -- data of another connection is not counted for the current one
    have hother : ∀ l, g = some l → s.currentConnection = some l.conn →
        Ledger.record g (.receiveData c p) { err := .val } = some l := by
      intro l hl hlc
      have hne : l.conn ≠ c := fun heq => hc (heq ▸ hlc)
      simp only [Ledger.record, hl, Option.map_some, if_neg hne]
    refine ⟨hcur, fun hr => ?_, fun c' hc' => ?_⟩
    · obtain ⟨hpos, l, hl, hlc, hle⟩ := hreb hr
      exact ⟨hpos, l, hother l hl hlc, hlc, hle⟩
    · obtain ⟨l, hl, rfl, hcov⟩ := hses c' hc'
      exact ⟨l, hother l hl hc', rfl, hcov⟩
  | jumps hj hr =>
    intro hj'
    cases hj'
  | closes hj hr hc =>
    intro _
    refine ⟨(h hj).curlen, fun hr' => ?_, fun c' hc' => by cases hc'⟩
    rw [show s.reboot = true from hr'] at hr
    cases hr
  | ignores hj hr hc => exact fun _ => h hj

theorem jump_of_inv {s : Post F} {g : Option Ledger} {e : Event}
    (h : s.jumped = false → SessionInv s g) (ho : Orderly s e) : JumpJustified wf (s, g) e := by
  have hcall := step_call wf s e
  unfold JumpJustified
  generalize step wf s e = r at hcall ⊢
  intro hjump
  cases hcall with
  | @jumps c hj hr =>
    obtain ⟨-, l, hl, hc, hle⟩ := (h hj).reboot hr
    exact ⟨c, l, rfl, hl, Option.some.inj (hc.symm.trans (ho hr)), hle⟩
  | _ => cases hjump

/-- **No premature boot along orderly calls.** Whatever the callee of `write_flash` answers: in
every run from power-on whose calls are orderly, every jump is taken for the connection whose POST
was accepted last, and at least its declared length had been handed over. -/
theorem jump_only_after_body (f : F) (es : List Event)
    (ho : Along (step wf) Orderly (powerOn f) es) :
    Along (withHistory (step wf) Ledger.record) (JumpJustified wf) (powerOn f, none) es := by
  refine along_of_inv (Q := fun sg e => Orderly sg.1 e)
    (I := fun sg => sg.1.jumped = false → SessionInv sg.1 sg.2)
    (fun sg e => sessionInv_step wf) (fun sg e => jump_of_inv wf) ?_
    ((along_withHistory (powerOn f) none es).mpr ho)
  exact fun _ => ⟨Int.le_refl 0, fun hr => (by cases hr), fun c hc => (by cases hc)⟩

def finishedUpload : List Event :=
  (Upload.pair 1 2).events 7 (bytes "/upload") ++ [.postFinished 7]

theorem finishedUpload_orderly :
    Along (step succeedingFlash) Orderly (powerOn {}) finishedUpload := by
  refine ⟨fun _ => rfl, fun _ => ⟨fun h => ?_, fun _ o ho => ?_⟩,
    fun _ => ⟨fun h => ?_, fun h => ?_⟩,
    fun _ => by decide, trivial⟩
  · exact absurd h (by decide)
  · exact strstr_length ho
  · exact absurd h (by decide)
  · exact absurd h (by decide)

theorem jump_only_after_body_pair :
    Along (withHistory (step succeedingFlash) Ledger.record) (JumpJustified succeedingFlash)
      (powerOn {}, none) finishedUpload :=
  jump_only_after_body succeedingFlash {} finishedUpload finishedUpload_orderly

/-- One byte of an aborted upload, then a first byte of a second one: the file is done, and the
early close of the second connection jumps. -/
def stolenBoot : List Event :=
  [.postBegin 1 (bytes "/upload") 49,
    .receiveData 1 (.opening 0),
    .postFinished 1,
    .postBegin 2 (bytes "/upload") 49,
    .receiveData 2 (.opening 0)]

/-- The second connection is closed after 48 of its 49 bytes, and the loader jumps. -/
theorem premature_jump :
    ¬ Along (withHistory (step succeedingFlash) Ledger.record) (JumpJustified succeedingFlash)
      (powerOn {}, none) (stolenBoot ++ [.postFinished 2]) := by
  intro h
  have hledger : (final (withHistory (step succeedingFlash) Ledger.record) (powerOn {}, none)
      stolenBoot).2 = some ⟨2, 49, 48⟩ := by decide
  obtain ⟨-, hjump, -⟩ := (along_append _ _ _).mp h
  obtain ⟨c, l, -, hl, -, hle⟩ := hjump (by decide)
  rw [hledger] at hl
  obtain rfl := Option.some.inj hl
  exact absurd hle (by decide)

end AdcUdpStream.Loader
