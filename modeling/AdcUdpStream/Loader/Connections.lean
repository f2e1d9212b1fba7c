import AdcUdpStream.Loader.Httpd

/-!
# Connections and the session slot

All of httpd over any number of connections: a state is allocated when a connection
is accepted, at any address that is not in use, and freed when it is closed, times
out or fails. `Served` says what one callback does to `current_connection`, and from
it: the slot stays with a live connection whose POST is not finished exactly as long
as no `http_err` hits the connection that holds it (`slot_sound_iff`).

How far `http_send_data` gets is an input (`ends`: it closes the connection), and
connections without a state are left out.
-/

namespace AdcUdpStream.Loader

open CStr Steps

/-! ## The callbacks of httpd -/

section Callbacks

variable {F : Type} (wf : WriteFlash F) (c : Conn)

def httpdMaxRetries : Nat := 4

/-- `http_send_data`: the file is at its end or was never opened, and the connection is closed; or
the connection stays open. -/
def httpSendData (ends : Bool) (l : Link F) : Link F × HttpAnswer :=
  if ends then httpCloseConn wf c l else (l, {})

def HttpAnswer.andThen (a : HttpAnswer) (r : Link F × HttpAnswer) : Link F × HttpAnswer :=
  (r.1, { calls := a.calls ++ r.2.calls })

/-- `http_recv`, with the response it starts when the request is complete. -/
def httpRecvSend (opens ends : Bool) (l : Link F) (p : Option Pbuf) : Link F × HttpAnswer :=
  match p with
  | none => httpCloseConn wf c l
  | some p =>
    if l.hs.postContentLenLeft > 0 then
      let f := httpPostRxpbuf wf c opens { l with hs.retries := 0 } p
      -- after the jump nothing is sent
      if f.1.post.jumped = false ∧ f.1.hs.postContentLenLeft = 0 then
        f.2.andThen (httpSendData wf c ends f.1)
      else (f.1, { f.2 with err := .ok })
    else if l.hs.handle then (l, {})
    else
      let r := httpParseRequest wf c opens l p
      if r.2.err = .ok then
        if r.1.hs.postContentLenLeft = 0 then r.2.andThen (httpSendData wf c ends r.1) else r
      else if r.2.err = .arg then r.2.andThen (httpCloseConn wf c r.1)
      else (r.1, { r.2 with err := .ok })

theorem andThen_open (a : HttpAnswer) (l : Link F) :
    a.andThen (httpSendData wf c false l) = (l, { a with err := .ok }) := by
  unfold HttpAnswer.andThen httpSendData
  rw [if_neg Bool.false_ne_true]
  simp

/-- What is sent aside, this is the reception alone. -/
theorem httpRecvSend_open (opens : Bool) (l : Link F) (p : Option Pbuf) :
    httpRecvSend wf c opens false l p = httpRecv wf c opens l p := by
  cases p with
  | none => rfl
  | some p =>
    unfold httpRecvSend httpRecv
    simp only [andThen_open, ite_self]
    split
    · rfl
    · split
      · rfl
      · split
        · next hok =>
          have hne : (httpParseRequest wf c opens l p).2.err ≠ .arg := by
            rw [hok]
            simp
          rw [if_neg hne]
          split
          · rfl
          · rw [← hok]
        · rfl

def httpPoll (ends : Bool) (l : Link F) : Link F × HttpAnswer :=
  let l := { l with hs.retries := l.hs.retries + 1 }
  if l.hs.retries = httpdMaxRetries then httpCloseConn wf c l
  else if l.hs.handle then httpSendData wf c ends l
  else (l, {})

def httpSent (ends : Bool) (l : Link F) : Link F × HttpAnswer :=
  httpSendData wf c ends { l with hs.retries := 0 }

def httpErr (l : Link F) : Link F × HttpAnswer := ({ l with closed := true }, {})

end Callbacks

/-! ## Any number of connections -/

/-- The accepted POSTs that have not had their `httpd_post_finished`, after a callback. -/
def noteCall (begun : Conn → Bool) (call : Event × Answer) : Conn → Bool :=
  match call.1 with
  | .postBegin c _ _ => if call.2.err = .ok then Function.update begun c true else begun
  | .receiveData .. => begun
  | .postFinished c => Function.update begun c false

def noteCalls (begun : Conn → Bool) (calls : List (Event × Answer)) : Conn → Bool :=
  calls.foldl noteCall begun

/-- The statics of `post_example.c` and the live states of httpd. `begun` is no part of the
program: it keeps which accepted POSTs are not finished. -/
structure World (F : Type) where
  post : Post F
  conns : Conn → Option HttpState := fun _ => none
  begun : Conn → Bool := fun _ => false

/-- What TCP calls: a new connection with the address the allocator returned (`none`: it has no
memory), data or the other side's close, the poll timer, an acknowledgement, an error. -/
inductive TcpEvent where
  | accept (hs : Option Conn)
  | recv (c : Conn) (p : Option Pbuf) (opens ends : Bool)
  | poll (c : Conn) (ends : Bool)
  | sent (c : Conn) (ends : Bool)
  | err (c : Conn)

section World

variable {F : Type} (wf : WriteFlash F)

/-- A callback of a live connection; after the jump there are none. -/
def World.callback (w : World F) (c : Conn) (f : Link F → Link F × HttpAnswer) :
    World F × HttpAnswer :=
  match w.conns c with
  | none => (w, {})
  | some hs =>
    if w.post.jumped then (w, {})
    else
      let r := f { post := w.post, hs }
      ({ post := r.1.post
         conns := Function.update w.conns c (if r.1.closed then none else some r.1.hs)
         begun := noteCalls w.begun r.2.calls }, r.2)

/-- `http_accept`: the allocator returns no address that is in use. -/
def httpAccept (w : World F) (hs : Option Conn) : World F × HttpAnswer :=
  match hs with
  | none => (w, { err := .mem })
  | some c =>
    if w.post.jumped ∨ (w.conns c).isSome then (w, {})
    else
      ({ w with
          conns := Function.update w.conns c (some {})
          begun := Function.update w.begun c false }, {})

def tcpStep (w : World F) : TcpEvent → World F × HttpAnswer
  | .accept hs => httpAccept w hs
  | .recv c p opens ends => w.callback c fun l => httpRecvSend wf c opens ends l p
  | .poll c ends => w.callback c (httpPoll wf c ends)
  | .sent c ends => w.callback c (httpSent wf c ends)
  | .err c => w.callback c httpErr

def World.powerOn (f : F) : World F := { post := Loader.powerOn f }

/-! ## The slot -/

/-- The session slot is empty or belongs to a live connection whose accepted POST is not finished;
and when there is no such connection, the next upload is accepted. -/
structure SlotSound (w : World F) : Prop where
  owned : w.post.jumped = false → ∀ c, w.post.currentConnection = some c →
    (w.conns c).isSome ∧ w.begun c = true
  accepts : w.post.jumped = false → (∀ c, (w.conns c).isSome → w.begun c = false) →
    ∀ c uri n, startsWith uri (bytes "/upload") = true →
      (httpdPostBegin w.post c uri n).2.err = .ok

/-- An error does not hit the connection that holds the slot. -/
def ErrSpares (w : World F) : TcpEvent → Prop
  | .err c => w.post.jumped = false → w.post.currentConnection ≠ some c
  | _ => True

end World

/-! ## What one callback does to the slot -/

section Served

variable {F : Type} {wf : WriteFlash F} {c : Conn} {l l' l'' : Link F} {b : Conn → Bool}
  {calls calls' : List (Event × Answer)}

def Event.conn : Event → Conn
  | .postBegin c _ _ => c
  | .receiveData c _ => c
  | .postFinished c => c

/-- If `c` holds the slot, it is open, has content left to receive and an unfinished POST. -/
def Owns (c : Conn) (l : Link F) (b : Conn → Bool) : Prop :=
  l.post.jumped = false → l.post.currentConnection = some c →
    l.closed = false ∧ 0 < l.hs.postContentLenLeft ∧ b c = true

/-- A function for `c` calls for `c` only: no other connection gets the slot or a note. -/
structure Framed (c : Conn) (l : Link F) (b : Conn → Bool) (l' : Link F)
    (calls : List (Event × Answer)) : Prop where
  jumped : l'.post.jumped = false → l.post.jumped = false
  other : ∀ c', c' ≠ c → l'.post.jumped = false → l'.post.currentConnection = some c' →
    l.post.currentConnection = some c'
  begun : ∀ c', c' ≠ c → noteCalls b calls c' = b c'

/-- A function for `c` that leaves the slot with `c` only as it should be. -/
structure Served (c : Conn) (l : Link F) (b : Conn → Bool) (l' : Link F)
    (calls : List (Event × Answer)) : Prop extends Framed c l b l' calls where
  owns : Owns c l' (noteCalls b calls)

theorem noteCalls_append (b : Conn → Bool) (calls calls' : List (Event × Answer)) :
    noteCalls b (calls ++ calls') = noteCalls (noteCalls b calls) calls' :=
  List.foldl_append

theorem Framed.trans (h : Framed c l b l' calls)
    (h' : Framed c l' (noteCalls b calls) l'' calls') : Framed c l b l'' (calls ++ calls') := by
  refine ⟨fun hj => h.jumped (h'.jumped hj), fun c' hne hj hc => ?_, fun c' hne => ?_⟩
  · exact h.other c' hne (h'.jumped hj) (h'.other c' hne hj hc)
  · rw [noteCalls_append, h'.begun c' hne, h.begun c' hne]

theorem Framed.trans_served (h : Framed c l b l' calls)
    (h' : Served c l' (noteCalls b calls) l'' calls') : Served c l b l'' (calls ++ calls') :=
  ⟨h.trans h'.toFramed, by rw [noteCalls_append]; exact h'.owns⟩

theorem Served.of_post {l₀ : Link F} (h : Served c l b l' calls) (hpost : l.post = l₀.post) :
    Served c l₀ b l' calls := by
  obtain ⟨⟨hjumped, hother, hbegun⟩, howns⟩ := h
  rw [hpost] at hjumped hother
  exact ⟨⟨hjumped, hother, hbegun⟩, howns⟩

theorem framed_nil (h : l'.post = l.post) : Framed c l b l' [] :=
  ⟨fun hj => h ▸ hj, fun _ _ _ hc => h ▸ hc, fun _ _ => rfl⟩

theorem noteCall_other {e : Event} (a : Answer) {c' : Conn} (hne : c' ≠ e.conn) :
    noteCall b (e, a) c' = b c' := by
  cases e with
  | postBegin c uri n =>
    unfold noteCall
    dsimp only
    split
    · exact Function.update_of_ne hne ..
    · rfl
  | receiveData c p => rfl
  | postFinished c => exact Function.update_of_ne hne ..

theorem step_other {s : Post F} (e : Event) (hj : (step wf s e).1.jumped = false) :
    s.jumped = false ∧ ∀ c', c' ≠ e.conn → (step wf s e).1.currentConnection = some c' →
      s.currentConnection = some c' := by
  have hcall := step_call wf s e
  generalize step wf s e = r at hcall hj ⊢
  cases hcall with
  | off hj' => exact ⟨hj, fun _ _ hc => hc⟩
  | accepted hj' ha =>
    refine ⟨hj', fun c' hne hc => absurd (Option.some.inj hc).symm hne⟩
  | refused hj' ha => exact ⟨hj', fun _ _ hc => hc⟩
  | fed hj' hc hupd hc' hj'' hreboot =>
    refine ⟨hj', fun c' hne h => absurd (Option.some.inj (h.symm.trans hc')) hne⟩
  | unknown hj' hc => exact ⟨hj', fun _ _ h => h⟩
  | jumps hj' hr => cases hj
  | closes hj' hr hc => exact ⟨hj', fun _ _ h => by cases h⟩
  | ignores hj' hr hc => exact ⟨hj', fun _ _ h => h⟩

theorem finished_current {s : Post F} (hj : (step wf s (.postFinished c)).1.jumped = false) :
    (step wf s (.postFinished c)).1.currentConnection ≠ some c := by
  have hcall := step_call wf s (.postFinished c)
  generalize step wf s (.postFinished c) = r at hcall hj ⊢
  generalize he : Event.postFinished c = e at hcall
  cases hcall with
  | off hj' =>
    rw [show s.jumped = false from hj] at hj'
    cases hj'
  | jumps hj' hr => cases hj
  | closes hj' hr hc => simp [Post.closed]
  | ignores hj' hr hc =>
    obtain rfl := Event.postFinished.inj he
    exact hc
  | _ => cases he

theorem received_current {s : Post F} (p : Pbuf) :
    (step wf s (.receiveData c p)).1.currentConnection = s.currentConnection := by
  have hcall := step_call wf s (.receiveData c p)
  generalize step wf s (.receiveData c p) = r at hcall ⊢
  generalize he : Event.receiveData c p = e at hcall
  cases hcall with
  | off hj => rfl
  | fed hj hc hupd hc' hj' hreboot => exact hc'.trans hc.symm
  | unknown hj hc => rfl
  | _ => cases he

theorem framed_step {e : Event} (he : e.conn = c) (h : l'.post = (step wf l.post e).1) :
    Framed c l b l' [(e, (step wf l.post e).2)] := by
  subst he
  refine ⟨fun hj => ?_, fun c' hne hj hc => ?_, fun c' hne => noteCall_other _ hne⟩
  · rw [h] at hj
    exact (step_other e hj).1
  · rw [h] at hj hc
    exact (step_other e hj).2 c' hne hc

theorem owns_of_ne (h : l.post.jumped = false → l.post.currentConnection ≠ some c) : Owns c l b :=
  fun hj hc => absurd hc (h hj)

/-! ## The functions -/

theorem httpHandlePostFinished_served (opens : Bool) (l : Link F) :
    Served c l b (httpHandlePostFinished wf c opens l).1
      (httpHandlePostFinished wf c opens l).2.calls := by
  unfold httpHandlePostFinished
  dsimp only
  split
  · exact ⟨framed_step rfl rfl, owns_of_ne finished_current⟩
  · exact ⟨framed_step rfl rfl, owns_of_ne finished_current⟩

theorem httpCloseConn_served (h : Owns c l b) :
    Served c l b (httpCloseConn wf c l).1 (httpCloseConn wf c l).2.calls := by
  unfold httpCloseConn
  split
  · exact ⟨framed_step rfl rfl, owns_of_ne finished_current⟩
  · next hleft =>
    refine ⟨framed_nil rfl, fun hj hc => ?_⟩
    have hpos := (h hj hc).2.1
    omega

theorem httpSendData_served (ends : Bool) (h : Owns c l b) :
    Served c l b (httpSendData wf c ends l).1 (httpSendData wf c ends l).2.calls := by
  unfold httpSendData
  split
  · exact httpCloseConn_served h
  · exact ⟨framed_nil rfl, h⟩

theorem httpPostRxpbuf_served (opens : Bool) (p : Pbuf) (h : Owns c l b) :
    Served c l b (httpPostRxpbuf wf c opens l p).1 (httpPostRxpbuf wf c opens l p).2.calls := by
  have hcur := @received_current F wf c l.post p
  have hdata : Framed c l b
      { l with post := (step wf l.post (.receiveData c p)).1, hs := l.hs.adjust p.totLen }
      [(.receiveData c p, (step wf l.post (.receiveData c p)).2)] := framed_step rfl rfl
  unfold httpPostRxpbuf
  dsimp only
  split
  · exact hdata.trans_served (httpHandlePostFinished_served opens _)
  · next hmore =>
    rw [not_or] at hmore
    refine ⟨hdata, fun hj hc => ?_⟩
    obtain ⟨hclosed, -, hbegun⟩ := h (step_other _ hj).1 (hcur.symm.trans hc)
    exact ⟨hclosed, Nat.pos_of_ne_zero hmore.2, hbegun⟩

theorem begin_refused {s : Post F} {uri : List UInt8} {n : Int}
    (h : (step wf s (.postBegin c uri n)).2.err ≠ .ok) :
    (step wf s (.postBegin c uri n)).1 = s := by
  have hcall := step_call wf s (.postBegin c uri n)
  generalize step wf s (.postBegin c uri n) = r at hcall h ⊢
  generalize Event.postBegin c uri n = e at hcall
  cases hcall with
  | off hj => rfl
  | accepted hj ha => exact absurd rfl h
  | refused hj ha => rfl
  | fed hj hc hupd hc' hj' hreboot => exact absurd rfl h
  | unknown hj hc => rfl
  | _ => exact absurd rfl h

theorem httpPostRequest_served (opens : Bool) (p : Pbuf) (uri : List UInt8) (uriEnd : Nat)
    (hopen : l.closed = false) (h : Owns c l b) :
    Served c l b (httpPostRequest wf c opens l p uri uriEnd).1
      (httpPostRequest wf c opens l p uri uriEnd).2.calls := by
  unfold httpPostRequest
  split
  · exact ⟨framed_nil rfl, h⟩
  · next n hdrLen hhead =>
    have hpos := postHeader_pos hhead
    dsimp only
    split
    · next hok =>
      have hbegun : Served c l b
          { l with
            post := (step wf l.post (.postBegin c uri n)).1
            hs.postContentLenLeft := n.toNat }
          [(.postBegin c uri n, (step wf l.post (.postBegin c uri n)).2)] := by
        refine ⟨framed_step rfl rfl, fun _ _ => ⟨hopen, ?_, ?_⟩⟩
        · dsimp only
          omega
        · show noteCall b (.postBegin c uri n, (step wf l.post (.postBegin c uri n)).2) c = true
          unfold noteCall
          dsimp only
          rw [if_pos hok, Function.update_self]
      split
      · exact hbegun
      · exact hbegun.toFramed.trans_served (httpPostRxpbuf_served opens _ hbegun.owns)
    · next hok =>
      refine ⟨framed_step rfl rfl, fun hj hc => ?_⟩
      dsimp only at hj hc
      rw [begin_refused hok] at hj hc
      obtain ⟨hclosed, hleft, hbegun⟩ := h hj hc
      refine ⟨hclosed, hleft, ?_⟩
      show noteCall b (.postBegin c uri n, (step wf l.post (.postBegin c uri n)).2) c = true
      unfold noteCall
      dsimp only
      rw [if_neg hok]
      exact hbegun

theorem httpParseRequest_served (opens : Bool) (p : Pbuf) (hopen : l.closed = false)
    (h : Owns c l b) :
    Served c l b (httpParseRequest wf c opens l p).1 (httpParseRequest wf c opens l p).2.calls := by
  unfold httpParseRequest
  split
  · exact ⟨framed_nil rfl, h⟩
  · split
    · exact ⟨framed_nil rfl, h⟩
    · exact httpPostRequest_served opens p _ _ hopen h
    · exact ⟨framed_nil rfl, h⟩

theorem httpRecvSend_served (opens ends : Bool) (p : Option Pbuf) (hopen : l.closed = false)
    (h : Owns c l b) :
    Served c l b (httpRecvSend wf c opens ends l p).1
      (httpRecvSend wf c opens ends l p).2.calls := by
  cases p with
  | none => exact httpCloseConn_served h
  | some p =>
    unfold httpRecvSend
    dsimp only
    split
    · have hrx : Served c l b _ _ :=
        (@httpPostRxpbuf_served F wf c { l with hs.retries := 0 } b opens p h).of_post rfl
      split
      · exact hrx.toFramed.trans_served (httpSendData_served ends hrx.owns)
      · exact hrx
    · split
      · exact ⟨framed_nil rfl, h⟩
      · have hparse := @httpParseRequest_served F wf c l b opens p hopen h
        split
        · split
          · exact hparse.toFramed.trans_served (httpSendData_served ends hparse.owns)
          · exact hparse
        · split
          · exact hparse.toFramed.trans_served (httpCloseConn_served hparse.owns)
          · exact hparse

theorem httpPoll_served (ends : Bool) (h : Owns c l b) :
    Served c l b (httpPoll wf c ends l).1 (httpPoll wf c ends l).2.calls := by
  have hcount : Owns c { l with hs.retries := l.hs.retries + 1 } b := h
  unfold httpPoll
  dsimp only
  split
  · exact (httpCloseConn_served hcount).of_post rfl
  · split
    · exact (httpSendData_served ends hcount).of_post rfl
    · exact ⟨framed_nil rfl, h⟩

theorem httpSent_served (ends : Bool) (h : Owns c l b) :
    Served c l b (httpSent wf c ends l).1 (httpSent wf c ends l).2.calls := by
  have hcount : Owns c { l with hs.retries := 0 } b := h
  exact (httpSendData_served ends hcount).of_post rfl

end Served

/-! ## Runs -/

section Runs

variable {F : Type} {wf : WriteFlash F} {w : World F}

/-- The holder of the slot is live, has content left to receive and an unfinished POST. -/
def World.Inv (w : World F) : Prop :=
  w.post.jumped = false → ∀ c, w.post.currentConnection = some c →
    ∃ hs, w.conns c = some hs ∧ 0 < hs.postContentLenLeft ∧ w.begun c = true

theorem World.Inv.sound (h : w.Inv) : SlotSound w := by
  refine ⟨fun hj c hc => ?_, fun hj hnone c uri n hu => ?_⟩
  · obtain ⟨hs, hlive, -, hbegun⟩ := h hj c hc
    exact ⟨by rw [hlive]; rfl, hbegun⟩
  · have hfree : w.post.currentConnection ≠ some c := by
      intro hc
      obtain ⟨hs, hlive, -, hbegun⟩ := h hj c hc
      rw [hnone c (by rw [hlive]; rfl)] at hbegun
      cases hbegun
    rw [begin_accepted hu hfree]

/-- **A callback keeps the invariant** if it serves its connection. -/
theorem callback_inv (hw : w.Inv) {c : Conn} {f : Link F → Link F × HttpAnswer}
    (hf : ∀ hs, w.post.jumped = false → Owns c ⟨w.post, hs, false⟩ w.begun →
      Served c ⟨w.post, hs, false⟩ w.begun (f ⟨w.post, hs, false⟩).1
        (f ⟨w.post, hs, false⟩).2.calls) :
    (w.callback c f).1.Inv := by
  unfold World.callback
  cases hlive : w.conns c with
  | none => exact hw
  | some hs =>
    dsimp only
    split
    · exact hw
    · next hj =>
      rw [Bool.not_eq_true] at hj
      have howns : Owns c ⟨w.post, hs, false⟩ w.begun := by
        intro _ hc
        obtain ⟨hs', hlive', hleft, hbegun⟩ := hw hj c hc
        obtain rfl := Option.some.inj (hlive.symm.trans hlive')
        exact ⟨rfl, hleft, hbegun⟩
      obtain ⟨⟨-, hother, hbegun⟩, howns'⟩ := hf hs hj howns
      intro hj' c' hc'
      dsimp only at hj' hc' ⊢
      by_cases hcc : c' = c
      · subst hcc
        obtain ⟨hclosed, hleft, hb⟩ := howns' hj' hc'
        rw [Function.update_self, hclosed]
        exact ⟨_, rfl, hleft, hb⟩
      · rw [Function.update_of_ne hcc, hbegun c' hcc]
        exact hw hj c' (hother c' hcc hj' hc')

theorem accept_inv (hw : w.Inv) (hs : Option Conn) : (httpAccept w hs).1.Inv := by
  cases hs with
  | none => exact hw
  | some c =>
    unfold httpAccept
    dsimp only
    split
    · exact hw
    · next hfree =>
      rw [not_or, Bool.not_eq_true, Option.not_isSome_iff_eq_none] at hfree
      intro hj c' hc'
      obtain ⟨hs, hlive, hleft, hbegun⟩ := hw hj c' hc'
      have hne : c' ≠ c := by
        rintro rfl
        rw [hfree.2] at hlive
        cases hlive
      dsimp only
      rw [Function.update_of_ne hne, Function.update_of_ne hne]
      exact ⟨hs, hlive, hleft, hbegun⟩

theorem tcpStep_inv (hw : w.Inv) (e : TcpEvent) (he : ErrSpares w e) : (tcpStep wf w e).1.Inv := by
  cases e with
  | accept hs => exact accept_inv hw hs
  | recv c p opens ends =>
    exact callback_inv hw fun hs _ h => httpRecvSend_served opens ends p rfl h
  | poll c ends => exact callback_inv hw fun hs _ h => httpPoll_served ends h
  | sent c ends => exact callback_inv hw fun hs _ h => httpSent_served ends h
  | err c =>
    exact callback_inv hw fun hs hj _ => ⟨framed_nil rfl, owns_of_ne fun _ => he hj⟩

/-- The slot is sound after an event exactly if this is no error of the connection that holds it. -/
theorem sound_step_iff (hw : w.Inv) (e : TcpEvent) :
    SlotSound (tcpStep wf w e).1 ↔ ErrSpares w e := by
  refine ⟨fun h => ?_, fun he => (tcpStep_inv hw e he).sound⟩
  cases e with
  | err c =>
    -- the state is freed, and the slot keeps its address
    intro hj hc
    obtain ⟨hs, hlive, -, -⟩ := hw hj c hc
    have hstep : (tcpStep wf w (.err c)).1 =
        { w with conns := Function.update w.conns c none } := by
      show (w.callback c httpErr).1 = _
      unfold World.callback
      rw [hlive]
      dsimp only
      rw [hj]
      rfl
    rw [hstep] at h
    have hfreed := (h.owned hj c hc).1
    dsimp only at hfreed
    rw [Function.update_self] at hfreed
    cases hfreed
  | _ => trivial

/-- **When the slot does not outlive its connection.** For every driver and every run of TCP events
from power-on, over any number of connections and addresses: the slot is sound after each event if
and only if no `http_err` is called for the connection that holds it. -/
theorem slot_sound_iff (wf : WriteFlash F) (f : F) (es : List TcpEvent) :
    Along (tcpStep wf) (fun w e => SlotSound (tcpStep wf w e).1) (World.powerOn f) es ↔
      Along (tcpStep wf) ErrSpares (World.powerOn f) es := by
  refine along_congr (I := World.Inv) (fun w e hw h => ?_) (fun w e hw => sound_step_iff hw e) ?_ es
  · exact tcpStep_inv hw e ((sound_step_iff hw e).mp h)
  · intro _ c hc
    cases hc

end Runs

/-! ## A freed holder -/

def headerPbuf : Pbuf :=
  .single (bytes "POST /upload HTTP/1.0\r\nContent-Length: 10\r\n\r\n") (by decide)

/-- A connection fails after its POST was accepted. -/
def failedUpload : List TcpEvent :=
  [.accept (some 1), .recv 1 (some headerPbuf) false false, .err 1]

/-- The slot keeps the address of the freed state. -/
theorem slot_outlives :
    ¬ Along (tcpStep fun _ _ _ _ => (cmdSuccess, ()))
      (fun w e => SlotSound (tcpStep (fun _ _ _ _ => (cmdSuccess, ())) w e).1)
      (World.powerOn ()) failedUpload := by
  rintro ⟨-, -, hsound, -⟩
  have howned := (hsound.owned (by decide +kernel) 1 (by decide +kernel)).1
  revert howned
  decide +kernel

end AdcUdpStream.Loader
