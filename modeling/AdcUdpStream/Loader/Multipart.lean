import AdcUdpStream.Lib.CStr
import AdcUdpStream.Loader.Iap

/-!
# The firmware upload (`post_example.c`)

`fwupdate_multipart_state_machine` and the three httpd callbacks around it.
`write_flash` is an `extern` of this file and is a parameter here: `WriteFlash F`
takes a state `F` of its own (the statics of `main.c`, or a recorder) and answers
with a code and the next state.

A payload pointer is a memory: the `len` bytes of the pbuf, then whatever lies
behind them (`strstr` does not stop at the end of the buffer). A position in the
buffer is an offset, `none` is a null pointer. `int` cells are integers: their
overflow is undefined in C.
-/

namespace AdcUdpStream.Loader

open CStr

/-! ## Buffers -/

/-- One pbuf: its bytes, and the memory behind them up to a NUL. -/
structure Segment where
  payload : List UInt8
  beyond : List UInt8 := []

/-- A pbuf with the pbufs chained to it. `tot_len` is a `u16_t`. -/
structure Pbuf where
  head : Segment
  next : List Segment := []
  totLen_lt : head.payload.length + (next.map fun q => q.payload.length).sum < 0x10000

def Segment.mem (q : Segment) : List UInt8 := q.payload ++ q.beyond

def Pbuf.len (p : Pbuf) : Nat := p.head.payload.length

def Pbuf.totLen (p : Pbuf) : Nat := p.len + (p.next.map fun q => q.payload.length).sum

def Pbuf.bytes (p : Pbuf) : List UInt8 := p.head.payload ++ (p.next.map Segment.payload).flatten

/-! ## Constants and types -/

def contentLengthTag : List UInt8 := bytes "Content-Length:"
def octetStreamTag : List UInt8 := bytes "application/octet-stream\r\n\r\n"
def emptyLineTag : List UInt8 := bytes "\r\n\r\n"

inductive FwupdateStatus where
  | error
  | none
  | inprogress
  | done
  deriving DecidableEq, Repr

inductive FwupdateState where
  | header
  | octetStart
  | octetStream
  deriving DecidableEq, Repr

structure Fwupdate where
  state : FwupdateState := .header
  contentLength : Int := 0
  fileLength : Int := 0
  accumLength : Int := 0
  accumBufLen : Nat := 0
  deriving DecidableEq

/-- `write_flash(dst, src, no_of_bytes)`: the returned code and the callee's next state. -/
abbrev WriteFlash (F : Type) := F → Nat → List UInt8 → Nat → Nat × F

/-- The statics of the block loop, with the state behind `write_flash`. Between two bytes
`flash_cnt` is below 1024. -/
structure Stage (F : Type) where
  dataArr : Vector UInt8 1024 := Vector.replicate 1024 0
  flashCnt : Fin 1024 := 0
  flashPos : Nat := 0x10000
  flash : F

abbrev Stage.powerOn {F : Type} (f : F) : Stage F := { flash := f }

/-- `dataArr[flash_cnt] = x`. -/
def Stage.put {F : Type} (s : Stage F) (x : UInt8) : Vector UInt8 1024 := s.dataArr.set s.flashCnt x

/-- The statics of the state machine. -/
structure Updater (F : Type) where
  fwupdate : Fwupdate := {}
  curlen : Int := 0
  stage : Stage F

/-! ## The state machine -/

variable {F : Type} (wf : WriteFlash F)

/-- The body of the block loop for one byte: store it, and write the block when it is full.
The block buffer is filled with `0xff` again only if the write succeeded. -/
def storeByte (s : Stage F) (x : UInt8) : Stage F :=
  let dataArr := s.put x
  if h : (s.flashCnt : Nat) + 1 < 1024 then { s with dataArr, flashCnt := ⟨s.flashCnt + 1, h⟩ }
  else
    let r := wf s.flash s.flashPos dataArr.toList 1024
    if r.1 = cmdSuccess then
      { dataArr := Vector.replicate 1024 0xff, flashCnt := 0, flashPos := s.flashPos + 1024,
        flash := r.2 }
    else { s with dataArr, flashCnt := 0, flash := r.2 }

/-- The write of the rest at the end of the file; neither `flash_pos` nor `flash_cnt` move. -/
def writeRest (s : Stage F) : Stage F :=
  if 0 < (s.flashCnt : Nat) then
    { s with flash := (wf s.flash s.flashPos s.dataArr.toList 1024).2 }
  else s

/-- `FWUPDATE_STATE_OCTET_STREAM` on the bytes that remain in the buffer. -/
def octetStream (u : Updater F) (xs : List UInt8) : Updater F × FwupdateStatus :=
  let u := { u with
    curlen := u.curlen + xs.length
    stage := xs.foldl (storeByte wf) u.stage }
  if u.curlen ≥ u.fwupdate.fileLength then
    ({ u with stage := writeRest wf u.stage, fwupdate.state := .header }, .done)
  else (u, .inprogress)

/-- The locals of the loop. -/
structure Cursor where
  buf : Option Nat
  bufStart : Nat
  ret : FwupdateStatus

/-- `buf = buf_start`, nothing returned yet. -/
def Cursor.start : Cursor := ⟨some 0, 0, .none⟩

/-- `FWUPDATE_STATE_HEADER` at offset `k`. -/
def headerCase (mem : List UInt8) (buflen : Nat) (fw : Fwupdate) (cur : Cursor) (k : Nat) :
    Fwupdate × Cursor :=
  if buflen ≥ 12 ∧ startsWith (mem.drop k) (bytes "POST /upload") then
    -- error until we go to in progress
    match strstr (mem.drop k) contentLengthTag with
    | none => (fw, { cur with buf := none, ret := .error })
    | some o =>
      let k := k + o + contentLengthTag.length
      let fw := { fw with contentLength := atoi (mem.drop k) }
      if fw.contentLength > 0 then
        match strstr (mem.drop k) emptyLineTag with
        | none => (fw, { cur with buf := none, ret := .error })
        | some o =>
          let k := k + o + emptyLineTag.length
          ({ fw with state := .octetStart }, ⟨some k, k, .inprogress⟩)
      else (fw, { cur with buf := none, ret := .error })
  else (fw, { cur with buf := none })

/-- `FWUPDATE_STATE_OCTET_START` at offset `k`. -/
def octetStartCase (mem : List UInt8) (fw : Fwupdate) (cur : Cursor) (k : Nat) :
    Fwupdate × Cursor :=
  match strstr (mem.drop k) octetStreamTag with
  | none => ({ fw with state := .header }, { cur with buf := none, ret := .error })
  | some o =>
    let k := k + o + octetStreamTag.length
    ({ fw with
        state := .octetStream
        fileLength := fw.contentLength - ((k : Int) - cur.bufStart)
        accumLength := 0
        accumBufLen := 0 },
      { cur with buf := some k, ret := .inprogress })

/-- One pass of the `while` loop at offset `k`. -/
def fwupdatePass (mem : List UInt8) (buflen : Nat) (u : Updater F) (cur : Cursor) (k : Nat) :
    Updater F × Cursor :=
  match u.fwupdate.state with
  | .header =>
    let r := headerCase mem buflen u.fwupdate cur k
    ({ u with fwupdate := r.1 }, r.2)
  | .octetStart =>
    let r := octetStartCase mem u.fwupdate cur k
    ({ u with fwupdate := r.1 }, r.2)
  | .octetStream =>
    let r := octetStream wf u ((mem.take buflen).drop k)
    (r.1, { cur with buf := none, ret := r.2 })

/-- `while (buf && buf < buf_end)`, at most `n` passes. -/
def fwupdateLoop (mem : List UInt8) (buflen : Nat) :
    Nat → Updater F → Cursor → Updater F × Cursor
  | 0, u, cur => (u, cur)
  | n + 1, u, cur =>
    match cur.buf with
    | none => (u, cur)
    | some k =>
      if k < buflen then
        fwupdateLoop mem buflen n (fwupdatePass wf mem buflen u cur k).1
          (fwupdatePass wf mem buflen u cur k).2
      else (u, cur)

/-- Three passes are enough (`fwupdateLoop_stop`). -/
def fwupdateMultipartStateMachine (u : Updater F) (mem : List UInt8) (buflen : Nat) :
    Updater F × FwupdateStatus :=
  let r := fwupdateLoop wf mem buflen 3 u .start
  (r.1, r.2.ret)

/-! ## The callbacks -/

/-- The address of a `struct http_state`. -/
abbrev Conn := Nat

inductive ErrT where
  | ok
  | mem
  | inprogress
  | val
  | use
  | abrt
  | arg
  deriving DecidableEq, Repr

/-- All statics of `post_example.c`; `none` is `NULL`. `jumped` is set when `jump_to_app_section`
is called: the loader does not run any more then. -/
structure Post (F : Type) where
  currentConnection : Option Conn := none
  validConnection : Option Conn := none
  upd : Updater F
  close : Bool := true
  reboot : Bool := false
  jumped : Bool := false

/-- What a callback answers. `status` is what the state machine returned (the source keeps it in
a local), `responseUri` what was printed into `response_uri`. -/
structure Answer where
  err : ErrT := .ok
  status : Option FwupdateStatus := none
  responseUri : Option String := none
  jumps : Bool := false
  deriving DecidableEq

def httpdPostBegin (s : Post F) (connection : Conn) (uri : List UInt8) (contentLen : Int) :
    Post F × Answer :=
  if startsWith uri (bytes "/upload") then
    if s.currentConnection ≠ some connection then
      ({ s with
          upd.fwupdate.state := .octetStart
          upd.fwupdate.contentLength := contentLen
          currentConnection := some connection
          validConnection := none },
        { responseUri := some "/loginfail.html" })
    else (s, { err := .val })
  else (s, { err := .val })

/-- The inner `ret` shadows the outer one: data of the current connection is always `ERR_OK`. -/
def httpdPostReceiveData (s : Post F) (connection : Conn) (p : Pbuf) : Post F × Answer :=
  if s.currentConnection = some connection then
    let r := fwupdateMultipartStateMachine wf s.upd p.head.mem p.len
    let s := { s with upd := r.1 }
    match r.2 with
    | .none => (s, { status := some .none })
    | .inprogress => ({ s with close := false }, { status := some .inprogress })
    | .done => ({ s with close := true, reboot := true }, { status := some .done })
    | .error => ({ s with close := true }, { status := some .error })
  else (s, { err := .val })

def httpdPostFinished (s : Post F) (connection : Conn) : Post F × Answer :=
  if s.reboot then ({ s with jumped := true }, { jumps := true })
  else if s.currentConnection = some connection then
    ({ s with currentConnection := none, validConnection := none },
      { responseUri :=
          some (if s.validConnection = some connection then "/session.html"
            else "/loginfail.html") })
  else (s, { responseUri := some "/loginfail.html" })

/-! ## Events -/

/-- The calls httpd makes into `post_example.c`. -/
inductive Event where
  | postBegin (connection : Conn) (uri : List UInt8) (contentLen : Int)
  | receiveData (connection : Conn) (p : Pbuf)
  | postFinished (connection : Conn)

/-- One call. After the jump to the application nothing runs. -/
def step (s : Post F) (e : Event) : Post F × Answer :=
  if s.jumped then (s, { err := .abrt })
  else
    match e with
    | .postBegin c uri n => httpdPostBegin s c uri n
    | .receiveData c p => httpdPostReceiveData wf s c p
    | .postFinished c => httpdPostFinished s c

def powerOn (f : F) : Post F := { upd := { stage := .powerOn f } }

end AdcUdpStream.Loader
