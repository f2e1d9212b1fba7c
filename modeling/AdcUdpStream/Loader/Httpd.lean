import AdcUdpStream.Loader.Session

/-!
# Receiving a request (`httpd.c`)

What httpd does with a received pbuf of one connection: parse the request, open a
POST and count down its content length. The callbacks of `post_example.c` are
called through `step`, and every call is recorded with its answer.

Sending the response is left out, and with it the fields of `struct http_state`
that only it uses. No error pages are compiled in (`LWIP_HTTPD_SUPPORT_EXTSTATUS`
is 0), so `http_find_error_file` is `ERR_ARG`.
-/

namespace AdcUdpStream.Loader

open CStr Steps

/-! ## Parsing -/

def crlf : List UInt8 := bytes "\r\n"
def httpHdrContentLen : List UInt8 := bytes "Content-Length: "
def minReqLen : Nat := 7
def httpHdrContentLenDigitMaxLen : Nat := 10

/-- What the first line of a request asks for; `uriEnd` is the offset of the blank behind the
uri. -/
inductive Request where
  | get (uri : List UInt8)
  | post (uri : List UInt8) (uriEnd : Nat)
  | bad
  deriving DecidableEq

/-- The method and the uri. A GET without a version is HTTP/0.9, for which there is no POST. -/
def parseRequest (data : List UInt8) (dataLen : Nat) : Request :=
  if minReqLen ≤ dataLen ∧ (strnstr data crlf dataLen).isSome then
    if startsWith data (bytes "GET ") then
      match strnstr (data.drop 4) (bytes " ") (dataLen - 4) with
      | some uriLen => .get ((data.drop 4).take uriLen)
      | none =>
        match strnstr (data.drop 4) crlf (dataLen - 4) with
        | some uriLen => .get ((data.drop 4).take uriLen)
        | none => .bad
    else if startsWith data (bytes "POST ") then
      match strnstr (data.drop 5) (bytes " ") (dataLen - 5) with
      | some uriLen => .post ((data.drop 5).take uriLen) (5 + uriLen)
      | none => .bad
    else .bad
  else .bad

/-- The content length of a POST and the length of its header up to the empty line, when the
header is complete and the length positive. -/
def postHeader (data : List UInt8) (dataLen uriEnd : Nat) : Option (Int × Nat) :=
  let rest := data.drop (uriEnd + 1)
  match strnstr rest (crlf ++ crlf) (dataLen - (uriEnd + 1)) with
  | none => none
  | some crlfcrlf =>
    match strnstr rest httpHdrContentLen crlfcrlf with
    | none => none
    | some o =>
      let num := rest.drop (o + httpHdrContentLen.length)
      match strnstr num crlf httpHdrContentLenDigitMaxLen with
      | none => none
      | some e =>
        -- a NUL is stored at the end of the number
        if 0 < atoi (num.take e) then
          some (atoi (num.take e), min dataLen (uriEnd + 1 + crlfcrlf + 4))
        else none

theorem postHeader_pos {data : List UInt8} {dataLen uriEnd hdrLen : Nat} {n : Int}
    (h : postHeader data dataLen uriEnd = some (n, hdrLen)) : 0 < n := by
  unfold postHeader at h
  dsimp only at h
  split at h
  · cases h
  · split at h
    · cases h
    · split at h
      · cases h
      · split at h
        · next hpos =>
          obtain ⟨rfl, -⟩ := Prod.mk.injEq .. ▸ Option.some.inj h
          exact hpos
        · cases h

/-! ## The chain behind a header -/

/-- `while ((q != NULL) && (q->len <= start_offset))`, then `pbuf_header`. -/
def skipHeader : List Segment → Nat → Option (Segment × List Segment)
  | [], _ => none
  | q :: qs, startOffset =>
    if q.payload.length ≤ startOffset then skipHeader qs (startOffset - q.payload.length)
    else some (⟨q.payload.drop startOffset, q.beyond⟩, qs)

/-- `tot_len` of a chain. -/
def chainLen (qs : List Segment) : Nat := (qs.map fun q => q.payload.length).sum

theorem skipHeader_chainLen {qs : List Segment} {k : Nat} {r : Segment × List Segment}
    (h : skipHeader qs k = some r) : chainLen (r.1 :: r.2) ≤ chainLen qs := by
  induction qs generalizing k with
  | nil => cases h
  | cons q qs ih =>
    unfold skipHeader at h
    split at h
    · have := ih h
      simp only [chainLen, List.map_cons, List.sum_cons] at this ⊢
      omega
    · obtain rfl := Option.some.inj h
      simp only [chainLen, List.map_cons, List.sum_cons, List.length_drop]
      omega

/-- The body bytes that came with the header. -/
def Pbuf.behind (p : Pbuf) (hdrLen : Nat) : Option Pbuf :=
  match h : skipHeader (p.head :: p.next) hdrLen with
  | none => none
  | some r => some ⟨r.1, r.2, Nat.lt_of_le_of_lt (skipHeader_chainLen h) p.totLen_lt⟩

/-! ## The functions of httpd -/

/-- The fields of `struct http_state` that say what to do with received data. `handle` tells
whether a file is open; `file` is null exactly when `handle` is. -/
structure HttpState where
  handle : Bool := false
  retries : Nat := 0
  postContentLenLeft : Nat := 0
  deriving DecidableEq

/-- One connection over the statics of `post_example.c`. `closed` is set when the connection is
closed and its state freed. -/
structure Link (F : Type) where
  post : Post F
  hs : HttpState := {}
  closed : Bool := false

/-- What a function returns, and the callbacks it called. -/
structure HttpAnswer where
  err : ErrT := .ok
  calls : List (Event × Answer) := []

variable {F : Type} (wf : WriteFlash F) (c : Conn)

def HttpAnswer.after (a : HttpAnswer) (e : Event) (r : Answer) : HttpAnswer :=
  { a with calls := (e, r) :: a.calls }

/-- `http_find_file`: there are no files (`fs_open` returns 0), and for `/` the default page is
opened if `fs_open_default` gets its memory. The answer is always `ERR_OK`. -/
def httpFindFile (opens : Bool) (hs : HttpState) (uri : List UInt8) : HttpState :=
  { hs with handle := decide (uri = bytes "/") && opens, retries := 0 }

/-- The jump to the application does not return. -/
def httpHandlePostFinished (opens : Bool) (l : Link F) : Link F × HttpAnswer :=
  let r := step wf l.post (.postFinished c)
  if r.2.jumps then
    ({ l with post := r.1 }, { err := .abrt, calls := [(.postFinished c, r.2)] })
  else
    ({ l with
        post := r.1
        hs := httpFindFile opens l.hs (bytes (r.2.responseUri.getD "")) },
      { calls := [(.postFinished c, r.2)] })

/-- "adjust remaining Content-Length" -/
def HttpState.adjust (hs : HttpState) (totLen : Nat) : HttpState :=
  { hs with
    postContentLenLeft :=
      if hs.postContentLenLeft < totLen then 0 else hs.postContentLenLeft - totLen }

@[simp] theorem HttpState.adjust_left (hs : HttpState) (totLen : Nat) :
    (hs.adjust totLen).postContentLenLeft = hs.postContentLenLeft - totLen := by
  unfold adjust
  split <;> dsimp only
  omega

def httpPostRxpbuf (opens : Bool) (l : Link F) (p : Pbuf) : Link F × HttpAnswer :=
  let hs := l.hs.adjust p.totLen
  let r := step wf l.post (.receiveData c p)
  let l := { l with post := r.1, hs }
  if r.2.err ≠ .ok ∨ hs.postContentLenLeft = 0 then
    let f := httpHandlePostFinished wf c opens l
    (f.1, f.2.after (.receiveData c p) r.2)
  else (l, { calls := [(.receiveData c p, r.2)] })

def httpPostRequest (opens : Bool) (l : Link F) (p : Pbuf) (uri : List UInt8) (uriEnd : Nat) :
    Link F × HttpAnswer :=
  match postHeader p.head.mem p.len uriEnd with
  | none => (l, { err := .arg })
  | some (contentLen, hdrLen) =>
    let r := step wf l.post (.postBegin c uri contentLen)
    if r.2.err = .ok then
      let l := { l with post := r.1, hs.postContentLenLeft := contentLen.toNat }
      -- try to pass in data of the first pbuf(s)
      match p.behind hdrLen with
      | none => (l, { calls := [(.postBegin c uri contentLen, r.2)] })
      | some q =>
        let f := httpPostRxpbuf wf c opens l q
        (f.1, f.2.after (.postBegin c uri contentLen) r.2)
    else
      ({ l with
          post := r.1
          hs := httpFindFile opens l.hs (bytes (r.2.responseUri.getD "")) },
        { calls := [(.postBegin c uri contentLen, r.2)] })

/-- Only the first pbuf of the chain is looked at. -/
def httpParseRequest (opens : Bool) (l : Link F) (p : Pbuf) : Link F × HttpAnswer :=
  if l.hs.handle then (l, { err := .use })
  else
    match parseRequest p.head.mem p.len with
    | .get uri => ({ l with hs := httpFindFile opens l.hs uri }, {})
    | .post uri uriEnd => httpPostRequest wf c opens l p uri uriEnd
    | .bad => (l, { err := .arg })

def httpCloseConn (l : Link F) : Link F × HttpAnswer :=
  if l.hs.postContentLenLeft ≠ 0 then
    let r := step wf l.post (.postFinished c)
    ({ l with post := r.1, closed := true }, { calls := [(.postFinished c, r.2)] })
  else ({ l with closed := true }, {})

/-- `http_recv`: `none` is a close by the other side, or an error. What `http_send_data` does when
the request is complete is left out. -/
def httpRecv (opens : Bool) (l : Link F) (p : Option Pbuf) : Link F × HttpAnswer :=
  match p with
  | none => httpCloseConn wf c l
  | some p =>
    if l.hs.postContentLenLeft > 0 then
      -- pass the complete pbuf to the application
      let f := httpPostRxpbuf wf c opens { l with hs.retries := 0 } p
      (f.1, { f.2 with err := .ok })
    else if l.hs.handle then (l, {})
    else
      let r := httpParseRequest wf c opens l p
      if r.2.err = .arg then
        let f := httpCloseConn wf c r.1
        (f.1, { calls := r.2.calls ++ f.2.calls })
      else (r.1, { r.2 with err := .ok })

/-- What a connection is handed: a pbuf or the other side's close, and whether `fs_open_default`
would get its memory meanwhile. -/
structure Received where
  pbuf : Option Pbuf
  opens : Bool := false

/-- One call of `http_recv`. Nothing runs after the jump, and a closed connection is not called. -/
def recv (l : Link F) (i : Received) : Link F × HttpAnswer :=
  if l.post.jumped ∨ l.closed then (l, {}) else httpRecv wf c i.opens l i.pbuf

section Opening

variable {wf c} {opens : Bool} {l : Link F} {p : Pbuf}

theorem httpPostRxpbuf_err (opens : Bool) (l : Link F) (p : Pbuf) :
    (httpPostRxpbuf wf c opens l p).2.err ≠ .arg := by
  unfold httpPostRxpbuf
  dsimp only
  split
  · show (httpHandlePostFinished wf c opens _).2.err ≠ .arg
    unfold httpHandlePostFinished
    dsimp only
    split <;> simp
  · simp

theorem httpPostRequest_accepted {uri : List UInt8} {uriEnd hdrLen : Nat} {n : Int} {s' : Post F}
    {r : Answer} (hhead : postHeader p.head.mem p.len uriEnd = some (n, hdrLen))
    (hbegin : step wf l.post (.postBegin c uri n) = (s', r)) (hr : r.err = .ok) :
    httpPostRequest wf c opens l p uri uriEnd =
      match p.behind hdrLen with
      | none =>
        ({ l with post := s', hs.postContentLenLeft := n.toNat },
          { calls := [(.postBegin c uri n, r)] })
      | some q =>
        let f := httpPostRxpbuf wf c opens
          { l with post := s', hs.postContentLenLeft := n.toNat } q
        (f.1, f.2.after (.postBegin c uri n) r) := by
  unfold httpPostRequest
  rw [hhead]
  dsimp only
  rw [hbegin]
  exact if_pos hr

/-- Outside of a POST a pbuf is parsed; unless it is refused the connection stays open. -/
theorem httpRecv_of_parse {r : Link F × HttpAnswer} (hleft : l.hs.postContentLenLeft = 0)
    (hh : l.hs.handle = false) (hparse : httpParseRequest wf c opens l p = r)
    (herr : r.2.err ≠ .arg) :
    httpRecv wf c opens l (some p) = (r.1, { r.2 with err := .ok }) := by
  unfold httpRecv
  dsimp only
  rw [if_neg (by omega), if_neg (by simp [hh]), hparse, if_neg herr]

end Opening

end AdcUdpStream.Loader
