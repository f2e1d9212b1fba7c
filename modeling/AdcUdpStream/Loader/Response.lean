import AdcUdpStream.Loader.Connections

/-!
# Sending a response (`httpd.c`, `lwip_fs.c`)

What one connection sends: the default page for `/`, the default 404 page for
everything else. `http_send_data` hands TCP what it takes, in as many calls as it
needs, and closes the connection behind the last byte.

A response goes out in order and without a gap, and is complete when it ends the
connection (`response_in_order`).
-/

namespace AdcUdpStream.Loader

open CStr Steps

/-! ## What there is to send -/

def gPsHTTPHeaderStrings : List (List UInt8) :=
  [ "Content-type: text/html\r\n\r\n",
    "Content-type: text/html\r\nExpires: Fri, 10 Apr 2008 14:00:00 GMT\r\nPragma: no-cache\r\n\r\n",
    "Content-type: image/gif\r\n\r\n",
    "Content-type: image/png\r\n\r\n",
    "Content-type: image/jpeg\r\n\r\n",
    "Content-type: image/bmp\r\n\r\n",
    "Content-type: image/x-icon\r\n\r\n",
    "Content-type: application/octet-stream\r\n\r\n",
    "Content-type: application/x-javascript\r\n\r\n",
    "Content-type: application/x-javascript\r\n\r\n",
    "Content-type: text/css\r\n\r\n",
    "Content-type: application/x-shockwave-flash\r\n\r\n",
    "Content-type: text/xml\r\n\r\n",
    "Content-type: text/plain\r\n\r\n",
    "HTTP/1.0 200 OK\r\n",
    "HTTP/1.0 404 File not found\r\n",
    "HTTP/1.0 400 Bad Request\r\n",
    "HTTP/1.0 501 Not Implemented\r\n",
    "HTTP/1.1 200 OK\r\n",
    "HTTP/1.1 404 File not found\r\n",
    "HTTP/1.1 400 Bad Request\r\n",
    "HTTP/1.1 501 Not Implemented\r\n",
    "Content-Length: ",
    "Connection: Close\r\n",
    "Connection: keep-alive\r\n",
    "Server: lwIP/1.3.1 (http://savannah.nongnu.org/projects/lwip)\r\n",
    "\r\n<html><body><h2>404: The requested file cannot be found.</h2></body></html>\r\n" ].map bytes

def httpHdrDefaultType : Nat := 13
def httpHdrOk : Nat := 14
def httpHdrNotFound : Nat := 15
def httpHdrBadRequest : Nat := 16
def httpHdrNotImpl : Nat := 17
def httpHdrServer : Nat := 25
def default404Html : Nat := 26

def header (i : Nat) : List UInt8 := gPsHTTPHeaderStrings.getD i []

def gPsHTTPHeaders : List (List UInt8 × Nat) :=
  [ ("html", 0), ("htm", 0), ("shtml", 1), ("shtm", 1), ("ssi", 1), ("gif", 2), ("png", 3),
    ("jpg", 4), ("bmp", 5), ("ico", 6), ("class", 7), ("cls", 7), ("js", 8), ("ram", 9),
    ("css", 10), ("swf", 11), ("xml", 12), ("xsl", 12) ].map fun h => (bytes h.1, h.2)

/-- `strrchr(fName, '.') + 1`. -/
def pszExt (fName : List UInt8) : Option (List UInt8) :=
  if 0x2E ∈ fName then some (fName.reverse.takeWhile (· ≠ 0x2E)).reverse else none

/-- `get_http_headers` of `lwip_fs.c`: a file without an extension gets no headers. -/
def getHttpHeaders (fName : List UInt8) : List UInt8 :=
  if fName = [] then header httpHdrNotFound ++ header httpHdrServer ++ header default404Html
  else
    let status :=
      if (strstr fName (bytes "404")).isSome then httpHdrNotFound
      else if (strstr fName (bytes "400")).isSome then httpHdrBadRequest
      else if (strstr fName (bytes "501")).isSome then httpHdrNotImpl
      else httpHdrOk
    match pszExt fName with
    | none => []
    | some ext =>
      let type := (gPsHTTPHeaders.find? (·.1 = ext)).elim httpHdrDefaultType Prod.snd
      header status ++ header httpHdrServer ++ header type

def httpIndexHtml : List UInt8 :=
  bytes "<html><head><title>Congrats!</title></head>" ++
    bytes "<form id=\"form\" action=\"upload\" method=\"post\" enctype=\"multipart/form-data\" " ++
    bytes "Content-Length: 256>" ++
    bytes "<input id=\"file\" type=\"file\" name=\"binary\" accept=\".bin,.bin\">" ++
    bytes "<button type=\"submit\">upload</button>"

def sectorSz : Nat := 512

structure FsFile where
  data : List UInt8
  len : Nat
  index : Nat

/-- The headers and the page, as `fs_open_default` puts them into `scratch`. -/
def defaultPage : List UInt8 := getHttpHeaders (bytes "default.htm") ++ httpIndexHtml

theorem defaultPage_fits : defaultPage.length ≤ sectorSz := by
  rw [show defaultPage.length = 345 by decide +kernel]
  decide

/-- `scratch` is cleared before. -/
def defaultFile : FsFile :=
  { data := defaultPage ++ List.replicate (sectorSz - defaultPage.length) 0
    len := defaultPage.length
    index := defaultPage.length }

/-- `fs_open_default`, when `malloc` has `memory`. -/
def fsOpenDefault (memory : Bool) : Option FsFile := if memory then some defaultFile else none

/-- There is no file system: `LWIP_FATFS_SUPPORT` is not defined. -/
def fsOpen (_ : List UInt8) : Option FsFile := none

def gPsDefaultFilenames : List (List UInt8) :=
  ["/index.shtml", "/index.ssi", "/index.shtm", "/index.html", "/index.htm"].map bytes

def httpGet404File : Option FsFile :=
  (["/404.html", "/404.htm", "/404.shtml"].map bytes).findSome? fsOpen

/-! ## The functions of httpd -/

def numFileHdrStrings : Nat := 3

/-- The fields of `struct http_state` that say what is left to send. `file` is what lies behind
the pointer, `none` for null; `handle` is null exactly when `file` is. `closed` is set when the
connection is closed and the state freed. -/
structure Response where
  hdrs : List (List UInt8) := []
  hdrIndex : Nat := numFileHdrStrings
  hdrPos : Nat := 0
  file : Option (List UInt8) := none
  left : Nat := 0
  retries : Nat := 0
  closed : Bool := false
  deriving DecidableEq

/-- What `get_http_headers` of `httpd.c` sets when it has no name. -/
def notFoundHdrs : List (List UInt8) :=
  [header httpHdrNotFound, header httpHdrServer, header default404Html]

/-- The default file has its headers included; without a file there are no names either. -/
def httpInitFile (hs : Response) (file : Option FsFile) (is09 : Bool) : Response :=
  match file with
  | some f =>
    -- "search for the end of the header"
    let diff := if is09 then (strnstr f.data (crlf ++ crlf) f.index).elim 0 (· + 4) else 0
    { hs with file := some (f.data.drop diff), left := f.index - diff, retries := 0 }
  | none =>
    { hs with
      file := none, left := 0, retries := 0, hdrs := notFoundHdrs, hdrIndex := 0, hdrPos := 0 }

/-- `(uri[0] == '/') && (uri[1] == 0)`; behind the uri comes a NUL. -/
def uriIsRoot (uri : List UInt8) : Bool := uri.getD 0 0 = 0x2F ∧ uri.getD 1 0 = 0

/-- `http_find_file`, with all of `struct http_state` it sets. -/
def Response.findFile (hs : Response) (memory is09 : Bool) (uri : List UInt8) : Response :=
  if uriIsRoot uri then
    let file := (gPsDefaultFilenames.findSome? fsOpen).or
      ((fsOpenDefault memory).or httpGet404File)
    httpInitFile hs file is09
  else httpInitFile hs ((fsOpen uri).or httpGet404File) is09

/-- What `tcp_write` answers; after `ERR_MEM`, whether the send queue is full. -/
inductive TcpWrite where
  | ok
  | mem (queueFull : Bool)
  | fails

/-- TCP during one call of `http_send_data`: `tcp_sndbuf`, `tcp_mss`, and what the calls of
`tcp_write` answer, those behind the list `ERR_OK`. -/
structure Tcp where
  sndBuf : Nat
  mss : Nat
  answers : List TcpWrite := []

/-- `http_write`: whether the last `tcp_write` took its bytes, `*length`, and the answers that are
left. -/
def httpWrite (sndBuf : Nat) : List TcpWrite → Nat → Bool × Nat × List TcpWrite
  | [], len => (true, len, [])
  | .ok :: answers, len => (true, len, answers)
  | .fails :: answers, len => (false, len, answers)
  | .mem queueFull :: answers, len =>
    -- "no need to try smaller sizes"
    let len := if sndBuf = 0 ∨ queueFull then 1 else len / 2
    if len > 1 then httpWrite sndBuf answers len else (false, len, answers)

/-- "Fix up the header position for the next time round." -/
def Response.hdrSent (hs : Response) (sendlen : Nat) : Response :=
  if hs.hdrPos + sendlen = (hs.hdrs.getD hs.hdrIndex []).length then
    { hs with hdrIndex := hs.hdrIndex + 1, hdrPos := 0 }
  else { hs with hdrPos := hs.hdrPos + sendlen }

/-- A call of `http_send_data` on its way: `len` bytes fit into the send buffer. -/
structure Sending where
  hs : Response
  len : Nat
  answers : List TcpWrite
  written : List UInt8 := []
  dataToSend : Bool := false

/-- One round of the loop over the header strings, and the bytes it sent. -/
def Sending.round (t : Sending) : Nat × Sending :=
  let hdr := t.hs.hdrs.getD t.hs.hdrIndex []
  let oldSendlen := min t.len (hdr.length - t.hs.hdrPos)
  let w := httpWrite t.len t.answers oldSendlen
  let sendlen := if w.1 then w.2.1 else 0
  (sendlen,
    { hs := t.hs.hdrSent sendlen
      len := t.len - sendlen
      answers := w.2.2
      written := t.written ++ (hdr.drop t.hs.hdrPos).take sendlen
      dataToSend := t.dataToSend || (w.1 && decide (oldSendlen ≠ sendlen)) })

/-- The loop. Every round but the last takes a byte from `len`, so that `len` rounds are enough
(`sendHdrs_fuel`). -/
def sendHdrs : Nat → Sending → Sending
  | 0, t => t
  | fuel + 1, t =>
    if t.len ≠ 0 ∧ t.hs.hdrIndex < numFileHdrStrings then
      if t.round.1 = 0 then t.round.2 else sendHdrs fuel t.round.2
    else t

/-- What a callback sent, whether the response `ended` the connection or it `timedOut`, and what
`http_send_data` returned. -/
structure Sent where
  written : List UInt8 := []
  ended : Bool := false
  timedOut : Bool := false
  output : Bool := false
  deriving DecidableEq

/-- `http_send_data` behind the headers. `fs_bytes_left` is 0, so nothing more is read. -/
def sendFile (mss : Nat) (t : Sending) : Response × Sent :=
  if t.hs.left = 0 then ({ t.hs with closed := true }, { written := t.written, ended := true })
  else
    let w := httpWrite t.len t.answers (min (min t.len t.hs.left) (2 * mss))
    let len := if w.1 then w.2.1 else 0
    let hs : Response :=
      { t.hs with file := t.hs.file.map (List.drop len), left := t.hs.left - len }
    let written := t.written ++ (t.hs.file.getD []).take len
    if hs.left = 0 then ({ hs with closed := true }, { written, ended := true })
    else (hs, { written, output := t.dataToSend || w.1 })

def Response.sendData (hs : Response) (tcp : Tcp) : Response × Sent :=
  let t : Sending := { hs, len := tcp.sndBuf, answers := tcp.answers }
  if hs.hdrIndex < numFileHdrStrings then
    let t := sendHdrs tcp.sndBuf t
    if t.hs.hdrIndex < numFileHdrStrings ∨ t.hs.file = none then
      (t.hs, { written := t.written, output := true })
    else sendFile tcp.mss t
  else sendFile tcp.mss t

/-! ## One connection -/

/-- What httpd is called for. `find` and `send`: `http_recv` has read a request, and starts the
response; data that comes while a file is open is ignored. `postData`: data of a POST. `close`:
the other side closes, or the connection fails. -/
inductive RespEvent where
  | find (memory is09 : Bool) (uri : List UInt8)
  | send (tcp : Tcp)
  | sent (tcp : Tcp)
  | poll (tcp : Tcp)
  | postData
  | close

def respCall (hs : Response) : RespEvent → Response × Sent
  | .find memory is09 uri =>
    if hs.file.isSome then (hs, {}) else (hs.findFile memory is09 uri, {})
  | .send tcp => hs.sendData tcp
  | .sent tcp => { hs with retries := 0 }.sendData tcp
  | .poll tcp =>
    let hs : Response := { hs with retries := hs.retries + 1 }
    if hs.retries = httpdMaxRetries then ({ hs with closed := true }, { timedOut := true })
    else if hs.file.isSome then hs.sendData tcp
    else (hs, {})
  | .postData => ({ hs with retries := 0 }, {})
  | .close => ({ hs with closed := true }, {})

def respStep (hs : Response) (e : RespEvent) : Response × Sent :=
  if hs.closed then (hs, {}) else respCall hs e

/-! ## What is left to send -/

def Response.hdrRest (hs : Response) : List UInt8 :=
  (hs.hdrs.drop hs.hdrIndex).flatten.drop hs.hdrPos

def Response.rest (hs : Response) : List UInt8 :=
  hs.hdrRest ++ (hs.file.getD []).take hs.left

structure Response.Inv (hs : Response) : Prop where
  hdrs : hs.hdrs = [] ∨ hs.hdrs = notFoundHdrs
  index : hs.hdrIndex < numFileHdrStrings →
    hs.hdrs = notFoundHdrs ∧ hs.hdrPos < (hs.hdrs.getD hs.hdrIndex []).length
  left : hs.left ≤ (hs.file.getD []).length
  retries : hs.closed = false → hs.retries < httpdMaxRetries

theorem notFoundHdrs_filled : ∀ i < numFileHdrStrings, 0 < (notFoundHdrs.getD i []).length := by
  decide +kernel

section Send

variable {hs : Response}

theorem hdrRest_nil (h : hs.Inv) (hidx : ¬ hs.hdrIndex < numFileHdrStrings) : hs.hdrRest = [] := by
  have hlen : hs.hdrs.length ≤ numFileHdrStrings := by
    rcases h.hdrs with hd | hd
    · rw [hd]
      exact Nat.zero_le _
    · rw [hd]
      exact Nat.le_refl _
  have hnone : hs.hdrs.drop hs.hdrIndex = [] := List.drop_of_length_le (by omega)
  rw [Response.hdrRest, hnone]
  exact List.drop_nil

theorem hdrRest_split (h : hs.Inv) (hidx : hs.hdrIndex < numFileHdrStrings) :
    hs.hdrRest = (hs.hdrs.getD hs.hdrIndex []).drop hs.hdrPos ++
      (hs.hdrs.drop (hs.hdrIndex + 1)).flatten := by
  obtain ⟨hnf, hpos⟩ := h.index hidx
  have hlt : hs.hdrIndex < hs.hdrs.length := by
    rw [hnf]
    exact hidx
  rw [Response.hdrRest, List.drop_eq_getElem_cons hlt, List.flatten_cons]
  rw [List.getD_eq_getElem _ _ hlt] at hpos ⊢
  exact List.drop_append_of_le_length hpos.le

/-- **Bytes of a header string are sent.** -/
theorem hdrSent_spec (h : hs.Inv) (hidx : hs.hdrIndex < numFileHdrStrings) {n : Nat}
    (hn : n ≤ (hs.hdrs.getD hs.hdrIndex []).length - hs.hdrPos) :
    (hs.hdrSent n).Inv ∧
      hs.hdrRest = ((hs.hdrs.getD hs.hdrIndex []).drop hs.hdrPos).take n ++
        (hs.hdrSent n).hdrRest := by
  obtain ⟨hnf, hpos⟩ := h.index hidx
  rw [hdrRest_split h hidx, Response.hdrSent]
  split
  · next hend =>
    refine ⟨⟨h.hdrs, fun hidx' => ⟨hnf, ?_⟩, h.left, h.retries⟩, ?_⟩
    · dsimp only at hidx' ⊢
      rw [hnf]
      exact notFoundHdrs_filled _ hidx'
    · rw [List.take_of_length_le (by rw [List.length_drop]; omega)]
      rfl
  · next hend =>
    have hmore : hs.hdrPos + n < (hs.hdrs.getD hs.hdrIndex []).length := by omega
    have h' : ({ hs with hdrPos := hs.hdrPos + n } : Response).Inv :=
      ⟨h.hdrs, fun _ => ⟨hnf, hmore⟩, h.left, h.retries⟩
    refine ⟨h', ?_⟩
    have hsplit := (List.take_append_drop n
      ((hs.hdrs.getD hs.hdrIndex []).drop hs.hdrPos)).symm
    rw [List.drop_drop] at hsplit
    rw [hdrRest_split h' hidx, ← List.append_assoc]
    exact congrArg (· ++ (hs.hdrs.drop (hs.hdrIndex + 1)).flatten) hsplit

theorem hdrSent_same (n : Nat) :
    (hs.hdrSent n).file = hs.file ∧ (hs.hdrSent n).left = hs.left ∧
      (hs.hdrSent n).retries = hs.retries ∧ (hs.hdrSent n).closed = hs.closed := by
  unfold Response.hdrSent
  split <;> exact ⟨rfl, rfl, rfl, rfl⟩

theorem httpWrite_le (sndBuf : Nat) (answers : List TcpWrite) (len : Nat)
    (h : (httpWrite sndBuf answers len).1 = true) : (httpWrite sndBuf answers len).2.1 ≤ len := by
  induction answers generalizing len with
  | nil => exact Nat.le_refl _
  | cons a answers ih =>
    cases a with
    | ok => exact Nat.le_refl _
    | fails => cases h
    | mem queueFull =>
      simp only [httpWrite] at h ⊢
      generalize hn : (if sndBuf = 0 ∨ queueFull then 1 else len / 2) = n at h ⊢
      by_cases h1 : n > 1
      · rw [if_pos h1] at h ⊢
        have hle : n ≤ len := by
          subst hn
          split at h1
          · omega
          · rw [if_neg ‹_›]
            omega
        exact Nat.le_trans (ih n h) hle
      · rw [if_neg h1] at h
        cases h

structure Sending.From (t : Sending) (hs : Response) (n : Nat) : Prop where
  inv : t.hs.Inv
  rest : hs.hdrRest = t.written ++ t.hs.hdrRest
  room : t.written.length + t.len = n
  file : t.hs.file = hs.file
  left : t.hs.left = hs.left
  retries : t.hs.retries = hs.retries
  closed : t.hs.closed = hs.closed

theorem round_from {t : Sending} {n : Nat} (h : t.From hs n)
    (hidx : t.hs.hdrIndex < numFileHdrStrings) : t.round.2.From hs n := by
  unfold Sending.round
  dsimp only
  generalize hw : httpWrite t.len t.answers
    (min t.len ((t.hs.hdrs.getD t.hs.hdrIndex []).length - t.hs.hdrPos)) = w
  generalize hsend : (if w.1 = true then w.2.1 else 0) = sendlen
  have hle : sendlen ≤ min t.len ((t.hs.hdrs.getD t.hs.hdrIndex []).length - t.hs.hdrPos) := by
    subst hsend
    split
    · next hok =>
      subst hw
      exact httpWrite_le _ _ _ hok
    · exact Nat.zero_le _
  rw [Nat.le_min] at hle
  obtain ⟨hinv, hrest⟩ := hdrSent_spec h.inv hidx hle.2
  obtain ⟨hfile, hleft, hretries, hclosed⟩ := @hdrSent_same t.hs sendlen
  refine ⟨hinv, ?_, ?_, hfile.trans h.file, hleft.trans h.left, hretries.trans h.retries,
    hclosed.trans h.closed⟩
  · rw [h.rest, hrest, List.append_assoc]
  · have := h.room
    simp only [List.length_append, List.length_take, List.length_drop]
    omega

theorem sendHdrs_from {t : Sending} {n : Nat} (h : t.From hs n) (fuel : Nat) :
    (sendHdrs fuel t).From hs n := by
  induction fuel generalizing t with
  | zero => exact h
  | succ fuel ih =>
    rw [sendHdrs]
    split
    · next hround =>
      split
      · exact round_from h hround.2
      · exact ih (round_from h hround.2)
    · exact h

theorem sendHdrs_fuel {t : Sending} {fuel : Nat} (h : t.len ≤ fuel) :
    sendHdrs (fuel + 1) t = sendHdrs fuel t := by
  induction fuel generalizing t with
  | zero => rw [sendHdrs, sendHdrs, if_neg (by omega)]
  | succ fuel ih =>
    show (if t.len ≠ 0 ∧ t.hs.hdrIndex < numFileHdrStrings then
        if t.round.1 = 0 then t.round.2 else sendHdrs (fuel + 1) t.round.2 else t) =
      if t.len ≠ 0 ∧ t.hs.hdrIndex < numFileHdrStrings then
        if t.round.1 = 0 then t.round.2 else sendHdrs fuel t.round.2 else t
    by_cases hzero : t.round.1 = 0
    · rw [if_pos hzero, if_pos hzero]
    · have hlen : t.round.2.len = t.len - t.round.1 := rfl
      rw [if_neg hzero, if_neg hzero, ih (by omega)]

/-- What a call of `http_send_data` does: it takes bytes from the front, and ends the connection
only when there are no more. -/
structure Response.Sends (hs : Response) (r : Response × Sent) : Prop where
  inv : r.1.Inv
  rest : hs.rest = r.2.written ++ r.1.rest
  ended : r.2.ended = true → r.1.rest = []
  closed : r.1.closed = (hs.closed || r.2.ended)
  timedOut : r.2.timedOut = false
  file : r.1.file.isSome = hs.file.isSome
  retries : r.1.retries = hs.retries

theorem sendFile_sends {t : Sending} {n : Nat} (h : t.From hs n)
    (hidx : ¬ t.hs.hdrIndex < numFileHdrStrings) (mss : Nat) : hs.Sends (sendFile mss t) := by
  have hhdr := hdrRest_nil h.inv hidx
  have hrest : hs.rest = t.written ++ (t.hs.file.getD []).take t.hs.left := by
    rw [Response.rest, h.rest, hhdr, List.append_nil, h.file, h.left]
  unfold sendFile
  split
  · next hleft =>
    have hnil : t.hs.rest = [] := by
      rw [Response.rest, hhdr, hleft]
      rfl
    refine ⟨⟨h.inv.hdrs, h.inv.index, h.inv.left, fun hc => absurd hc.symm Bool.false_ne_true⟩, ?_,
      fun _ => hnil, ?_, rfl, by rw [h.file], h.retries⟩
    · rw [hrest, hleft, List.take_zero]
      exact congrArg (t.written ++ ·) hnil.symm
    · exact (Bool.or_true _).symm
  · dsimp only
    generalize hw : httpWrite t.len t.answers (min (min t.len t.hs.left) (2 * mss)) = w
    generalize hlen : (if w.1 = true then w.2.1 else 0) = len
    have hle : len ≤ t.hs.left := by
      subst hlen
      split
      · next hok =>
        subst hw
        have := httpWrite_le _ _ _ hok
        omega
      · exact Nat.zero_le _
    have hinv := h.inv.left
    have hget : (t.hs.file.map (List.drop len)).getD [] = (t.hs.file.getD []).drop len := by
      cases t.hs.file with
      | none => exact List.drop_nil.symm
      | some f => rfl
    have hsplit : (t.hs.file.getD []).take t.hs.left =
        (t.hs.file.getD []).take len ++ ((t.hs.file.getD []).drop len).take (t.hs.left - len) := by
      rw [← List.take_append_drop len ((t.hs.file.getD []).take t.hs.left), List.take_take,
        List.drop_take, Nat.min_eq_left hle]
    have hleft' : t.hs.left - len ≤ ((t.hs.file.map (List.drop len)).getD []).length := by
      rw [hget, List.length_drop]
      omega
    have hrest' : hs.rest = (t.written ++ (t.hs.file.getD []).take len) ++
        ({ t.hs with file := t.hs.file.map (List.drop len), left := t.hs.left - len } :
          Response).rest := by
      have hhdr' : ({ t.hs with file := t.hs.file.map (List.drop len), left := t.hs.left - len } :
          Response).hdrRest = [] := hhdr
      rw [hrest, hsplit, Response.rest, hhdr', hget, List.nil_append, List.append_assoc]
    have hsome : (t.hs.file.map (List.drop len)).isSome = hs.file.isSome := by
      rw [Option.isSome_map, h.file]
    split
    · next hzero =>
      refine ⟨⟨h.inv.hdrs, h.inv.index, hleft', fun hc => by cases hc⟩, hrest', fun _ => ?_, ?_,
        rfl, hsome, h.retries⟩
      · show Response.hdrRest _ ++ List.take (t.hs.left - len) _ = []
        rw [hzero]
        exact (List.append_nil _).trans hhdr
      · exact (Bool.or_true _).symm
    · refine ⟨⟨h.inv.hdrs, h.inv.index, hleft', h.inv.retries⟩, hrest',
        fun he => absurd he Bool.false_ne_true, ?_, rfl, hsome, h.retries⟩
      rw [Bool.or_false]
      exact h.closed

/-- **`http_send_data`.** -/
theorem sendData_sends (h : hs.Inv) (tcp : Tcp) : hs.Sends (hs.sendData tcp) := by
  have h0 : Sending.From { hs, len := tcp.sndBuf, answers := tcp.answers } hs tcp.sndBuf :=
    ⟨h, rfl, Nat.zero_add _, rfl, rfl, rfl, rfl⟩
  unfold Response.sendData
  dsimp only
  split
  · have ht := sendHdrs_from h0 tcp.sndBuf
    generalize sendHdrs tcp.sndBuf { hs, len := tcp.sndBuf, answers := tcp.answers } = t at ht ⊢
    split
    · refine ⟨ht.inv, ?_, fun he => absurd he Bool.false_ne_true, ?_, rfl, by rw [ht.file],
        ht.retries⟩
      · rw [Response.rest, Response.rest, ht.rest, ht.file, ht.left, List.append_assoc]
      · rw [Bool.or_false]
        exact ht.closed
    · next hdone => exact sendFile_sends ht (fun hlt => hdone (.inl hlt)) tcp.mss
  · next hidx => exact sendFile_sends h0 hidx tcp.mss

end Send

/-! ## What is asked for -/

/-- What is left to send when a request for `uri` has been read. The 404 page starts over the
header strings, the default page comes behind them. -/
def Response.due (hs : Response) (memory is09 : Bool) (uri : List UInt8) : List UInt8 :=
  if uriIsRoot uri && memory then hs.rest ++ (if is09 then httpIndexHtml else defaultPage)
  else notFoundHdrs.flatten

theorem defaultFile_header : strnstr defaultFile.data (crlf ++ crlf) defaultFile.index =
    some ((getHttpHeaders (bytes "default.htm")).length - 4) := by decide +kernel

theorem defaultHeader_length : 4 ≤ (getHttpHeaders (bytes "default.htm")).length := by
  decide +kernel

theorem defaultFile_sent (k : Nat) :
    (defaultFile.data.drop k).take (defaultFile.index - k) = defaultPage.drop k := by
  by_cases hk : k ≤ defaultPage.length
  · rw [show defaultFile.data = defaultPage ++ _ from rfl, List.drop_append_of_le_length hk]
    rw [show defaultFile.index - k = (defaultPage.drop k).length from (List.length_drop ..).symm]
    exact List.take_left' rfl
  · rw [show defaultFile.index - k = 0 from Nat.sub_eq_zero_of_le (by
      show defaultPage.length ≤ k
      omega), List.take_zero, List.drop_of_length_le (by omega)]

section Find

variable {hs : Response}

theorem findFile_root {uri : List UInt8} (h : uriIsRoot uri = true) (is09 : Bool) :
    hs.findFile true is09 uri = httpInitFile hs (some defaultFile) is09 := by
  rw [Response.findFile, if_pos h]
  rfl

theorem findFile_none {uri : List UInt8} {memory : Bool}
    (h : ¬ (uriIsRoot uri && memory) = true) (is09 : Bool) :
    hs.findFile memory is09 uri = httpInitFile hs none is09 := by
  unfold Response.findFile
  split
  · next hroot =>
    have hm : memory = false := by
      by_contra hm
      rw [Bool.not_eq_false] at hm
      exact h (by rw [hm, hroot]; rfl)
    rw [hm]
    rfl
  · rfl

/-- **The request decides what is sent.** -/
theorem findFile_spec (h : hs.Inv) (hidle : hs.file = none) (memory is09 : Bool)
    (uri : List UInt8) :
    (hs.findFile memory is09 uri).Inv ∧
      (hs.findFile memory is09 uri).rest = hs.due memory is09 uri ∧
      (hs.findFile memory is09 uri).file.isSome = (uriIsRoot uri && memory) ∧
      (hs.findFile memory is09 uri).closed = hs.closed ∧
      (hs.findFile memory is09 uri).retries = 0 := by
  have hpos : 0 < httpdMaxRetries := by decide
  by_cases hp : (uriIsRoot uri && memory) = true
  · rw [Response.due, if_pos hp, hp]
    obtain ⟨hroot, rfl⟩ := Bool.and_eq_true_iff.mp hp
    rw [findFile_root hroot]
    have hrest : hs.rest = hs.hdrRest := by
      rw [Response.rest, hidle]
      exact (congrArg _ List.take_nil).trans (List.append_nil _)
    generalize hd : (if is09 = true then
      (strnstr defaultFile.data (crlf ++ crlf) defaultFile.index).elim 0 (· + 4) else 0) = diff
    have hinit : httpInitFile hs (some defaultFile) is09 =
        { hs with
          file := some (defaultFile.data.drop diff)
          left := defaultFile.index - diff, retries := 0 } := by
      subst hd
      rfl
    rw [hinit]
    refine ⟨⟨h.hdrs, h.index, ?_, fun _ => hpos⟩, ?_, rfl, rfl, rfl⟩
    · have hle : defaultFile.index ≤ defaultFile.data.length := by
        show defaultPage.length ≤ (defaultPage ++ _).length
        rw [List.length_append]
        exact Nat.le_add_right ..
      show defaultFile.index - diff ≤ (defaultFile.data.drop diff).length
      rw [List.length_drop]
      omega
    · show hs.hdrRest ++ (defaultFile.data.drop diff).take (defaultFile.index - diff) = _
      rw [defaultFile_sent, hrest]
      congr 1
      subst hd
      cases is09 with
      | false => rfl
      | true =>
        have h4 := defaultHeader_length
        rw [if_pos rfl, if_pos rfl, defaultFile_header, Option.elim_some, Nat.sub_add_cancel h4]
        exact List.drop_left' rfl
  · rw [Response.due, if_neg hp, findFile_none hp, Bool.eq_false_iff.mpr hp]
    refine ⟨⟨.inr rfl, fun _ => ⟨rfl, notFoundHdrs_filled 0 (by decide)⟩, Nat.zero_le _,
      fun _ => hpos⟩, ?_, rfl, rfl, rfl⟩
    exact (congrArg _ List.take_nil).trans (List.append_nil _)

end Find

/-! ## Runs -/

def RespEvent.isFind : RespEvent → Bool
  | .find .. => true
  | _ => false

theorem respStep_closed {hs : Response} (hc : hs.closed = true) (e : RespEvent) :
    respStep hs e = (hs, {}) := by
  rw [respStep, if_pos hc]

theorem respStep_call {hs : Response} (hopen : hs.closed = false) (e : RespEvent) :
    respStep hs e = respCall hs e := by
  rw [respStep, hopen]
  exact if_neg Bool.false_ne_true

/-- Bytes only leave from the front, and when the response ended the connection none are left. -/
structure Response.Streams (hs : Response) (r : Response × Sent) : Prop where
  inv : r.1.Inv
  rest : hs.rest = r.2.written ++ r.1.rest
  ended : r.2.ended = true → r.1.rest = []
  file : r.1.file.isSome = hs.file.isSome

section Run

variable {hs : Response}

theorem Response.Sends.streams {r : Response × Sent} (h : hs.Sends r) : hs.Streams r :=
  ⟨h.inv, h.rest, h.ended, h.file⟩

theorem Response.Inv.retry (h : hs.Inv) {k : Nat} (hk : k < httpdMaxRetries) :
    Response.Inv { hs with retries := k } :=
  ⟨h.hdrs, h.index, h.left, fun _ => hk⟩

theorem Response.Inv.shut (h : hs.Inv) (k : Nat) :
    Response.Inv { hs with retries := k, closed := true } :=
  ⟨h.hdrs, h.index, h.left, fun hc => absurd hc.symm Bool.false_ne_true⟩

theorem streams_quiet (hs : Response) {hs' : Response} (h : hs'.Inv) (hrest : hs'.rest = hs.rest)
    (hfile : hs'.file = hs.file) (timedOut : Bool) : hs.Streams (hs', { timedOut }) :=
  ⟨h, hrest.symm, fun he => absurd he Bool.false_ne_true, by rw [hfile]⟩

theorem sendData_streams (h : hs.Inv) {k : Nat} (hk : k < httpdMaxRetries) (tcp : Tcp) :
    hs.Streams (Response.sendData { hs with retries := k } tcp) := by
  obtain ⟨hinv, hrest, hended, hfile⟩ := (sendData_sends (h.retry hk) tcp).streams
  exact ⟨hinv, hrest, hended, hfile⟩

theorem respStep_streams (h : hs.Inv) {e : RespEvent}
    (hfind : e.isFind = true → hs.file.isSome = true) : hs.Streams (respStep hs e) := by
  cases hopen : hs.closed with
  | true =>
    rw [respStep_closed hopen]
    exact streams_quiet hs h rfl rfl false
  | false =>
    rw [respStep_call hopen]
    have hlt := h.retries hopen
    have hpos : 0 < httpdMaxRetries := by decide
    cases e with
    | find memory is09 uri =>
      rw [respCall, if_pos (hfind rfl)]
      exact streams_quiet hs h rfl rfl false
    | send tcp => exact (sendData_sends h tcp).streams
    | sent tcp => exact sendData_streams h hpos tcp
    | poll tcp =>
      rw [respCall]
      dsimp only
      split
      · exact streams_quiet hs (h.shut _) rfl rfl true
      · next hne =>
        have hk : hs.retries + 1 < httpdMaxRetries := Nat.lt_of_le_of_ne hlt hne
        split
        · exact sendData_streams h hk tcp
        · exact streams_quiet hs (h.retry hk) rfl rfl false
    | postData => exact streams_quiet hs (h.retry hpos) rfl rfl false
    | close => exact streams_quiet hs (h.shut _) rfl rfl false

theorem respStep_inv (h : hs.Inv) (e : RespEvent) : (respStep hs e).1.Inv := by
  by_cases hfind : e.isFind = true → hs.file.isSome = true
  · exact (respStep_streams h hfind).inv
  · rw [Classical.not_imp] at hfind
    obtain ⟨he, hfile⟩ := hfind
    cases e with
    | find memory is09 uri =>
      cases hopen : hs.closed with
      | true => rwa [respStep_closed hopen]
      | false =>
        rw [respStep_call hopen, respCall, if_neg hfile]
        exact (findFile_spec h (Option.not_isSome_iff_eq_none.mp hfile) memory is09 uri).1
    | _ => cases he

theorem inv_accepted : Response.Inv {} :=
  ⟨.inl rfl, fun h => absurd h (Nat.lt_irrefl _), Nat.le_refl _, fun _ => by decide⟩

theorem inv_run (es : List RespEvent) : (final respStep {} es).Inv :=
  final_inv_of_step (I := Response.Inv) (fun _ e h => respStep_inv h e) es inv_accepted

def sentBytes (os : List Sent) : List UInt8 := os.flatMap Sent.written

theorem sentBytes_append (os os' : List Sent) :
    sentBytes (os ++ os') = sentBytes os ++ sentBytes os' := List.flatMap_append

theorem respond_run (h : hs.Inv) {es : List RespEvent}
    (hone : hs.file.isSome = true ∨ ∀ e ∈ es, e.isFind = false) :
    hs.rest = sentBytes (outs respStep hs es) ++ (final respStep hs es).rest ∧
      ∀ o ∈ outs respStep hs es, o.ended = true → (final respStep hs es).rest = [] := by
  have hstep : ∀ s os e, (s.Inv ∧ s.file.isSome = hs.file.isSome ∧
        hs.rest = sentBytes os ++ s.rest ∧ ∀ o ∈ os, o.ended = true → s.rest = []) →
      (hs.file.isSome = true ∨ e.isFind = false) →
      ((respStep s e).1.Inv ∧ (respStep s e).1.file.isSome = hs.file.isSome ∧
        hs.rest = sentBytes (os ++ [(respStep s e).2]) ++ (respStep s e).1.rest ∧
        ∀ o ∈ os ++ [(respStep s e).2], o.ended = true → (respStep s e).1.rest = []) := by
    rintro s os e ⟨hinv, hfile, hrest, hended⟩ he
    obtain ⟨hinv', hrest', hended', hfile'⟩ := respStep_streams hinv (e := e) fun hf => by
      rcases he with he | he
      · rw [hfile, he]
      · rw [he] at hf
        cases hf
    refine ⟨hinv', hfile'.trans hfile, ?_, fun o ho hoe => ?_⟩
    · rw [hrest, hrest', sentBytes_append, List.append_assoc]
      congr 2
      exact (List.append_nil _).symm
    · rcases List.mem_append.mp ho with ho | ho
      · have hnil := hended o ho hoe
        rw [hrest'] at hnil
        exact (List.append_eq_nil_iff.mp hnil).2
      · rw [List.mem_singleton.mp ho] at hoe
        exact hended' hoe
  have hguard : Along respStep (fun _ e => hs.file.isSome = true ∨ e.isFind = false) hs es :=
    along_of_mem (G := fun e => hs.file.isSome = true ∨ e.isFind = false) fun e he =>
      hone.imp_right fun hnone => hnone e he
  have hstart : hs.Inv ∧ hs.file.isSome = hs.file.isSome ∧ hs.rest = sentBytes [] ++ hs.rest ∧
      ∀ o ∈ ([] : List Sent), o.ended = true → hs.rest = [] :=
    ⟨h, rfl, rfl, fun o ho => by cases ho⟩
  have hrun := final_outs_inv_along hstep hstart hguard
  rw [List.nil_append] at hrun
  exact ⟨hrun.2.2.1, hrun.2.2.2⟩

end Run

/-- **A response goes out in order.** After any run, a request is read: whatever TCP takes, and
until the next request that is not ignored, the bytes sent are the first of those due, and all of
them when the response ended the connection. -/
theorem response_in_order (before es : List RespEvent) (memory is09 : Bool) (uri : List UInt8)
    (hidle : (final respStep {} before).file = none)
    (hone : (uriIsRoot uri && memory) = true ∨ ∀ e ∈ es, e.isFind = false) :
    sentBytes (outs respStep ((final respStep {} before).findFile memory is09 uri) es) <+:
        (final respStep {} before).due memory is09 uri ∧
      ∀ o ∈ outs respStep ((final respStep {} before).findFile memory is09 uri) es,
        o.ended = true →
          sentBytes (outs respStep ((final respStep {} before).findFile memory is09 uri) es) =
            (final respStep {} before).due memory is09 uri := by
  obtain ⟨hinv, hdue, hfile, -, -⟩ := findFile_spec (inv_run before) hidle memory is09 uri
  rw [← hfile] at hone
  obtain ⟨hrest, hended⟩ := respond_run hinv hone
  rw [← hdue, hrest]
  refine ⟨List.prefix_append .., fun o ho hoe => ?_⟩
  rw [hended o ho hoe, List.append_nil]

/-- TCP takes half of what is offered, then the rest of the page. -/
def halves : List RespEvent :=
  [.send ⟨200, 100, [.mem false]⟩, .find true false (bytes "/other"), .sent ⟨1000, 536, []⟩]

theorem response_in_order_halves :
    sentBytes (outs respStep (Response.findFile {} true false (bytes "/")) halves) <+:
        Response.due {} true false (bytes "/") ∧
      ∀ o ∈ outs respStep (Response.findFile {} true false (bytes "/")) halves,
        o.ended = true →
          sentBytes (outs respStep (Response.findFile {} true false (bytes "/")) halves) =
            Response.due {} true false (bytes "/") :=
  response_in_order [] halves true false (bytes "/") rfl (.inl (by decide))

end AdcUdpStream.Loader
