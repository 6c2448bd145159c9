import PicoBLE.Lib.CString

/-!
# `http_get.c`: the HTTP client

`http_get` fills in a static context, starts the transfer, and then waits for
`complete` while LwIP's callbacks move the context along. The callbacks are
functions on the static state; what LwIP and the server do is the argument of
each of them.

A pcb is named by the number of the `http_get` call that opened it: a call
opens at most one. `size_t` is 32 bits wide on the RP2040. Log lines, TCP
acknowledgements and the freeing of pbufs leave no trace here.
-/

namespace PicoBLE.Network

open CString

/-- `HOST_MAX`. -/
def hostMax : Nat := 64

/-- `PATH_MAX`. -/
def pathMax : Nat := 128

/-- `HDR_MAX`. -/
def hdrMax : Nat := 512

/-- `state_t`. -/
inductive State where
  | init
  | dns
  | connect
  | headers
  | body
  | done
  | error
deriving DecidableEq, Repr

/-- `http_result_t`. -/
inductive HttpResult where
  | ok
  | errParse
  | errDns
  | errConnect
  | errHttpStatus
  | errAborted
  | errTimeout
  | errNomem
  | errInternal
deriving DecidableEq, Repr

/-- LwIP's `err_t`. -/
abbrev ErrT := Int

def errOk : ErrT := 0

/-- `ERR_ABRT`, what `tcp_abort` reports. -/
def errAbrt : ErrT := -13

/-- `ctx_t`. `κ` names the callers' callbacks. -/
structure Ctx (κ : Type) where
  state : State
  pcb : Option Nat
  remoteIp : Nat
  port : Nat
  host : List UInt8
  path : List UInt8
  /-- `hdr_buf` up to `hdr_len`. -/
  hdrBuf : List UInt8
  statusOk : Bool
  /-- 0 = unknown / not present. -/
  contentLength : Nat
  bodyReceived : Nat
  /-- `chunk_cb` with its `user`. -/
  chunkCb : Option κ
  result : HttpResult
  complete : Bool
deriving DecidableEq

/-- `memset(&ctx, 0, sizeof(ctx))`. -/
def Ctx.zero {κ : Type} : Ctx κ where
  state := .init
  pcb := none
  remoteIp := 0
  port := 0
  host := []
  path := []
  hdrBuf := []
  statusOk := false
  contentLength := 0
  bodyReceived := 0
  chunkCb := none
  result := .ok
  complete := false

/-- The static variables of `http_get.c`, and `user`, the state that the
callers' callbacks work on. -/
structure Http (κ σ : Type) where
  ctx : Ctx κ
  /-- `g_last_lwip_err`. -/
  lastErr : ErrT
  user : σ
deriving DecidableEq

variable {κ σ : Type}

/-! ## URL parser -/

/-- `parse_url` from the end of the port on. -/
def parsePath (p : List UInt8) (ctx : Ctx κ) : Ctx κ × Bool :=
  match p with
  | [] => ({ ctx with path := ascii "/" }, true)
  | 47 :: _ => if pathMax ≤ p.length then (ctx, false) else ({ ctx with path := p }, true)
  | _ => (ctx, false)

/-- `parse_url`. What it has stored by the time it fails stays stored. -/
def parseUrl (url : Option (List UInt8)) (ctx : Ctx κ) : Ctx κ × Bool :=
  match url with
  | none => (ctx, false)
  | some url =>
    if ascii "http://" <+: url then
      let p := url.drop 7
      let host := p.takeWhile fun c => c ≠ 58 ∧ c ≠ 47
      if host.length = 0 ∨ hostMax ≤ host.length then (ctx, false)
      else
        match p.drop host.length with
        | 58 :: q =>
          if (strtoul q).1 = 0 ∨ 65535 < (strtoul q).1 then ({ ctx with host := host }, false)
          else parsePath (strtoul q).2 { ctx with host := host, port := (strtoul q).1 }
        | q => parsePath q { ctx with host := host, port := 80 }
    else (ctx, false)

theorem parsePath_frame (p : List UInt8) (ctx : Ctx κ) :
    ∃ path, (parsePath p ctx).1 = { ctx with path := path } ∧
      ((parsePath p ctx).2 = true → path.length < pathMax) := by
  unfold parsePath
  split
  · exact ⟨_, rfl, fun _ => by decide⟩
  · split
    · exact ⟨_, rfl, fun h => absurd h Bool.false_ne_true⟩
    · next h => exact ⟨_, rfl, fun _ => Nat.lt_of_not_le h⟩
  · exact ⟨_, rfl, fun h => absurd h Bool.false_ne_true⟩

/-- `parse_url` stores the host, the port and the path, and what it accepts fits
their buffers. -/
theorem parseUrl_frame (url : Option (List UInt8)) (ctx : Ctx κ) :
    ∃ host port path, (parseUrl url ctx).1 = { ctx with host := host, port := port, path := path } ∧
      ((parseUrl url ctx).2 = true → host.length < hostMax ∧ path.length < pathMax) := by
  have hno : ∀ c : Ctx κ, ∃ host port path,
      c = { c with host := host, port := port, path := path } ∧
      (false = true → host.length < hostMax ∧ path.length < pathMax) :=
    fun c => ⟨c.host, c.port, c.path, rfl, fun h => absurd h Bool.false_ne_true⟩
  cases url with
  | none => exact hno ctx
  | some url =>
    rw [parseUrl]
    dsimp only
    split
    · split
      · exact hno ctx
      · next hhost =>
        rw [not_or] at hhost
        split
        · split
          · exact ⟨_, ctx.port, ctx.path, rfl, fun h => absurd h Bool.false_ne_true⟩
          · obtain ⟨path, heq, hlen⟩ := parsePath_frame _ _
            exact ⟨_, _, path, heq, fun h => ⟨Nat.lt_of_not_le hhost.2, hlen h⟩⟩
        · obtain ⟨path, heq, hlen⟩ := parsePath_frame _ _
          exact ⟨_, _, path, heq, fun h => ⟨Nat.lt_of_not_le hhost.2, hlen h⟩⟩
    · exact hno ctx

/-! ## Header parser -/

/-- Upper case to lower case. -/
def toLower (c : UInt8) : UInt8 := if 65 ≤ c ∧ c ≤ 90 then c + 32 else c

/-- `ci_starts_with`. The NUL at the end of the string matches nothing. -/
def ciStartsWith : List UInt8 → List UInt8 → Bool
  | _, [] => true
  | [], _ :: _ => false
  | a :: s, b :: pre => if toLower a = toLower b then ciStartsWith s pre else false

/-- The status line part of `parse_response_headers`: is the code 2xx? -/
def parseStatus (hdrBuf : List UInt8) : Bool :=
  if 12 ≤ hdrBuf.length ∧ ascii "HTTP/1." <+: hdrBuf then
    match strchr 32 (ofBuffer hdrBuf) with
    | some sp => 200 ≤ atoi sp.tail ∧ atoi sp.tail < 300
    | none => false
  else false

/-- The line begins with `content-length:`. -/
def namesLength (line : List UInt8) : Bool := ciStartsWith line (ascii "content-length:")

/-- A space or a tab. -/
def isBlank (c : UInt8) : Bool := c = 32 ∨ c = 9

/-- The value of a `content-length:` line. -/
def lineValue (line : List UInt8) : Nat := (strtoul ((line.drop 15).dropWhile isBlank)).1

/-- The loop of `parse_response_headers`, from a line break on. Each round
consumes the line break, so `fuel` is spent no faster than the string. -/
def scanLines : Nat → List UInt8 → Nat → Nat
  | 0, _, contentLength => contentLength
  | fuel + 1, brk, contentLength =>
    let line := brk.drop 2
    if line = [] ∨ crlf <+: line then contentLength
    else
      let contentLength :=
        if namesLength line then lineValue line else contentLength
      match strstr crlf line with
      | some brk => scanLines fuel brk contentLength
      | none => contentLength

/-- The `Content-Length` part of `parse_response_headers`. -/
def parseContentLength (hdrBuf : List UInt8) : Nat :=
  match strstr crlf (ofBuffer hdrBuf) with
  | some brk => scanLines hdrBuf.length brk 0
  | none => 0

/-- `parse_response_headers`. -/
def parseResponseHeaders (ctx : Ctx κ) : Ctx κ :=
  { ctx with
    statusOk := parseStatus ctx.hdrBuf
    contentLength := parseContentLength ctx.hdrBuf }

/-- The four bytes that end the headers. -/
def crlfCrlf : List UInt8 := crlf ++ crlf

/-- `feed_header_bytes`, with the bytes it does not consume. -/
def feedHeaderBytes (ctx : Ctx κ) : List UInt8 → Ctx κ × List UInt8
  | [] => (ctx, [])
  | b :: data =>
    if ctx.state = .headers then
      if ctx.hdrBuf.length < hdrMax then
        if crlfCrlf <:+ ctx.hdrBuf ++ [b] then
          ({ parseResponseHeaders { ctx with hdrBuf := ctx.hdrBuf ++ [b] } with state := .body },
            data)
        else feedHeaderBytes { ctx with hdrBuf := ctx.hdrBuf ++ [b] } data
      else ({ ctx with result := .errParse, state := .error }, b :: data)
    else (ctx, b :: data)

/-! ## LwIP callbacks -/

/-- `mark_complete`. -/
def Ctx.markComplete (ctx : Ctx κ) (r : HttpResult) : Ctx κ :=
  if ctx.complete then ctx
  else { ctx with result := r, state := if r = .ok then .done else .error, complete := true }

/-- `mark_complete` on the static context. -/
def markComplete (r : HttpResult) (h : Http κ σ) : Http κ σ :=
  { h with ctx := h.ctx.markComplete r }

/-- `tcp_err_cb`. -/
def tcpErrCb (err : ErrT) (h : Http κ σ) : Http κ σ :=
  markComplete .errAborted { h with lastErr := err, ctx := { h.ctx with pcb := none } }

/-- The request text of `send_request`. -/
def requestText (path host : List UInt8) : List UInt8 :=
  ascii "GET " ++ path ++ ascii " HTTP/1.1\r\n" ++ ascii "Host: " ++ host ++ ascii "\r\n" ++
    ascii "User-Agent: PicoBLE-Terminal/1\r\n" ++ ascii "Connection: close\r\n" ++
    ascii "Accept: */*\r\n" ++ ascii "\r\n"

/-- `send_request`; `write` is what `tcp_write` returns. -/
def sendRequest (write : ErrT) (h : Http κ σ) : Http κ σ :=
  if hostMax + pathMax + 128 ≤ (requestText h.ctx.path h.ctx.host).length then
    markComplete .errInternal h
  else if write ≠ errOk then markComplete .errNomem h
  else h

/-- `tcp_connected_cb`. -/
def tcpConnectedCb (err write : ErrT) (h : Http κ σ) : Http κ σ :=
  if err ≠ errOk then markComplete .errConnect h
  else sendRequest write { h with ctx := { h.ctx with state := .headers } }

variable (call : κ → List UInt8 → σ → Bool × σ)

/-- Complete when the declared length has been received. -/
def Ctx.endOfBody (ctx : Ctx κ) : Ctx κ :=
  if 0 < ctx.contentLength ∧ ctx.bodyReceived = ctx.contentLength then
    ctx.markComplete (if ctx.statusOk then .ok else .errHttpStatus)
  else ctx

/-- `body_received += take`, and the end of the body if this is it. -/
def countBody (take : Nat) (ctx : Ctx κ) : Ctx κ :=
  { ctx with bodyReceived := (ctx.bodyReceived + take) % 2 ^ 32 : Ctx κ }.endOfBody

/-- How much of `remaining` bytes of a body is wanted. -/
def bodyTake (ctx : Ctx κ) (remaining : Nat) : Nat :=
  if 0 < ctx.contentLength then
    min remaining ((ctx.contentLength + 2 ^ 32 - ctx.bodyReceived) % 2 ^ 32)
  else remaining

/-- Hand over and count body bytes, and whether the segment loop goes on. -/
def takeBody (bytes : List UInt8) (h : Http κ σ) : Http κ σ × Bool :=
  let take := bodyTake h.ctx bytes.length
  match h.ctx.chunkCb with
  | some cb =>
    if 0 < take then
      match call cb (bytes.take take) h.user with
      | (true, user) => ({ h with ctx := countBody take h.ctx, user := user }, true)
      | (false, user) => (markComplete .errAborted { h with user := user }, false)
    else ({ h with ctx := countBody take h.ctx }, true)
  | none => ({ h with ctx := countBody take h.ctx }, true)

/-- The body part of the segment loop. -/
def recvBody (bytes : List UInt8) (h : Http κ σ) : Http κ σ × Bool :=
  if h.ctx.state = .body ∧ 0 < bytes.length then takeBody call bytes h else (h, true)

/-- One round of the segment loop of `tcp_recv_cb`, and whether it goes on. -/
def recvSegment (bytes : List UInt8) (h : Http κ σ) : Http κ σ × Bool :=
  if h.ctx.state = .headers then
    if (feedHeaderBytes h.ctx bytes).1.state = .error then
      ({ h with ctx := (feedHeaderBytes h.ctx bytes).1 }, false)
    else
      recvBody call (feedHeaderBytes h.ctx bytes).2
        { h with ctx := (feedHeaderBytes h.ctx bytes).1 }
  else recvBody call bytes h

/-- The segment loop of `tcp_recv_cb`. -/
def recvSegments : List (List UInt8) → Http κ σ → Http κ σ
  | [], h => h
  | q :: rest, h =>
    if h.ctx.complete then h
    else
      match recvSegment call q h with
      | (h, true) => recvSegments rest h
      | (h, false) => h

/-- `tcp_recv_cb` with a NULL pbuf: the peer has closed. -/
def recvClosed (h : Http κ σ) : Http κ σ :=
  let ctx :=
    if h.ctx.state = .body ∧
        (h.ctx.contentLength = 0 ∨ h.ctx.bodyReceived = h.ctx.contentLength) ∧
        h.ctx.statusOk then
      h.ctx.markComplete .ok
    else h.ctx.markComplete (if h.ctx.statusOk then .errAborted else .errHttpStatus)
  { h with ctx := { ctx with pcb := none } }

/-- `tcp_recv_cb`; the pbuf chain is the list of its segments. -/
def tcpRecvCb (p : Option (List (List UInt8))) (err : ErrT) (h : Http κ σ) : Http κ σ :=
  match p with
  | none => recvClosed h
  | some chain =>
    if err ≠ errOk then markComplete .errAborted h
    else recvSegments call chain h

/-- What LwIP answers in `start_connect`: whether `tcp_new_ip_type` has a pcb
to give, and what `tcp_connect` returns. -/
structure TcpOpen where
  alloc : Bool
  connect : ErrT
deriving DecidableEq

/-- `start_connect` of call number `r`. -/
def startConnect (r : Nat) (tcp : TcpOpen) (h : Http κ σ) : Http κ σ :=
  if tcp.alloc then
    let h := { h with ctx := { h.ctx with pcb := some r, state := .connect } }
    if tcp.connect ≠ errOk then markComplete .errConnect h else h
  else markComplete .errNomem h

/-- `dns_cb`. -/
def dnsCb (r : Nat) (tcp : TcpOpen) (addr : Option Nat) (h : Http κ σ) : Http κ σ :=
  match addr with
  | none => markComplete .errDns h
  | some addr => startConnect r tcp { h with ctx := { h.ctx with remoteIp := addr } }

/-! ## What LwIP has pending for a call -/

/-- The pcb of a call. -/
inductive Pcb where
  | absent
  /-- `tcp_connect` failed on it: no callback will come. -/
  | unconnected
  | connecting
  | established
  /-- After `tcp_close`: it can still be reset. -/
  | closing
  | freed
deriving DecidableEq, Repr

/-- What LwIP knows of a call. -/
structure Conn where
  /-- `dns_cb` is still to be called. -/
  lookup : Bool
  pcb : Pcb
deriving DecidableEq

/-- Nothing is pending. -/
def Conn.idle : Conn := ⟨false, .absent⟩

/-- The pcb that `start_connect` leaves behind. -/
def TcpOpen.pcb (tcp : TcpOpen) : Pcb :=
  if tcp.alloc then if tcp.connect = errOk then .connecting else .unconnected else .absent

/-- The callbacks of one call, with what LwIP and the server put into them. -/
inductive Callback where
  | dns (addr : Option Nat) (tcp : TcpOpen)
  | connected (err write : ErrT)
  | received (chain : List (List UInt8)) (err : ErrT)
  | closed
  | error (err : ErrT)
deriving DecidableEq

/-- What a callback of call `r` does to the static state. -/
def Callback.run (r : Nat) (c : Callback) (h : Http κ σ) : Http κ σ :=
  match c with
  | .dns addr tcp => dnsCb r tcp addr h
  | .connected err write => tcpConnectedCb err write h
  | .received chain err => tcpRecvCb call (some chain) err h
  | .closed => tcpRecvCb call none errOk h
  | .error err => tcpErrCb err h

/-- Whether LwIP can make the callback, and what is pending after it. A lookup
has one answer. Data and the close come on an established connection. The error
callback frees the pcb, and nothing else comes after `tcp_close`. -/
def Conn.next (conn : Conn) : Callback → Option Conn
  | .dns addr tcp =>
    if conn.lookup then
      some ⟨false, if addr.isSome then tcp.pcb else conn.pcb⟩
    else none
  | .connected _ _ =>
    if conn.pcb = .connecting then some { conn with pcb := .established } else none
  | .received _ _ => if conn.pcb = .established then some conn else none
  | .closed => if conn.pcb = .established then some { conn with pcb := .closing } else none
  | .error _ =>
    if conn.pcb = .connecting ∨ conn.pcb = .established ∨ conn.pcb = .closing then
      some { conn with pcb := .freed }
    else none

/-! ## Entry point -/

/-- What `dns_gethostbyname` answers. -/
inductive Lookup where
  | found (addr : Nat)
  | inProgress
  | failed
deriving DecidableEq

/-- The arguments of a call that matter to it, with what LwIP answers while it
starts. -/
structure Start (κ : Type) where
  url : Option (List UInt8)
  chunkCb : Option κ
  dns : Lookup
  tcp : TcpOpen

/-- The context at the start of `http_get`. -/
def Start.ctx (s : Start κ) : Ctx κ :=
  { (Ctx.zero : Ctx κ) with chunkCb := s.chunkCb, state := .init, result := .errInternal }

/-- `http_get` up to the wait loop: the static state, what is pending, and what
it returns if it does not get to the loop. -/
def httpGet (r : Nat) (s : Start κ) (user : σ) : Http κ σ × Conn × Option HttpResult :=
  match parseUrl s.url s.ctx with
  | (ctx, false) => (⟨ctx, 0, user⟩, .idle, some .errParse)
  | (ctx, true) =>
    match s.dns with
    | .found addr =>
      (startConnect r s.tcp ⟨{ ctx with remoteIp := addr }, 0, user⟩, ⟨false, s.tcp.pcb⟩, none)
    | .inProgress => (⟨ctx, 0, user⟩, ⟨true, .absent⟩, none)
    | .failed => (⟨ctx, 0, user⟩, .idle, some .errDns)

/-- The deadline branch of the wait loop. `tcp_abort` calls the pcb's error
callback. -/
def onDeadline (h : Http κ σ) : Http κ σ :=
  let h :=
    if h.ctx.pcb.isSome then
      let h := tcpErrCb errAbrt h
      { h with ctx := { h.ctx with pcb := none } }
    else h
  markComplete .errTimeout h

/-- One pass of the wait loop, and whether it is the last. -/
def waitLoop (expired : Bool) (h : Http κ σ) : Http κ σ × Bool :=
  if h.ctx.complete then (h, true)
  else if expired then (onDeadline h, true)
  else (h, false)

/-- The pcb that a pass of the wait loop aborts. -/
def aborts (expired : Bool) (h : Http κ σ) : Option Nat :=
  if expired ∧ h.ctx.complete = false then h.ctx.pcb else none

/-! ## After completion -/

theorem markComplete_complete {h : Http κ σ} (hc : h.ctx.complete = true) (r : HttpResult) :
    markComplete r h = h := by
  rw [markComplete, Ctx.markComplete, if_pos hc]

theorem recvSegments_complete {h : Http κ σ} (hc : h.ctx.complete = true)
    (chain : List (List UInt8)) : recvSegments call chain h = h := by
  cases chain with
  | nil => rfl
  | cons q chain => rw [recvSegments, if_pos hc]

/-- A callback that leaves `state` alone when the context is complete. -/
def Callback.Quiet : Callback → Prop
  | .dns (some _) tcp => tcp.alloc = false
  | .connected err _ => err ≠ errOk
  | _ => True

/-- **A callback on a complete context** hands nothing over, and changes nothing
but where the connection goes and the state. -/
theorem Callback.run_complete {h : Http κ σ} (hc : h.ctx.complete = true) (r : Nat)
    (c : Callback) :
    ∃ pcb ip st, (c.run call r h).ctx = { h.ctx with pcb := pcb, remoteIp := ip, state := st } ∧
      (c.run call r h).user = h.user ∧ (c.Quiet → st = h.ctx.state) := by
  cases c with
  | dns addr tcp =>
    cases addr with
    | none =>
      rw [run, dnsCb, markComplete_complete hc]
      exact ⟨h.ctx.pcb, h.ctx.remoteIp, h.ctx.state, rfl, rfl, fun _ => rfl⟩
    | some addr =>
      rw [run, dnsCb, startConnect]
      split
      · next ha =>
        -- the one branch that overwrites the state without looking at `complete`
        refine ⟨some r, addr, .connect, ?_, ?_, fun hq => absurd (ha.symm.trans hq) (by simp)⟩
        · dsimp only
          split
          · rw [markComplete_complete]
            exact hc
          · rfl
        · dsimp only
          split <;> rfl
      · rw [markComplete_complete]
        · exact ⟨h.ctx.pcb, addr, h.ctx.state, rfl, rfl, fun _ => rfl⟩
        · exact hc
  | connected err write =>
    rw [run, tcpConnectedCb]
    split
    · rw [markComplete_complete hc]
      exact ⟨h.ctx.pcb, h.ctx.remoteIp, h.ctx.state, rfl, rfl, fun _ => rfl⟩
    · next he =>
      have hsend : sendRequest write { h with ctx := { h.ctx with state := .headers } } =
          { h with ctx := { h.ctx with state := .headers } } := by
        rw [sendRequest]
        split
        · rw [markComplete_complete]
          exact hc
        · split
          · rw [markComplete_complete]
            exact hc
          · rfl
      rw [hsend]
      exact ⟨h.ctx.pcb, h.ctx.remoteIp, .headers, rfl, rfl, fun hq => absurd hq he⟩
  | received chain err =>
    have hsame : (Callback.received chain err).run call r h = h := by
      rw [run, tcpRecvCb]
      split
      · exact markComplete_complete hc _
      · exact recvSegments_complete call hc chain
    rw [hsame]
    exact ⟨h.ctx.pcb, h.ctx.remoteIp, h.ctx.state, rfl, rfl, fun _ => rfl⟩
  | closed =>
    refine ⟨none, h.ctx.remoteIp, h.ctx.state, ?_, rfl, fun _ => rfl⟩
    simp only [run, tcpRecvCb, recvClosed, Ctx.markComplete, hc, if_true, ite_self]
  | error err =>
    refine ⟨none, h.ctx.remoteIp, h.ctx.state, ?_, rfl, fun _ => rfl⟩
    rw [run, tcpErrCb, markComplete_complete]
    exact hc

/-! ## One call with its connection -/

/-- What can happen during and after a call. -/
inductive Event where
  | callback (c : Callback)
  /-- A pass of the wait loop, if `http_get` is still in it. -/
  | check (expired : Bool)
deriving DecidableEq

/-- The callback of an event that is one. -/
def Event.callback? : Event → Option Callback
  | .callback c => some c
  | .check _ => none

/-- A call to `http_get`. -/
structure Request (κ σ : Type) where
  http : Http κ σ
  conn : Conn
  /-- What the call has returned, with `*out_total` where it sets that. -/
  returned : Option (HttpResult × Option Nat)
deriving DecidableEq

/-- Call number `r` up to the wait loop. -/
def Request.start (r : Nat) (s : Start κ) (user : σ) : Request κ σ :=
  ⟨(httpGet r s user).1, (httpGet r s user).2.1, (httpGet r s user).2.2.map (·, none)⟩

/-- A pass of the wait loop. -/
def Request.check (expired : Bool) (q : Request κ σ) : Request κ σ :=
  if q.returned.isSome then q
  else
    match waitLoop expired q.http with
    | (h, true) =>
      { http := h
        conn := if (aborts expired q.http).isSome then { q.conn with pcb := .freed } else q.conn
        returned := some (h.ctx.result, some h.ctx.bodyReceived) }
    | (h, false) => { q with http := h }

/-- One event, where it can happen. -/
def Request.step (r : Nat) (q : Request κ σ) : Event → Option (Request κ σ)
  | .callback c =>
  (q.conn.next c).map fun conn => { q with http := c.run call r q.http, conn := conn }
  | .check expired => some (q.check expired)

end PicoBLE.Network
