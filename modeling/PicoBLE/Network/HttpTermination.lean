import PicoBLE.Lib.LTS
import PicoBLE.Network.HttpStream

/-!
# When a call ends, and with what

Beside the call runs its progress: what its connection has been through, up to
the first terminal event and that event's code. The progress never looks at the
context. The context agrees with it at every step, so `state`, `result` and
`complete` are consistent and `http_get` returns the code of the first terminal
event, as long as four things stay away: a head that does not fit the buffer, a
2xx response that declares an empty body, a deadline that passes while the pcb is
open, and an address that comes after the deadline.
-/

namespace PicoBLE.Network

open CString

variable {κ σ : Type} (call : κ → List UInt8 → σ → Bool × σ)

/-! ## Progress -/

/-- `*out_total` when a call ends here. -/
def Progress.total : Progress → Nat
  | .reading s => Network.total s
  | .ended _ total => total
  | _ => 0

/-- What `start_connect` leads to. -/
def TcpOpen.progress (tcp : TcpOpen) : Progress :=
  if tcp.alloc then if tcp.connect = errOk then .connecting else .ended .errConnect 0
  else .ended .errNomem 0

/-- Where a call stands when it has been started. -/
def Start.progress (s : Start κ) : Progress :=
  if (parseUrl s.url s.ctx).2 then
    match s.dns with
    | .found _ => s.tcp.progress
    | .inProgress => .resolving
    | .failed => .refused .errDns
  else .refused .errParse

/-- What a callback means for a call that has got so far. Nothing comes after the
end. -/
def Progress.next (cb : Option κ) (user : σ) : Progress → Callback → Progress
  | .resolving, .dns none _ => .ended .errDns 0
  | .resolving, .dns (some _) tcp => tcp.progress
  | .connecting, .connected err write =>
    if err ≠ errOk then .ended .errConnect 0
    else if write ≠ errOk then .ended .errNomem 0
    else .reading []
  | .connecting, .error _ => .ended .errAborted 0
  | .reading s, .received chain err =>
    if err ≠ errOk then .ended .errAborted (Network.total s)
    else (receive call cb chain s user).1
  | .reading s, .closed => .ended (closeVerdict s) (Network.total s)
  | .reading s, .error _ => .ended .errAborted (Network.total s)
  | p, _ => p

/-- The deadline passes. -/
def Progress.deadline : Progress → Progress
  | .refused r => .refused r
  | .ended r total => .ended r total
  | p => .ended .errTimeout p.total

/-- The pcb is open and nothing has ended the call. -/
def Progress.Open : Progress → Prop
  | .connecting => True
  | .reading _ => True
  | _ => False

instance : (p : Progress) → Decidable p.Open
  | .connecting | .reading _ => isTrue trivial
  | .refused _ | .resolving | .ended _ _ => isFalse id

/-- A call with its progress. -/
structure Session (κ σ : Type) where
  req : Request κ σ
  chunkCb : Option κ
  progress : Progress
deriving DecidableEq

def Session.start (r : Nat) (s : Start κ) (user : σ) : Session κ σ :=
  ⟨Request.start r s user, s.chunkCb, s.progress⟩

def Session.step (r : Nat) (s : Session κ σ) (e : Event) : Option (Session κ σ) :=
  (s.req.step call r e).map fun req =>
    { s with
      req := req
      progress :=
        match e with
        | .callback c => s.progress.next call s.chunkCb s.req.http.user c
        | .check expired => if expired then s.progress.deadline else s.progress }

/-- The runs of call number `r`. -/
def sessionSystem (r : Nat) : LTS (Session κ σ) Event :=
  .ofFun (fun s => ∃ start user, s = Session.start r start user) (Session.step call r)

/-- The head that a chain continues fits the buffer, and is not that of a 2xx
response with an empty body declared. -/
def Progress.Keeps (chain : List (List UInt8)) : Progress → Prop
  | .reading s => ¬ TooLong (s ++ chain.flatten) ∧ ¬ DeclaresEmpty (s ++ chain.flatten)
  | _ => True

instance (chain : List (List UInt8)) : (p : Progress) → Decidable (p.Keeps chain)
  | .reading _ => inferInstanceAs (Decidable (_ ∧ _))
  | .refused _ | .resolving | .connecting | .ended _ _ => isTrue trivial

/-- What stays away. -/
def Usual (s : Session κ σ) : Event → Prop
  | .callback (.received chain err) => err = errOk → s.progress.Keeps chain
  | .callback (.dns (some _) tcp) => s.progress = .resolving ∨ tcp.alloc = false
  | .check true => ¬ s.progress.Open
  | _ => True

instance (s : Session κ σ) : (e : Event) → Decidable (Usual s e)
  | .callback (.received _ _) => inferInstanceAs (Decidable (_ → _))
  | .callback (.dns (some _) _) => inferInstanceAs (Decidable (_ ∨ _))
  | .check true => inferInstanceAs (Decidable (¬ _))
  | .callback (.dns none _) | .callback (.connected _ _) | .callback .closed
  | .callback (.error _) | .check false => isTrue trivial

/-! ## The context agrees -/

/-- A context before the response. -/
structure Ctx.Waiting (c : Ctx κ) (cb : Option κ) : Prop extends c.Blank where
  chunkCb : c.chunkCb = cb
  fits : (requestText c.path c.host).length < hostMax + pathMax + 128

/-- The call agrees with its progress. -/
def Tracks (cb : Option κ) (q : Request κ σ) : Progress → Prop
  | .refused r =>
    q.http.ctx.state = .init ∧ q.http.ctx.Blank ∧ q.conn = .idle ∧ q.returned = some (r, none)
  | .resolving =>
    q.http.ctx.state = .init ∧ q.http.ctx.Waiting cb ∧ q.http.ctx.pcb = none ∧
      q.conn = ⟨true, .absent⟩ ∧ q.returned = none
  | .connecting =>
    q.http.ctx.state = .connect ∧ q.http.ctx.Waiting cb ∧
      q.conn = ⟨false, .connecting⟩ ∧ q.returned = none
  | .reading s =>
    (∃ c : Ctx κ, c.Listening ∧ c.chunkCb = cb ∧ q.http.ctx = c.readTo s) ∧ Pending s ∧
      ¬ DeclaresEmpty s ∧ q.conn = ⟨false, .established⟩ ∧ q.returned = none
  | .ended r total =>
    q.http.ctx.Ended r total ∧ q.conn.pcb ≠ .connecting ∧
      (q.returned = none ∨ q.returned = some (r, some total))

/-! ### Starting -/

theorem requestText_length (path host : List UInt8) :
    (requestText path host).length = path.length + host.length + 89 := by
  have h1 : (ascii "GET ").length = 4 := by decide
  have h2 : (ascii " HTTP/1.1\r\n").length = 11 := by decide
  have h3 : (ascii "Host: ").length = 6 := by decide
  have h4 : (ascii "\r\n").length = 2 := by decide
  have h5 : (ascii "User-Agent: PicoBLE-Terminal/1\r\n").length = 32 := by decide
  have h6 : (ascii "Connection: close\r\n").length = 19 := by decide
  have h7 : (ascii "Accept: */*\r\n").length = 13 := by decide
  simp only [requestText, List.length_append, h1, h2, h3, h4, h5, h6, h7]
  omega

/-- `start_connect` on a context that waits. -/
theorem tracks_startConnect {cb : Option κ} {h : Http κ σ} (hw : h.ctx.Waiting cb) (r : Nat)
    (tcp : TcpOpen) :
    Tracks cb ⟨startConnect r tcp h, ⟨false, tcp.pcb⟩, none⟩ tcp.progress := by
  unfold startConnect TcpOpen.pcb TcpOpen.progress
  cases tcp.alloc with
  | false =>
    rw [if_neg Bool.false_ne_true, if_neg Bool.false_ne_true, if_neg Bool.false_ne_true]
    have hend := Ctx.markComplete_ended hw.complete .errNomem
    rw [hw.bodyReceived] at hend
    exact ⟨hend, by simp, .inl rfl⟩
  | true =>
    rw [if_pos rfl, if_pos rfl, if_pos rfl]
    by_cases hc : tcp.connect = errOk
    · rw [if_pos hc, if_pos hc, if_neg (not_not.mpr hc)]
      exact ⟨rfl, { hw with }, rfl, rfl⟩
    · rw [if_neg hc, if_neg hc, if_pos hc]
      have hopen : ({ h.ctx with pcb := some r, state := .connect } : Ctx κ).complete = false :=
        hw.complete
      have hend := Ctx.markComplete_ended hopen .errConnect
      rw [hw.bodyReceived] at hend
      exact ⟨hend, by simp, .inl rfl⟩

theorem tracks_start (r : Nat) (s : Start κ) (user : σ) :
    Tracks s.chunkCb (Request.start r s user) s.progress := by
  obtain ⟨host, port, path, hctx, hfits⟩ := parseUrl_frame s.url s.ctx
  rw [Request.start, Start.progress]
  rcases hp : parseUrl s.url s.ctx with ⟨ctx, _ | _⟩
  · have hg : httpGet r s user = (⟨ctx, 0, user⟩, .idle, some .errParse) := by rw [httpGet, hp]
    rw [hp] at hctx
    have hctx : ctx = { s.ctx with host := host, port := port, path := path } := hctx
    subst hctx
    rw [hg]
    exact ⟨rfl, ⟨rfl, rfl, rfl, rfl, rfl, rfl⟩, rfl, rfl⟩
  · rw [hp] at hctx hfits
    have hctx : ctx = { s.ctx with host := host, port := port, path := path } := hctx
    have hw : ctx.Waiting s.chunkCb := by
      subst hctx
      refine ⟨⟨rfl, rfl, rfl, rfl, rfl, rfl⟩, rfl, ?_⟩
      have hh : hostMax = 64 := rfl
      have hpa : pathMax = 128 := rfl
      have hlen := hfits rfl
      rw [requestText_length]
      dsimp only
      omega
    rw [if_pos rfl]
    cases hd : s.dns with
    | found addr =>
      have hg : httpGet r s user =
          (startConnect r s.tcp ⟨{ ctx with remoteIp := addr }, 0, user⟩, ⟨false, s.tcp.pcb⟩,
            none) := by
        rw [httpGet, hp]; dsimp only; rw [hd]
      have hw' : ({ ctx with remoteIp := addr } : Ctx κ).Waiting s.chunkCb :=
        ⟨⟨hw.hdrBuf, hw.contentLength, hw.bodyReceived, hw.statusOk, hw.result, hw.complete⟩,
          hw.chunkCb, hw.fits⟩
      rw [hg]
      exact tracks_startConnect hw' r s.tcp
    | inProgress =>
      have hg : httpGet r s user = (⟨ctx, 0, user⟩, ⟨true, .absent⟩, none) := by
        rw [httpGet, hp]; dsimp only; rw [hd]
      rw [hg]
      subst hctx
      exact ⟨rfl, hw, rfl, rfl, rfl⟩
    | failed =>
      have hg : httpGet r s user = (⟨ctx, 0, user⟩, .idle, some .errDns) := by
        rw [httpGet, hp]; dsimp only; rw [hd]
      rw [hg]
      subst hctx
      exact ⟨rfl, hw.toBlank, rfl, rfl⟩

/-! ### Callbacks -/

/-- A chain that decides nothing adds its bytes. -/
theorem receive_reading {cb : Option κ} {chain : List (List UInt8)} {s s' : List UInt8} {user : σ}
    (h : (receive call cb chain s user).1 = .reading s') : s' = s ++ chain.flatten := by
  induction chain generalizing s user with
  | nil =>
    rw [List.flatten_nil, List.append_nil]
    exact (Progress.reading.inj h).symm
  | cons q chain ih =>
    rw [receive] at h
    rcases hh : hand call cb (fresh s q) user with ⟨_ | _, user'⟩
    · rw [hh] at h
      exact absurd h (by simp)
    · rw [hh] at h
      cases hv : verdict (s ++ q) with
      | some r =>
        simp only [hv] at h
        exact absurd h (by simp)
      | none =>
        simp only [hv] at h
        rw [ih h, List.flatten_cons, List.append_assoc]

/-- The code that the close gives a context. -/
def Ctx.closeCode (c : Ctx κ) : HttpResult :=
  if c.state = .body ∧ (c.contentLength = 0 ∨ c.bodyReceived = c.contentLength) ∧ c.statusOk then
    .ok
  else if c.statusOk then .errAborted else .errHttpStatus

theorem recvClosed_eq (h : Http κ σ) :
    recvClosed h = { h with ctx := { h.ctx.markComplete h.ctx.closeCode with pcb := none } } := by
  rw [recvClosed, Ctx.closeCode]
  split <;> rfl

/-- The close decides what the bytes have not. -/
theorem closeCode_readTo {c : Ctx κ} (hc : c.Listening) {s : List UInt8} (hp : Pending s)
    (he : ¬ DeclaresEmpty s) : (c.readTo s).closeCode = closeVerdict s := by
  unfold Ctx.closeCode Ctx.readTo closeVerdict
  unfold Pending at hp
  unfold DeclaresEmpty at he
  cases hs : splitHead [] s with
  | none => rw [if_neg (by simp [hc.state]), if_neg (by simp [hc.statusOk])]
  | some r =>
    obtain ⟨hd, b⟩ := r
    simp only [hs] at hp he
    have hlt := parseContentLength_lt hd
    dsimp only
    by_cases hst : parseStatus hd = true
    · cases hd' : declared hd with
      | none =>
        have hz : parseContentLength hd = 0 := by rw [parseContentLength_eq, hd']; rfl
        rw [if_pos ⟨rfl, .inl hz, hst⟩, if_pos hst, if_neg (by simp)]
      | some n =>
        -- a declared length is not 0 and has not been reached
        have hz : parseContentLength hd = n := by rw [parseContentLength_eq, hd']; rfl
        have hpos : parseContentLength hd ≠ 0 := fun h0 => he ⟨hst, by rw [hd', ← hz, h0]⟩
        have hb := hp.resolve_left hpos
        have hshort : (upTo (parseContentLength hd) b).length % 2 ^ 32 ≠
            parseContentLength hd := by
          rw [(upTo_append (q := []) hp).1, Nat.mod_eq_of_lt (by omega)]
          omega
        rw [if_neg fun hh => hh.2.1.elim hpos hshort, if_pos hst, if_pos hst, if_pos (by simp)]
    · rw [if_neg fun hh => hst hh.2.2, if_neg hst, if_neg hst]

theorem recvClosed_ended {c : Ctx κ} (hc : c.Listening) {h : Http κ σ} {s : List UInt8}
    (hctx : h.ctx = c.readTo s) (hp : Pending s) (he : ¬ DeclaresEmpty s) :
    (recvClosed h).ctx.Ended (closeVerdict s) (total s) := by
  have hend := Ctx.markComplete_ended (Ctx.readTo_complete hc s) (closeVerdict s)
  rw [Ctx.readTo_total hc] at hend
  rw [recvClosed_eq, hctx, closeCode_readTo hc hp he]
  exact ⟨hend.complete, hend.result, hend.state, hend.bodyReceived⟩

/-- During the lookup only its answer comes. -/
theorem tracks_resolving {cb : Option κ} {q : Request κ σ} (h : Tracks cb q .resolving) (r : Nat)
    {c : Callback} {conn : Conn} (hn : q.conn.next c = some conn) :
    Tracks cb { q with http := c.run call r q.http, conn := conn }
      (Progress.next call cb q.http.user .resolving c) := by
  obtain ⟨hst, hw, hpcb, hconn, hret⟩ := h
  rw [hconn] at hn
  cases c with
  | dns addr tcp =>
    rw [Conn.next, if_pos rfl] at hn
    obtain rfl := Option.some.inj hn
    cases addr with
    | none =>
      have hend := Ctx.markComplete_ended hw.complete .errDns
      rw [hw.bodyReceived] at hend
      exact ⟨hend, by simp, .inl hret⟩
    | some addr =>
      have hw' : ({ q.http.ctx with remoteIp := addr } : Ctx κ).Waiting cb :=
        ⟨⟨hw.hdrBuf, hw.contentLength, hw.bodyReceived, hw.statusOk, hw.result, hw.complete⟩,
          hw.chunkCb, hw.fits⟩
      rw [hret]
      exact tracks_startConnect hw' r tcp
  | connected _ _ | received _ _ | closed | error _ => exact absurd hn (by simp [Conn.next])

/-- Then the connection opens, or fails. -/
theorem tracks_connecting {cb : Option κ} {q : Request κ σ} (h : Tracks cb q .connecting) (r : Nat)
    {c : Callback} {conn : Conn} (hn : q.conn.next c = some conn) :
    Tracks cb { q with http := c.run call r q.http, conn := conn }
      (Progress.next call cb q.http.user .connecting c) := by
  obtain ⟨hst, hw, hconn, hret⟩ := h
  rw [hconn] at hn
  cases c with
  | connected err write =>
    rw [Conn.next, if_pos rfl] at hn
    obtain rfl := Option.some.inj hn
    rw [Callback.run, tcpConnectedCb, Progress.next]
    by_cases herr : err = errOk
    · have hfits : ¬ hostMax + pathMax + 128 ≤
          (requestText q.http.ctx.path q.http.ctx.host).length := Nat.not_le_of_lt hw.fits
      rw [if_neg (not_not.mpr herr), if_neg (not_not.mpr herr), sendRequest, if_neg hfits]
      by_cases hwrite : write = errOk
      · rw [if_neg (not_not.mpr hwrite), if_neg (not_not.mpr hwrite)]
        have hlisten : ({ q.http.ctx with state := .headers } : Ctx κ).Listening :=
          ⟨⟨hw.hdrBuf, hw.contentLength, hw.bodyReceived, hw.statusOk, hw.result, hw.complete⟩,
            rfl⟩
        exact ⟨⟨_, hlisten, hw.chunkCb, (Ctx.readTo_nil hlisten).symm⟩, trivial, id, rfl, hret⟩
      · rw [if_pos hwrite, if_pos hwrite]
        have hopen : ({ q.http.ctx with state := .headers } : Ctx κ).complete = false :=
          hw.complete
        have hend := Ctx.markComplete_ended hopen .errNomem
        rw [hw.bodyReceived] at hend
        exact ⟨hend, by simp, .inl hret⟩
    · rw [if_pos herr, if_pos herr]
      have hend := Ctx.markComplete_ended hw.complete .errConnect
      rw [hw.bodyReceived] at hend
      exact ⟨hend, by simp, .inl hret⟩
  | error err =>
    rw [Conn.next, if_pos (.inl rfl)] at hn
    obtain rfl := Option.some.inj hn
    have hopen : ({ q.http.ctx with pcb := none } : Ctx κ).complete = false := hw.complete
    have hend := Ctx.markComplete_ended hopen .errAborted
    rw [hw.bodyReceived] at hend
    exact ⟨hend, by simp, .inl hret⟩
  | dns _ _ | received _ _ | closed => exact absurd hn (by simp [Conn.next])

/-- Then segments come, until the end. -/
theorem tracks_reading {cb : Option κ} {q : Request κ σ} {s : List UInt8}
    (h : Tracks cb q (.reading s)) (r : Nat) {c : Callback} {conn : Conn}
    (hn : q.conn.next c = some conn) (hu : Usual ⟨q, cb, .reading s⟩ (.callback c)) :
    Tracks cb { q with http := c.run call r q.http, conn := conn }
      (Progress.next call cb q.http.user (.reading s) c) := by
  obtain ⟨⟨ctx, hl, hcb, hctx⟩, hp, he, hconn, hret⟩ := h
  have hcomplete : q.http.ctx.complete = false := hctx ▸ Ctx.readTo_complete hl s
  have htotal : q.http.ctx.bodyReceived = total s := hctx ▸ Ctx.readTo_total hl s
  rw [hconn] at hn
  cases c with
  | received chain err =>
    rw [Conn.next, if_pos rfl] at hn
    obtain rfl := Option.some.inj hn
    rw [Callback.run, tcpRecvCb, Progress.next]
    by_cases herr : err = errOk
    · rw [if_neg (not_not.mpr herr), if_neg (not_not.mpr herr)]
      obtain ⟨hlong, hempty⟩ := hu herr
      have hfollows := (recvSegments_follows call hl chain hctx hp hlong hempty).1
      rw [hcb] at hfollows
      cases hr : (receive call cb chain s q.http.user).1 with
      | reading s' =>
        rw [hr] at hfollows
        have hs' := receive_reading call hr
        exact ⟨⟨ctx, hl, hcb, hfollows.1⟩, hfollows.2, hs' ▸ hempty, rfl, hret⟩
      | ended code t =>
        rw [hr] at hfollows
        exact ⟨hfollows, by simp, .inl hret⟩
      | refused _ | resolving | connecting => rw [hr] at hfollows; exact hfollows.elim
    · rw [if_pos herr, if_pos herr]
      have hend := Ctx.markComplete_ended hcomplete .errAborted
      rw [htotal] at hend
      exact ⟨hend, by simp, .inl hret⟩
  | closed =>
    rw [Conn.next, if_pos rfl] at hn
    obtain rfl := Option.some.inj hn
    exact ⟨recvClosed_ended hl hctx hp he, by simp, .inl hret⟩
  | error err =>
    rw [Conn.next, if_pos (.inr (.inl rfl))] at hn
    obtain rfl := Option.some.inj hn
    have hopen : ({ q.http.ctx with pcb := none } : Ctx κ).complete = false := hcomplete
    have hend := Ctx.markComplete_ended hopen .errAborted
    rw [htotal] at hend
    exact ⟨hend, by simp, .inl hret⟩
  | dns _ _ | connected _ _ => exact absurd hn (by simp [Conn.next])

/-- Behind the end nothing counts any more. -/
theorem tracks_ended {cb : Option κ} {q : Request κ σ} {code : HttpResult} {t : Nat}
    (h : Tracks cb q (.ended code t)) (r : Nat) {c : Callback} {conn : Conn}
    (hn : q.conn.next c = some conn) (hu : Usual ⟨q, cb, .ended code t⟩ (.callback c)) :
    Tracks cb { q with http := c.run call r q.http, conn := conn }
      (Progress.next call cb q.http.user (.ended code t) c) := by
  obtain ⟨hend, hpcb, hret⟩ := h
  obtain ⟨pcb, ip, st, hctx, -, hst⟩ := Callback.run_complete call hend.complete r c
  -- no connection is being opened, so only a late address could disturb the state
  have hquiet : c.Quiet ∧ conn.pcb ≠ .connecting := by
    cases c with
    | dns addr tcp =>
      rw [Conn.next] at hn
      split at hn
      · obtain rfl := Option.some.inj hn
        cases addr with
        | none => exact ⟨trivial, hpcb⟩
        | some addr =>
          rcases hu with hres | halloc
          · exact absurd hres (by simp)
          · exact ⟨halloc, by simp [TcpOpen.pcb, halloc]⟩
      · exact absurd hn (by simp)
    | connected err write =>
      rw [Conn.next, if_neg hpcb] at hn
      exact absurd hn (by simp)
    | received chain err =>
      rw [Conn.next] at hn
      split at hn
      · exact ⟨trivial, Option.some.inj hn ▸ hpcb⟩
      · exact absurd hn (by simp)
    | closed =>
      rw [Conn.next] at hn
      split at hn
      · exact ⟨trivial, by rw [← Option.some.inj hn]; simp⟩
      · exact absurd hn (by simp)
    | error err =>
      rw [Conn.next] at hn
      split at hn
      · exact ⟨trivial, by rw [← Option.some.inj hn]; simp⟩
      · exact absurd hn (by simp)
  have hnext : (Progress.ended code t).next call cb q.http.user c = .ended code t := by
    cases c <;> rfl
  rw [hnext]
  refine ⟨?_, hquiet.2, hret⟩
  dsimp only
  rw [hctx, hst hquiet.1]
  exact ⟨hend.complete, hend.result, hend.state, hend.bodyReceived⟩

/-- **A callback keeps call and progress together.** -/
theorem tracks_callback {cb : Option κ} {q : Request κ σ} {p : Progress} (h : Tracks cb q p)
    (r : Nat) {c : Callback} {conn : Conn} (hn : q.conn.next c = some conn)
    (hu : Usual ⟨q, cb, p⟩ (.callback c)) :
    Tracks cb { q with http := c.run call r q.http, conn := conn }
      (p.next call cb q.http.user c) := by
  cases p with
  | refused code =>
    obtain ⟨-, -, hconn, -⟩ := h
    rw [hconn] at hn
    cases c <;> exact absurd hn (by simp [Conn.next, Conn.idle])
  | resolving => exact tracks_resolving call h r hn
  | connecting => exact tracks_connecting call h r hn
  | reading s => exact tracks_reading call h r hn hu
  | ended code t => exact tracks_ended call h r hn hu

/-! ### The wait loop -/

/-- A call that has not ended has not completed. -/
theorem Tracks.complete_iff {cb : Option κ} {q : Request κ σ} {p : Progress} (h : Tracks cb q p) :
    q.http.ctx.complete = true ↔ ∃ r t, p = .ended r t := by
  have hno : q.http.ctx.complete = false → (∀ r t, p ≠ .ended r t) →
      (q.http.ctx.complete = true ↔ ∃ r t, p = .ended r t) := by
    intro hc hp
    rw [hc]
    exact ⟨fun hf => absurd hf Bool.false_ne_true, fun ⟨r, t, hpt⟩ => absurd hpt (hp r t)⟩
  cases p with
  | refused r => exact hno h.2.1.complete (by simp)
  | resolving => exact hno h.2.1.complete (by simp)
  | connecting => exact hno h.2.1.complete (by simp)
  | reading s =>
    obtain ⟨⟨c, hl, -, hctx⟩, -⟩ := h
    exact hno (hctx ▸ Ctx.readTo_complete hl s) (by simp)
  | ended r t => exact ⟨fun _ => ⟨r, t, rfl⟩, fun _ => h.1.complete⟩

/-- **A pass of the wait loop keeps call and progress together.** -/
theorem tracks_check {cb : Option κ} {q : Request κ σ} {p : Progress} (h : Tracks cb q p)
    {expired : Bool} (hu : Usual ⟨q, cb, p⟩ (.check expired)) :
    Tracks cb (q.check expired) (if expired then p.deadline else p) := by
  by_cases hret : q.returned.isSome = true
  · -- the call has returned
    rw [Request.check, if_pos hret]
    have hp : (if expired = true then p.deadline else p) = p := by
      cases p with
      | refused r => cases expired <;> rfl
      | ended r t => cases expired <;> rfl
      | resolving => rw [h.2.2.2.2] at hret; exact absurd hret (by simp)
      | connecting => rw [h.2.2.2] at hret; exact absurd hret (by simp)
      | reading s => rw [h.2.2.2.2] at hret; exact absurd hret (by simp)
    rw [hp]
    exact h
  · rw [Request.check, if_neg hret, waitLoop]
    by_cases hc : q.http.ctx.complete = true
    · obtain ⟨r, t, rfl⟩ := h.complete_iff.mp hc
      have hp : (if expired = true then (Progress.ended r t).deadline else .ended r t) =
          .ended r t := by cases expired <;> rfl
      have haborts : aborts expired q.http = none := by rw [aborts, if_neg (by simp [hc])]
      obtain ⟨hend, hpcb, -⟩ := h
      rw [if_pos hc, hp, haborts]
      exact ⟨hend, hpcb, .inr (by dsimp only; rw [hend.result, hend.bodyReceived])⟩
    · rw [if_neg hc]
      cases expired with
      | false => exact h
      | true =>
        rw [if_pos rfl, if_pos rfl]
        -- the deadline passes during the lookup
        cases p with
        | refused r => rw [h.2.2.2] at hret; exact absurd rfl hret
        | resolving =>
          obtain ⟨-, hw, hpcb, hconn, -⟩ := h
          have hend := Ctx.markComplete_ended hw.complete .errTimeout
          rw [hw.bodyReceived] at hend
          have haborts : aborts true q.http = none := by
            rw [aborts, hpcb]; split <;> rfl
          have hdead : onDeadline q.http = markComplete .errTimeout q.http := by
            rw [onDeadline, hpcb]; rfl
          rw [hdead, haborts]
          exact ⟨hend, by simp [hconn], .inr (by
            dsimp only [markComplete]; rw [hend.result, hend.bodyReceived]; rfl)⟩
        | connecting => exact absurd trivial hu
        | reading s => exact absurd trivial hu
        | ended r t => exact absurd h.1.complete hc

/-- **The context agrees with the progress of the call** in every run whose steps
are usual. -/
theorem session_tracks {r : Nat} {s : Session κ σ}
    (h : (sessionSystem call r).ReachableWhen Usual s) : Tracks s.chunkCb s.req s.progress := by
  refine h.inv (P := fun s => Tracks s.chunkCb s.req s.progress) ?_ ?_
  · rintro _ ⟨start, user, rfl⟩
    exact tracks_start r start user
  · intro s e s' hs hu hstep
    obtain ⟨req, hreq, rfl⟩ := Option.map_eq_some_iff.mp hstep
    cases e with
    | callback c =>
      obtain ⟨conn, hconn, rfl⟩ := Option.map_eq_some_iff.mp hreq
      exact tracks_callback call hs r hconn hu
    | check expired =>
      obtain rfl := Option.some.inj hreq
      exact tracks_check hs hu

/-! ## Consistency -/

/-- The termination state of a call is consistent. -/
structure Session.Consistent (s : Session κ σ) : Prop where
  /-- `S_DONE` or `S_ERROR` exactly when `complete`. -/
  finished : (s.req.http.ctx.state = .done ∨ s.req.http.ctx.state = .error) ↔
    s.req.http.ctx.complete = true
  /-- `HTTP_OK` exactly in `S_DONE`. -/
  succeeded : s.req.http.ctx.result = .ok ↔ s.req.http.ctx.state = .done
  /-- Complete exactly when a terminal event has come. -/
  ended : s.req.http.ctx.complete = true ↔ ∃ code total, s.progress = .ended code total
  /-- The result is the code of the first terminal event. -/
  code : ∀ code total, s.progress = .ended code total → s.req.http.ctx.result = code
  /-- It is also what the call has returned. -/
  returned : ∀ code total, s.req.returned = some (code, some total) →
    s.progress = .ended code total
  /-- A call that is refused before the wait loop starts nothing. -/
  refused : ∀ code, s.req.returned = some (code, none) → s.progress = .refused code
  /-- The wait loop stops at its next pass. -/
  stops : ∀ code total expired, s.progress = .ended code total → s.req.returned = none →
    (s.req.check expired).returned = some (code, some total)

/-- Before the end nothing has been decided. -/
theorem consistent_of_waiting {s : Session κ σ}
    (hst : s.req.http.ctx.state ≠ .done ∧ s.req.http.ctx.state ≠ .error)
    (hresult : s.req.http.ctx.result = .errInternal) (hc : s.req.http.ctx.complete = false)
    (hp : ∀ code total, s.progress ≠ .ended code total)
    (hret : s.req.returned = none ∨
      ∃ code, s.progress = .refused code ∧ s.req.returned = some (code, none)) :
    s.Consistent where
  finished := by rw [hc]; simp [hst.1, hst.2]
  succeeded := by rw [hresult]; simp [hst.1]
  ended := by rw [hc]; simp [hp]
  code code total h := absurd h (hp code total)
  returned code total h := by
    rcases hret with hn | ⟨code', -, hs⟩
    · rw [hn] at h; exact absurd h (by simp)
    · rw [hs] at h; exact absurd h (by simp)
  refused code h := by
    rcases hret with hn | ⟨code', hp', hs⟩
    · rw [hn] at h; exact absurd h (by simp)
    · rw [hs] at h
      rw [hp', (Prod.mk.inj (Option.some.inj h)).1]
  stops code total _ h := absurd h (hp code total)

theorem Tracks.consistent {cb : Option κ} {q : Request κ σ} {p : Progress} (h : Tracks cb q p) :
    (⟨q, cb, p⟩ : Session κ σ).Consistent := by
  cases p with
  | refused r =>
    obtain ⟨hst, hb, -, hret⟩ := h
    exact consistent_of_waiting (by simp [hst]) hb.result hb.complete (by simp)
      (.inr ⟨r, rfl, hret⟩)
  | resolving =>
    obtain ⟨hst, hw, -, -, hret⟩ := h
    exact consistent_of_waiting (by simp [hst]) hw.result hw.complete (by simp) (.inl hret)
  | connecting =>
    obtain ⟨hst, hw, -, hret⟩ := h
    exact consistent_of_waiting (by simp [hst]) hw.result hw.complete (by simp) (.inl hret)
  | reading bs =>
    obtain ⟨⟨c, hl, -, hctx⟩, -, -, -, hret⟩ := h
    have hst : (c.readTo bs).state ≠ .done ∧ (c.readTo bs).state ≠ .error := by
      unfold Ctx.readTo; split <;> simp [hl.state]
    have hresult : (c.readTo bs).result = .errInternal := by
      unfold Ctx.readTo; split <;> exact hl.result
    exact consistent_of_waiting (hctx ▸ hst) (hctx ▸ hresult)
      (hctx ▸ Ctx.readTo_complete hl bs) (by simp) (.inl hret)
  | ended r t =>
    obtain ⟨hend, hpcb, hret⟩ := h
    constructor
    · show (q.http.ctx.state = _ ∨ q.http.ctx.state = _) ↔ q.http.ctx.complete = _
      rw [hend.state, hend.complete]
      split <;> simp
    · show q.http.ctx.result = _ ↔ q.http.ctx.state = _
      rw [hend.state, hend.result]
      split <;> simp [*]
    · exact ⟨fun _ => ⟨r, t, rfl⟩, fun _ => hend.complete⟩
    · intro code total hp
      rw [← (Progress.ended.inj hp).1]
      exact hend.result
    · intro code total h
      rcases hret with hn | hs
      · rw [hn] at h; exact absurd h (by simp)
      · rw [hs] at h
        simp only [Option.some.injEq, Prod.mk.injEq] at h
        rw [h.1, h.2]
    · intro code h
      rcases hret with hn | hs
      · rw [hn] at h; exact absurd h (by simp)
      · rw [hs] at h; exact absurd h (by simp)
    · intro code total expired hp hn
      obtain ⟨rfl, rfl⟩ := Progress.ended.inj hp
      have hn : q.returned = none := hn
      rw [Request.check, hn, if_neg (by simp), waitLoop, if_pos hend.complete]
      dsimp only
      rw [hend.result, hend.bodyReceived]

/-- Nothing that happens after the first terminal event changes the result. -/
theorem Session.settled {r : Nat} {s s' : Session κ σ} {e : Event}
    (hs : s.step call r e = some s') (hc : s.req.http.ctx.complete = true) :
    s'.req.http.ctx.complete = true ∧ s'.req.http.ctx.result = s.req.http.ctx.result := by
  obtain ⟨req, hreq, rfl⟩ := Option.map_eq_some_iff.mp hs
  cases e with
  | callback c =>
    obtain ⟨conn, -, rfl⟩ := Option.map_eq_some_iff.mp hreq
    obtain ⟨pcb, ip, st, hctx, -, -⟩ := Callback.run_complete call hc r c
    dsimp only
    rw [hctx]
    exact ⟨hc, rfl⟩
  | check expired =>
    obtain rfl := Option.some.inj hreq
    dsimp only [Request.check]
    split
    · exact ⟨hc, rfl⟩
    · rw [waitLoop, if_pos hc]
      exact ⟨hc, rfl⟩

/-- **The termination state is consistent** in every run whose steps are usual:
`http_get` stops at the first terminal event and returns its code, and nothing
later changes the result. -/
theorem termination_consistent {r : Nat} {s : Session κ σ}
    (h : (sessionSystem call r).ReachableWhen Usual s) :
    s.Consistent ∧ ∀ e s', (sessionSystem call r).step s e s' →
      s.req.http.ctx.complete = true → s'.req.http.ctx.result = s.req.http.ctx.result :=
  ⟨(session_tracks call h).consistent, fun _ _ hs hc => (Session.settled call hs hc).2⟩

/-- A call with a name to look up. -/
def plainStart : Start Unit := ⟨some (ascii "http://h/"), some (), .inProgress, ⟨true, errOk⟩⟩

/-- A callback that accepts everything. -/
def acceptAll (_ : Unit) (_ : List UInt8) (user : Unit) : Bool × Unit := (true, user)

/-- A download that the server ends. -/
def plainDownload : List Event :=
  [.callback (.dns (some 1) ⟨true, errOk⟩), .check false, .callback (.connected errOk errOk),
    .callback (.received [ascii "HTTP/1.1 200 OK\r\n", ascii "\r\nhi"] errOk), .check false,
    .callback .closed, .check false]

theorem plainDownload_consistent :
    ∃ s, (sessionSystem acceptAll 0).ReachableWhen Usual s ∧
      s.req.returned = some (.ok, some 2) ∧ s.Consistent := by
  have hrun : (LTS.exec (Session.step acceptAll 0) Usual (Session.start 0 plainStart ())
      plainDownload).map (·.req.returned) = some (some (.ok, some 2)) := by decide +kernel
  obtain ⟨s, hexec, hret⟩ := Option.map_eq_some_iff.mp hrun
  have hreach : (sessionSystem acceptAll 0).ReachableWhen Usual s :=
    (LTS.runs_exec hexec).reachableWhen (.init ⟨plainStart, (), rfl⟩)
  exact ⟨s, hreach, hret, (termination_consistent acceptAll hreach).1⟩

/-- The deadline passes while the pcb is open: `tcp_abort` calls `tcp_err_cb`
first, and `http_get` returns `HTTP_ERR_ABORTED`. -/
theorem deadline_breaks :
    ∃ s, (sessionSystem acceptAll 0).Reachable s ∧ s.progress = .ended .errTimeout 0 ∧
      s.req.returned = some (.errAborted, some 0) ∧ ¬ s.Consistent := by
  have hrun : (LTS.exec (Session.step acceptAll 0) (fun _ _ => True)
      (Session.start 0 plainStart ())
      [.callback (.dns (some 1) ⟨true, errOk⟩), .check true]).map
        (fun s => (s.progress, s.req.returned)) =
      some (.ended .errTimeout 0, some (.errAborted, some 0)) := by decide +kernel
  obtain ⟨s, hexec, hs⟩ := Option.map_eq_some_iff.mp hrun
  obtain ⟨hp, hret⟩ := Prod.mk.inj hs
  refine ⟨s, (LTS.runs_exec hexec).reachableWhen (.init ⟨plainStart, (), rfl⟩), hp, hret, ?_⟩
  intro hc
  have hended := hc.returned _ _ hret
  rw [hp] at hended
  exact absurd hended (by decide)

end PicoBLE.Network
