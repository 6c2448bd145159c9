import PicoBLE.Network.HttpBody

/-!
# What the caller has taken when `http_get` succeeds

A callback may refuse a piece, and then `http_get` fails. If it keeps account of
the pieces it accepts, its account at the end of a successful call is of the body,
as far as it is wanted: nothing is left out, handed over twice, or handed over in
another order. This needs no condition on the run of the call, which has the
context to itself. A head that is too long, a deadline that passes, or an address
that comes too late can leave the context in a strange state, but none of them
leads to `HTTP_OK`. And where the server has sent a well-formed head, the body is
the one that this head announces.
-/

namespace PicoBLE.Network

open CString

variable {κ σ : Type} (call : κ → List UInt8 → σ → Bool × σ) (cb : κ) (P : List UInt8 → σ → Prop)

/-- The callback keeps account: what it accepts is added to what it has. -/
def KeepsAccount : Prop :=
  ∀ b user piece, P b user → piece ≠ [] → (call cb piece user).1 = true →
  P (b ++ piece) (call cb piece user).2

/-- A 2xx response of which all that was declared is there. -/
def Full (s : List UInt8) : Prop :=
  ∃ hd b, splitHead [] s = some (hd, b) ∧ parseStatus hd = true ∧ 0 < parseContentLength hd ∧
    parseContentLength hd ≤ b.length

/-- A 2xx response that ends with the connection. -/
def Unbounded (s : List UInt8) : Prop :=
  ∃ hd b, splitHead [] s = some (hd, b) ∧ parseStatus hd = true ∧ parseContentLength hd = 0

/-! ## A head that is too long -/

theorem feedHeaderBytes_overflow {c : Ctx κ} {data : List UInt8} (hs : c.state = .headers)
    (hroom : c.hdrBuf.length ≤ hdrMax)
    (hlong : match splitHead c.hdrBuf data with
      | none => hdrMax < (c.hdrBuf ++ data).length
      | some (hd, _) => hdrMax < hd.length) :
    (feedHeaderBytes c data).1.state = .error ∧ (feedHeaderBytes c data).1.result = .errParse ∧
      (feedHeaderBytes c data).1.complete = c.complete := by
  induction data generalizing c with
  | nil =>
    rw [splitHead, List.append_nil] at hlong
    exact absurd hroom (Nat.not_le_of_lt hlong)
  | cons b data ih =>
    rw [feedHeaderBytes, if_pos hs]
    by_cases hlt : c.hdrBuf.length < hdrMax
    · rw [if_pos hlt]
      have hroom' : (c.hdrBuf ++ [b]).length ≤ hdrMax := by
        rw [List.length_append, List.length_singleton]
        exact hlt
      rw [splitHead] at hlong
      split
      · next hblank =>
        rw [if_pos hblank] at hlong
        exact absurd hroom' (Nat.not_le_of_lt hlong)
      · next hblank =>
        rw [if_neg hblank] at hlong
        refine ih (c := { c with hdrBuf := c.hdrBuf ++ [b] }) hs hroom' ?_
        rwa [List.append_assoc, List.singleton_append]
    · rw [if_neg hlt]
      exact ⟨rfl, rfl, rfl⟩

/-- The segment that makes the head too long ends the loop, and completes nothing. -/
theorem recvSegment_tooLong {c : Ctx κ} (hc : c.Listening) {h : Http κ σ} {s q : List UInt8}
    (hctx : h.ctx = c.readTo s) (hl : ¬ TooLong s) (hlong : TooLong (s ++ q)) :
    ∃ h', recvSegment call q h = (h', false) ∧ h'.ctx.state = .error ∧ h'.ctx.result ≠ .ok ∧
      h'.ctx.complete = false := by
  have happ := splitHead_append [] s q
  unfold TooLong headLength at hl hlong
  cases hs : splitHead [] s with
  | some r =>
    -- the head has already come
    simp only [hs] at happ hl
    rw [happ] at hlong
    exact absurd hlong hl
  | none =>
    simp only [hs, List.nil_append] at happ hl
    have hread : h.ctx = { c with hdrBuf := s } := by rw [hctx, Ctx.readTo, hs]
    obtain ⟨hstate, hresult, hcomplete⟩ :=
      @feedHeaderBytes_overflow _ h.ctx q (by rw [hread]; exact hc.state)
      (by rw [hread]; exact Nat.le_of_not_lt hl) (by
        rw [hread]
        rw [happ] at hlong
        cases hq : splitHead s q <;> rw [hq] at hlong <;> exact hlong)
    refine ⟨{ h with ctx := (feedHeaderBytes h.ctx q).1 }, ?_, hstate, by rw [hresult]; simp, ?_⟩
    · rw [recvSegment, if_pos (by rw [hread]; exact hc.state), if_pos hstate]
    · rw [hcomplete, hread]
      exact hc.complete

/-- No segment is taken after that. -/
theorem recvSegments_error {h : Http κ σ} (hopen : h.ctx.complete = false)
    (hstate : h.ctx.state = .error) (chain : List (List UInt8)) :
    recvSegments call chain h = h := by
  induction chain with
  | nil => rfl
  | cons q chain ih =>
    have hseg : recvSegment call q h = (h, true) := by
      rw [recvSegment, if_neg (by simp [hstate]), recvBody, if_neg (by simp [hstate])]
    rw [recvSegments, hopen, if_neg Bool.false_ne_true, hseg]
    exact ih

/-! ## A chain -/

/-- The declared length is there. -/
theorem endOfBody_reached (c : Ctx κ) {s hd b : List UInt8} (hs : splitHead [] s = some (hd, b))
    (hpos : 0 < parseContentLength hd) (hlen : parseContentLength hd ≤ b.length) :
    (c.readTo s).endOfBody = (c.readTo s).markComplete (if parseStatus hd then .ok
      else .errHttpStatus) := by
  have hup : (upTo (parseContentLength hd) b).length % 2 ^ 32 = parseContentLength hd := by
    rw [upTo, if_neg (Nat.pos_iff_ne_zero.mp hpos), List.length_take, Nat.min_eq_left hlen,
      Nat.mod_eq_of_lt (parseContentLength_lt hd)]
  unfold Ctx.readTo
  rw [hs]
  exact if_pos ⟨hpos, hup⟩

/-- The bytes add up: the body is at its end, or more is expected. -/
theorem endOfBody_cases (c : Ctx κ) (s : List UInt8) :
    (Pending s ∧ (c.Listening → (c.readTo s).endOfBody = c.readTo s)) ∨
    (Full s ∧ (c.readTo s).endOfBody = (c.readTo s).markComplete .ok) ∨
    (c.readTo s).endOfBody = (c.readTo s).markComplete .errHttpStatus := by
  cases hs : splitHead [] s with
  | none =>
    have hp : Pending s := by unfold Pending; rw [hs]; trivial
    exact .inl ⟨hp, fun hc => endOfBody_pending hc hp⟩
  | some r =>
    obtain ⟨hd, b⟩ := r
    by_cases hfull : 0 < parseContentLength hd ∧ parseContentLength hd ≤ b.length
    · rw [endOfBody_reached c hs hfull.1 hfull.2]
      cases hst : parseStatus hd with
      | true => exact .inr (.inl ⟨⟨hd, b, hs, hst, hfull⟩, rfl⟩)
      | false => exact .inr (.inr rfl)
    · have hp : Pending s := by
        unfold Pending
        rw [hs]
        dsimp only
        omega
      exact .inl ⟨hp, fun hc => endOfBody_pending hc hp⟩

variable {call cb P}

/-- What a segment brings is accounted for, if it is accepted. -/
theorem KeepsAccount.hand (hkeep : KeepsAccount call cb P) {s q : List UInt8} {user user' : σ}
    (hP : P (wanted s) user) (hh : Network.hand call (some cb) (fresh s q) user = (true, user')) :
    P (wanted (s ++ q)) user' := by
  rw [← wanted_append]
  unfold Network.hand at hh
  dsimp only at hh
  split at hh
  · next hnil =>
    rw [hnil, List.append_nil, ← (Prod.mk.inj hh).2]
    exact hP
  · next hne =>
    have hacc := hkeep _ _ _ hP hne (congrArg Prod.fst hh)
    rwa [hh] at hacc

/-- How a chain can leave a response that was being read. -/
inductive Chained (c : Ctx κ) (cb : κ) (P : List UInt8 → σ → Prop) (got : List UInt8)
    (h : Http κ σ) : Prop where
  /-- More is expected. -/
  | reading (hctx : h.ctx = c.readTo got) (hp : Pending got) (hl : ¬ TooLong got)
      (hP : P (wanted got) h.user)
  /-- The head was too long. -/
  | stuck (hopen : h.ctx.complete = false) (hstate : h.ctx.state = .error)
      (hresult : h.ctx.result ≠ .ok)
  | failed (hdone : h.ctx.complete = true) (hresult : h.ctx.result ≠ .ok)
  | taken {s : List UInt8} (hdone : h.ctx.complete = true) (hs : s <+: got) (hfull : Full s)
      (htotal : h.ctx.bodyReceived = total s) (hP : P (wanted s) h.user)

theorem Ctx.markComplete_open {c : Ctx κ} (h : c.complete = false) (r : HttpResult) :
    (c.markComplete r).complete = true ∧ (c.markComplete r).result = r := by
  rw [Ctx.markComplete, h, if_neg Bool.false_ne_true]
  exact ⟨rfl, rfl⟩

theorem recvSegments_chained {c : Ctx κ} (hc : c.Listening) (hcb : c.chunkCb = some cb)
    (hkeep : KeepsAccount call cb P) (chain : List (List UInt8)) {h : Http κ σ} {got : List UInt8}
    (hctx : h.ctx = c.readTo got) (hp : Pending got) (hl : ¬ TooLong got)
    (hP : P (wanted got) h.user) :
    Chained c cb P (got ++ chain.flatten) (recvSegments call chain h) := by
  induction chain generalizing h got with
  | nil =>
    rw [List.flatten_nil, List.append_nil]
    exact .reading hctx hp hl hP
  | cons q chain ih =>
    have hopen : h.ctx.complete = false := hctx ▸ Ctx.readTo_complete hc got
    rw [recvSegments, hopen, if_neg Bool.false_ne_true, List.flatten_cons, ← List.append_assoc]
    by_cases hlong : TooLong (got ++ q)
    · obtain ⟨h', hseg, hstate, hresult, hstill⟩ := recvSegment_tooLong call hc hctx hl hlong
      rw [hseg]
      exact .stuck hstill hstate hresult
    · rw [recvSegment_readTo call hc hctx hp hlong, hcb]
      have hstill := Ctx.readTo_complete hc (got ++ q)
      rcases hh : hand call (some cb) (fresh got q) h.user with ⟨_ | _, user⟩
      · -- refused
        have hfail := @Ctx.markComplete_open _ { c.readTo (got ++ q) with
          bodyReceived := (wanted got).length % 2 ^ 32 } hstill .errAborted
        exact .failed hfail.1 (by dsimp only [markComplete]; rw [hfail.2]; simp)
      · have hP' := hkeep.hand hP hh
        dsimp only
        rcases endOfBody_cases c (got ++ q) with ⟨hp', hend⟩ | ⟨hfull, hend⟩ | hend
        · rw [hend hc]
          exact ih rfl hp' hlong hP'
        · have hended := Ctx.markComplete_ended hstill .ok
          rw [Ctx.readTo_total hc] at hended
          rw [hend, recvSegments_complete call hended.complete]
          exact .taken hended.complete (List.prefix_append _ _) hfull hended.bodyReceived hP'
        · have hended := Ctx.markComplete_open hstill .errHttpStatus
          rw [hend, recvSegments_complete call hended.1]
          exact .failed hended.1 (by rw [hended.2]; simp)

/-! ## A call -/

/-- The bytes of the response that an event brings. -/
def Event.bytes : Event → List UInt8
  | .callback (.received chain err) => if err = errOk then chain.flatten else []
  | _ => []

/-- The peer has closed, or the connection is gone. -/
def Conn.Over (conn : Conn) : Prop :=
  conn.lookup = false ∧ (conn.pcb = .closing ∨ conn.pcb = .freed)

/-- What made a response complete. -/
def Settled (got s : List UInt8) (conn : Conn) : Prop := Full s ∨ Unbounded s ∧ s = got ∧ conn.Over

/-- Where a call stands that has received `got`. -/
inductive Taking (cb : κ) (P : List UInt8 → σ → Prop) (got : List UInt8) (q : Request κ σ) :
    Prop where
  /-- It never got to the wait loop. -/
  | refused (hidle : q.conn = .idle) (hret : ∃ code, q.returned = some (code, none) ∧ code ≠ .ok)
  | waiting (hb : q.http.ctx.Blank) (hcb : q.http.ctx.chunkCb = some cb)
      (hconn : q.conn = ⟨true, .absent⟩ ∨ q.conn = ⟨false, .connecting⟩) (hret : q.returned = none)
      (hgot : got = []) (hP : P [] q.http.user)
  | reading {c : Ctx κ} (hc : c.Listening) (hcb : c.chunkCb = some cb)
      (hctx : q.http.ctx = c.readTo got)
      (hp : Pending got) (hl : ¬ TooLong got) (hconn : q.conn = ⟨false, .established⟩)
      (hret : q.returned = none) (hP : P (wanted got) q.http.user)
  | stuck (hopen : q.http.ctx.complete = false) (hstate : q.http.ctx.state = .error)
      (hconn : q.conn = ⟨false, .established⟩) (hret : q.returned = none)
  | failed (hdone : q.http.ctx.complete = true) (hresult : q.http.ctx.result ≠ .ok)
      (hret : ∀ out, q.returned ≠ some (.ok, out))
  | taken {s : List UInt8} (hdone : q.http.ctx.complete = true) (hs : s <+: got)
      (hend : Settled got s q.conn) (htotal : q.http.ctx.bodyReceived = total s)
        (hP : P (wanted s) q.http.user)
      (hret : ∀ code out, q.returned = some (code, out) → out = some (total s))

/-- The end that is not a success. -/
theorem failed_of_markComplete {got : List UInt8} {q : Request κ σ} {c : Ctx κ} {pcb : Option Nat}
    {r : HttpResult} (hopen : c.complete = false) (hr : r ≠ .ok)
    (hctx : q.http.ctx = { c.markComplete r with pcb := pcb }) (hret : q.returned = none) :
    Taking cb P got q := by
  obtain ⟨hdone, hresult⟩ := Ctx.markComplete_open hopen r
  refine .failed (by rw [hctx]; exact hdone) ?_ (by rw [hret]; simp)
  rw [hctx]
  dsimp only
  rwa [hresult]

theorem Taking.startConnect {h : Http κ σ} (hb : h.ctx.Blank) (hcb : h.ctx.chunkCb = some cb)
    (hP : P [] h.user) (r : Nat) (tcp : TcpOpen) :
    Taking cb P [] ⟨Network.startConnect r tcp h, ⟨false, tcp.pcb⟩, none⟩ := by
  unfold Network.startConnect TcpOpen.pcb
  cases tcp.alloc with
  | false => exact failed_of_markComplete hb.complete (r := .errNomem) (by simp) rfl rfl
  | true =>
    rw [if_pos rfl, if_pos rfl]
    by_cases hok : tcp.connect = errOk
    · rw [if_pos hok, if_neg (not_not_intro hok)]
      exact .waiting { hb with } hcb (.inr rfl) rfl rfl hP
    · rw [if_neg hok, if_pos hok]
      have hopen : ({ h.ctx with pcb := some r, state := .connect } : Ctx κ).complete = false :=
        hb.complete
      exact failed_of_markComplete hopen (r := .errConnect) (by simp) rfl rfl

theorem Taking.start (r : Nat) {s : Start κ} (hcb : s.chunkCb = some cb) {user : σ}
    (hP : P [] user) :
    Taking cb P [] (Request.start r s user) := by
  obtain ⟨host, port, path, hctx, -⟩ := parseUrl_frame s.url s.ctx
  unfold Request.start httpGet
  rcases hp : parseUrl s.url s.ctx with ⟨ctx, _ | _⟩
  · exact .refused rfl ⟨.errParse, rfl, by simp⟩
  · rw [hp] at hctx
    obtain rfl : ctx = { s.ctx with host := host, port := port, path := path } := hctx
    dsimp only
    cases s.dns with
    | failed => exact .refused rfl ⟨.errDns, rfl, by simp⟩
    | inProgress => exact .waiting ⟨rfl, rfl, rfl, rfl, rfl, rfl⟩ hcb (.inl rfl) rfl rfl hP
    | found addr => exact Taking.startConnect ⟨rfl, rfl, rfl, rfl, rfl, rfl⟩ hcb hP r s.tcp

/-! ### Events -/

variable {got : List UInt8} {q : Request κ σ} {conn : Conn}

/-- Nothing more comes over a connection that is gone. -/
theorem Conn.Over.next {c : Callback} (h : conn.Over) {conn' : Conn}
    (hn : conn.next c = some conn') :
    conn'.Over ∧ (Event.callback c).bytes = [] := by
  obtain ⟨hlookup, hpcb⟩ := h
  unfold Conn.next at hn
  cases c with
  | error err =>
    dsimp only at hn
    split at hn
    · obtain rfl := Option.some.inj hn
      exact ⟨⟨hlookup, .inr rfl⟩, rfl⟩
    · exact absurd hn (by simp)
  | dns addr tcp => simp [hlookup] at hn
  | connected err write => rcases hpcb with hpcb | hpcb <;> simp [hpcb] at hn
  | received chain err => rcases hpcb with hpcb | hpcb <;> simp [hpcb] at hn
  | closed => rcases hpcb with hpcb | hpcb <;> simp [hpcb] at hn

/-- A callback to a call that has ended. -/
theorem Taking.late (h : Taking cb P got q) (hdone : q.http.ctx.complete = true)
    (r : Nat) {c : Callback} (hn : q.conn.next c = some conn) :
    Taking cb P (got ++ (Event.callback c).bytes)
      { q with http := c.run call r q.http, conn := conn } := by
  obtain ⟨pcb, ip, st, hctx, huser, -⟩ := Callback.run_complete call hdone r c
  have hdone' : (c.run call r q.http).ctx.complete = true := by rw [hctx]; exact hdone
  cases h with
  | refused hidle hret =>
    rw [hidle] at hn
    cases c <;> simp [Conn.idle, Conn.next] at hn
  | waiting hb => exact absurd (hb.complete.symm.trans hdone) (by simp)
  | reading hc _ hread =>
    rw [hread, Ctx.readTo_complete hc] at hdone
    exact absurd hdone (by simp)
  | stuck hopen => exact absurd (hopen.symm.trans hdone) (by simp)
  | failed _ hresult hret => exact .failed hdone' (by rw [hctx]; exact hresult) hret
  | taken _ hs hend htotal hP hret =>
    refine .taken hdone' (hs.trans (List.prefix_append _ _)) ?_ (by rw [hctx]; exact htotal)
      (by rw [huser]; exact hP) hret
    rcases hend with hfull | ⟨hun, rfl, hover⟩
    · exact .inl hfull
    · obtain ⟨hover', hnone⟩ := hover.next hn
      exact .inr ⟨hun, by rw [hnone, List.append_nil], hover'⟩

/-- Before the response: the answer of the lookup, the connection, or an error. -/
theorem Taking.beforehand (hb : q.http.ctx.Blank) (hcb : q.http.ctx.chunkCb = some cb)
    (hconn : q.conn = ⟨true, .absent⟩ ∨ q.conn = ⟨false, .connecting⟩) (hret : q.returned = none)
    (hP : P [] q.http.user) (r : Nat) {c : Callback} (hn : q.conn.next c = some conn) :
    Taking cb P (Event.callback c).bytes { q with http := c.run call r q.http, conn := conn } := by
  cases c with
  | dns addr tcp =>
    rcases hconn with hconn | hconn <;> rw [hconn] at hn
    · rw [Conn.next, if_pos rfl] at hn
      obtain rfl := Option.some.inj hn
      cases addr with
      | none => exact failed_of_markComplete hb.complete (r := .errDns) (by simp) rfl hret
      | some addr =>
        rw [hret]
        have hb' : ({ q.http.ctx with remoteIp := addr } : Ctx κ).Blank :=
          ⟨hb.hdrBuf, hb.contentLength, hb.bodyReceived, hb.statusOk, hb.result, hb.complete⟩
        exact Taking.startConnect (h := { q.http with ctx := { q.http.ctx with remoteIp := addr } })
          hb' hcb hP r tcp
    · exact absurd hn (by simp [Conn.next])
  | connected err write =>
    rcases hconn with hconn | hconn <;> rw [hconn] at hn
    · exact absurd hn (by simp [Conn.next])
    · rw [Conn.next, if_pos rfl] at hn
      obtain rfl := Option.some.inj hn
      rw [Callback.run]
      unfold tcpConnectedCb sendRequest
      split
      · exact failed_of_markComplete hb.complete (r := .errConnect) (by simp) rfl hret
      · split
        · exact failed_of_markComplete (c := { q.http.ctx with state := .headers }) hb.complete
            (r := .errInternal)
            (by simp) rfl hret
        · split
          · exact failed_of_markComplete (c := { q.http.ctx with state := .headers }) hb.complete
              (r := .errNomem)
              (by simp) rfl hret
          · have hlisten : ({ q.http.ctx with state := .headers } : Ctx κ).Listening :=
              { hb with state := rfl }
            exact .reading hlisten hcb (Ctx.readTo_nil hlisten).symm trivial
              (Nat.not_lt_zero _) rfl hret hP
  | error err =>
    exact failed_of_markComplete (c := { q.http.ctx with pcb := none }) hb.complete
      (r := .errAborted) (by simp) rfl
      hret
  | received chain err =>
    rcases hconn with hconn | hconn <;> rw [hconn] at hn <;> simp [Conn.next] at hn
  | closed => rcases hconn with hconn | hconn <;> rw [hconn] at hn <;> simp [Conn.next] at hn

/-- The close is a success only for a response that ends with the connection. -/
theorem closeCode_ok {c : Ctx κ} (hc : c.Listening) {s : List UInt8} (hp : Pending s)
    (h : (c.readTo s).closeCode = .ok) : Unbounded s := by
  unfold Ctx.closeCode Ctx.readTo at h
  unfold Pending at hp
  cases hs : splitHead [] s with
  | none =>
    simp only [hs, hc.state] at h
    split at h
    · next hbody => exact absurd hbody.1 (by simp)
    · split at h <;> exact absurd h (by simp)
  | some r =>
    obtain ⟨hd, b⟩ := r
    simp only [hs] at hp h
    have hlt := parseContentLength_lt hd
    split at h
    · next hall =>
      obtain ⟨-, hlen, hst⟩ := hall
      refine ⟨hd, b, hs, hst, hlen.elim id fun heq => ?_⟩
      -- a declared length that was reached would have ended the call
      rw [(upTo_append (q := []) hp).1] at heq
      rcases hp with hzero | hshort
      · exact hzero
      · rw [Nat.mod_eq_of_lt (by omega)] at heq
        omega
    · split at h <;> exact absurd h (by simp)

/-- In the middle of the response. -/
theorem Taking.during (hkeep : KeepsAccount call cb P) {c : Ctx κ} (hc : c.Listening)
    (hcb : c.chunkCb = some cb) (hctx : q.http.ctx = c.readTo got) (hp : Pending got)
    (hl : ¬ TooLong got) (hconn : q.conn = ⟨false, .established⟩) (hret : q.returned = none)
    (hP : P (wanted got) q.http.user) (r : Nat) {k : Callback} (hn : q.conn.next k = some conn) :
    Taking cb P (got ++ (Event.callback k).bytes)
      { q with http := k.run call r q.http, conn := conn } := by
  have hopen : q.http.ctx.complete = false := hctx ▸ Ctx.readTo_complete hc got
  rw [hconn] at hn
  cases k with
  | dns addr tcp => exact absurd hn (by simp [Conn.next])
  | connected err write => exact absurd hn (by simp [Conn.next])
  | received chain err =>
    rw [Conn.next, if_pos rfl] at hn
    obtain rfl := Option.some.inj hn
    rw [Callback.run, tcpRecvCb, Event.bytes]
    by_cases herr : err = errOk
    · rw [if_neg (not_not_intro herr), if_pos herr]
      cases recvSegments_chained hc hcb hkeep chain hctx hp hl hP with
      | reading hctx' hp' hl' hP' => exact .reading hc hcb hctx' hp' hl' rfl hret hP'
      | stuck hopen' hstate => exact .stuck hopen' hstate rfl hret
      | failed hdone hresult => exact .failed hdone hresult (by rw [hret]; simp)
      | taken hdone hs hfull htotal hP' =>
        exact .taken hdone hs (.inl hfull) htotal hP' (by rw [hret]; simp)
    · rw [if_pos herr]
      exact failed_of_markComplete hopen (r := .errAborted) (by simp) rfl hret
  | closed =>
    rw [Conn.next, if_pos rfl] at hn
    obtain rfl := Option.some.inj hn
    have hnone : (Event.callback .closed).bytes = [] := rfl
    rw [Callback.run, tcpRecvCb, hnone, List.append_nil, recvClosed_eq]
    by_cases hok : q.http.ctx.closeCode = .ok
    · have hun : Unbounded got := closeCode_ok hc hp (by rw [← hctx]; exact hok)
      have hended := Ctx.markComplete_ended hopen .ok
      rw [hctx, Ctx.readTo_total hc] at hended
      rw [hok, hctx]
      exact .taken hended.complete List.prefix_rfl (.inr ⟨hun, rfl, rfl, .inl rfl⟩)
        hended.bodyReceived hP
        (by rw [hret]; simp)
    · exact failed_of_markComplete hopen hok rfl hret
  | error err =>
    exact failed_of_markComplete (c := { q.http.ctx with pcb := none }) hopen (r := .errAborted)
      (by simp) rfl hret

/-- After a head that was too long. -/
theorem Taking.jammed (hopen : q.http.ctx.complete = false) (hstate : q.http.ctx.state = .error)
    (hconn : q.conn = ⟨false, .established⟩) (hret : q.returned = none) (r : Nat) {k : Callback}
    (hn : q.conn.next k = some conn) :
    Taking cb P got { q with http := k.run call r q.http, conn := conn } := by
  rw [hconn] at hn
  cases k with
  | dns addr tcp => exact absurd hn (by simp [Conn.next])
  | connected err write => exact absurd hn (by simp [Conn.next])
  | received chain err =>
    rw [Conn.next, if_pos rfl] at hn
    obtain rfl := Option.some.inj hn
    rw [Callback.run, tcpRecvCb]
    by_cases herr : err = errOk
    · rw [if_neg (not_not_intro herr), recvSegments_error call hopen hstate]
      exact .stuck hopen hstate rfl hret
    · rw [if_pos herr]
      exact failed_of_markComplete hopen (r := .errAborted) (by simp) rfl hret
  | closed =>
    rw [Callback.run, tcpRecvCb, recvClosed_eq]
    refine failed_of_markComplete hopen ?_ rfl hret
    rw [Ctx.closeCode, if_neg fun hall => by simp [hstate] at hall]
    split <;> simp
  | error err =>
    exact failed_of_markComplete (c := { q.http.ctx with pcb := none }) hopen (r := .errAborted)
      (by simp) rfl hret

theorem onDeadline_failed {h : Http κ σ} (hopen : h.ctx.complete = false) :
    (onDeadline h).ctx.complete = true ∧ (onDeadline h).ctx.result ≠ .ok := by
  rw [onDeadline]
  split
  · -- `tcp_abort` has called the error callback, and that decides
    have haborted := @Ctx.markComplete_open _ { h.ctx with pcb := none } hopen .errAborted
    dsimp only
    rw [markComplete_complete haborted.1]
    refine ⟨haborted.1, ?_⟩
    dsimp only [tcpErrCb, markComplete]
    rw [haborted.2]
    simp
  · have htimeout := Ctx.markComplete_open hopen .errTimeout
    exact ⟨htimeout.1, by dsimp only [markComplete]; rw [htimeout.2]; simp⟩

/-- A pass of the wait loop in an open call. -/
theorem Request.check_open (hopen : q.http.ctx.complete = false) (hret : q.returned = none)
    (expired : Bool) :
    q.check expired = q ∨
      (q.check expired).http.ctx.complete = true ∧ (q.check expired).http.ctx.result ≠ .ok ∧
        (q.check expired).returned =
          some ((q.check expired).http.ctx.result,
            some (q.check expired).http.ctx.bodyReceived) := by
  rw [Request.check, hret, waitLoop, hopen]
  cases expired with
  | false =>
    left
    simp only [Option.isSome_none, Bool.false_eq_true, if_false]
    rw [← hret]
  | true =>
    obtain ⟨hdone, hresult⟩ := onDeadline_failed hopen
    exact .inr ⟨hdone, hresult, rfl⟩

/-- **A pass of the wait loop.** -/
theorem Taking.check (h : Taking cb P got q) (expired : Bool) :
    Taking cb P got (q.check expired) := by
  have hopened : q.http.ctx.complete = false → q.returned = none →
      Taking cb P got (q.check expired) := by
    intro hopen hret
    rcases Request.check_open hopen hret expired with hsame | ⟨hdone, hresult, hret'⟩
    · rw [hsame]
      exact h
    · refine .failed hdone hresult fun out hok => hresult ?_
      exact congrArg Prod.fst (Option.some.inj (hret'.symm.trans hok))
  have hended : q.http.ctx.complete = true → (q.check expired).http = q.http ∧
      (q.check expired).conn = q.conn ∧
      (q.returned.isSome = true ∧ (q.check expired).returned = q.returned ∨
        (q.check expired).returned = some (q.http.ctx.result, some q.http.ctx.bodyReceived)) := by
    intro hdone
    rw [Request.check]
    split
    · next hret => exact ⟨rfl, rfl, .inl ⟨hret, rfl⟩⟩
    · have hnone : (aborts expired q.http).isSome = false := by rw [aborts, hdone]; simp
      rw [waitLoop, if_pos hdone]
      dsimp only
      rw [hnone]
      exact ⟨rfl, rfl, .inr rfl⟩
  cases h with
  | refused hidle hret =>
    obtain ⟨code, hret, hcode⟩ := hret
    rw [Request.check, if_pos (by rw [hret]; rfl)]
    exact .refused hidle ⟨code, hret, hcode⟩
  | waiting hb _ _ hret => exact hopened hb.complete hret
  | reading hc _ hctx _ _ _ hret => exact hopened (hctx ▸ Ctx.readTo_complete hc got) hret
  | stuck hopen _ _ hret => exact hopened hopen hret
  | failed hdone hresult hret =>
    obtain ⟨hhttp, -, hreturned⟩ := hended hdone
    refine .failed (hhttp ▸ hdone) (hhttp ▸ hresult) fun out hok => ?_
    rcases hreturned with ⟨-, hsame⟩ | hnew
    · exact hret out (hsame.symm.trans hok)
    · exact hresult (congrArg Prod.fst (Option.some.inj (hnew.symm.trans hok)))
  | taken hdone hs hend htotal hP hret =>
    obtain ⟨hhttp, hconn, hreturned⟩ := hended hdone
    refine .taken (hhttp ▸ hdone) hs (hconn ▸ hend) (hhttp ▸ htotal) (hhttp ▸ hP)
      fun code out hok => ?_
    rcases hreturned with ⟨-, hsame⟩ | hnew
    · exact hret code out (hsame.symm.trans hok)
    · rw [← htotal]
      exact (congrArg Prod.snd (Option.some.inj (hnew.symm.trans hok))).symm

/-- **One event**, whatever it is. -/
theorem Taking.step (hkeep : KeepsAccount call cb P) (h : Taking cb P got q) (r : Nat) {e : Event}
    {q' : Request κ σ} (hstep : q.step call r e = some q') : Taking cb P (got ++ e.bytes) q' := by
  cases e with
  | check expired =>
    obtain rfl := Option.some.inj hstep
    rw [Event.bytes, List.append_nil]
    · exact h.check expired
    · simp
  | callback k =>
    obtain ⟨conn, hn, rfl⟩ := Option.map_eq_some_iff.mp hstep
    cases h with
    | refused hidle => rw [hidle] at hn; cases k <;> simp [Conn.idle, Conn.next] at hn
    | waiting hb hcb hconn hret hgot hP =>
      rw [hgot, List.nil_append]
      exact Taking.beforehand hb hcb hconn hret hP r hn
    | reading hc hcb hctx hp hl hconn hret hP =>
      exact Taking.during hkeep hc hcb hctx hp hl hconn hret hP r hn
    | stuck hopen hstate hconn hret => exact Taking.jammed hopen hstate hconn hret r hn
    | failed hdone hresult hret => exact Taking.late (.failed hdone hresult hret) hdone r hn
    | taken hdone hs hend htotal hP hret =>
      exact Taking.late (.taken hdone hs hend htotal hP hret) hdone r hn

/-- **A run**, whatever happens in it. -/
theorem Taking.run (hkeep : KeepsAccount call cb P) (h : Taking cb P got q) (r : Nat)
    {init : Request κ σ → Prop} {es : List Event} {q' : Request κ σ}
    (hrun : (LTS.ofFun init (Request.step call r)).Runs (fun _ _ => True) q es q') :
    Taking cb P (got ++ es.flatMap Event.bytes) q' := by
  induction hrun generalizing got with
  | nil => rwa [List.flatMap_nil, List.append_nil]
  | cons _ hstep _ ih =>
    rw [List.flatMap_cons, ← List.append_assoc]
    exact ih (h.step hkeep r hstep)

/-- **A success takes the body exactly.** -/
theorem taken_of_ok (hkeep : KeepsAccount call cb P) {r : Nat} {s : Start κ}
    (hcb : s.chunkCb = some cb) {user : σ} (hP : P [] user) {init : Request κ σ → Prop}
    {es : List Event} (hrun : (LTS.ofFun init (Request.step call r)).Runs (fun _ _ => True)
      (Request.start r s user) es q)
    {out : Option Nat} (hok : q.returned = some (.ok, out)) :
    ∃ resp, resp <+: es.flatMap Event.bytes ∧
    (Full resp ∨ Unbounded resp ∧ resp = es.flatMap Event.bytes) ∧
      out = some (total resp) ∧ P (wanted resp) q.http.user := by
  have htaking := (Taking.start (P := P) r hcb hP).run hkeep r hrun
  rw [List.nil_append] at htaking
  cases htaking with
  | refused _ hret =>
    obtain ⟨code, hret, hcode⟩ := hret
    exact absurd (congrArg Prod.fst (Option.some.inj (hret.symm.trans hok))) hcode
  | waiting _ _ _ hret => exact absurd (hret.symm.trans hok) (by simp)
  | reading _ _ _ _ _ _ hret => exact absurd (hret.symm.trans hok) (by simp)
  | stuck _ _ _ hret => exact absurd (hret.symm.trans hok) (by simp)
  | failed _ _ hret => exact absurd hok (hret out)
  | @taken resp _ hs hend _ hP' hret =>
    exact ⟨resp, hs, hend.imp_right fun h => ⟨h.1, h.2.1⟩, hret _ _ hok, hP'⟩

/-- Such a response, behind a well-formed head, is what this head announces. -/
theorem response_whole {hd : ResponseHead} {b resp : List UInt8} (hpre : resp <+: hd.bytes ++ b)
    (hend : Full resp ∨ Unbounded resp ∧ resp = hd.bytes ++ b) :
    hd.Success ∧ hd.Whole b ∧ wanted resp = hd.body b := by
  obtain ⟨rest, hrest⟩ := hpre
  have hsplit : ∀ {head body : List UInt8}, splitHead [] resp = some (head, body) →
      head = hd.bytes ∧ body ++ rest = b := by
    intro head body hs
    have happ := splitHead_append [] resp rest
    rw [hrest, splitHead_bytes] at happ
    simp only [hs, Option.some.injEq, Prod.mk.injEq] at happ
    exact ⟨happ.1.symm, happ.2.symm⟩
  have hlength := parseContentLength_eq hd.bytes
  rw [hd.declared_bytes] at hlength
  rcases hend with ⟨head, body, hs, hst, hpos, hlen⟩ | ⟨⟨head, body, hs, hst, hnone⟩, hall⟩
  · obtain ⟨rfl, rfl⟩ := hsplit hs
    rw [hd.parseStatus_bytes, decide_eq_true_eq] at hst
    rw [hlength] at hpos hlen
    cases hn : hd.length with
    | none => rw [hn] at hpos; exact absurd hpos (by simp)
    | some n =>
      rw [hn, Option.getD_some] at hlength hpos hlen
      refine ⟨hst, fun m hm => ?_, ?_⟩
      · obtain rfl := Option.some.inj (hn.symm.trans hm)
        rw [List.length_append]
        omega
      · rw [wanted, hs, ResponseHead.body, hn]
        dsimp only
        rw [hlength, upTo, if_neg (by omega), List.take_append_of_le_length hlen]
  · obtain ⟨rfl, rfl⟩ := hsplit hs
    rw [hd.parseStatus_bytes, decide_eq_true_eq] at hst
    cases hn : hd.length with
    | none =>
      refine ⟨hst, fun m hm => absurd (hn.symm.trans hm) (by simp), ?_⟩
      rw [hall, wanted_bytes]
    | some n =>
      -- a length that is declared is not 0
      rw [hlength, hn] at hnone
      exact absurd hnone (Nat.pos_iff_ne_zero.mp (hd.length_pos hn))

/-- **A success behind a well-formed head**: the status is 2xx, all of the body has come, and the
account is of the body. -/
theorem taken_of_head (hkeep : KeepsAccount call cb P) {r : Nat} {s : Start κ}
    (hcb : s.chunkCb = some cb) {user : σ} (hP : P [] user) {init : Request κ σ → Prop}
    {es : List Event} (hrun : (LTS.ofFun init (Request.step call r)).Runs (fun _ _ => True)
      (Request.start r s user) es q)
    {out : Option Nat} (hok : q.returned = some (.ok, out)) {hd : ResponseHead} {b : List UInt8}
    (hsent : es.flatMap Event.bytes = hd.bytes ++ b) :
    hd.Success ∧ hd.Whole b ∧ out = some ((hd.body b).length % 2 ^ 32) ∧
    P (hd.body b) q.http.user := by
  obtain ⟨resp, hpre, hend, hout, hP'⟩ := taken_of_ok hkeep hcb hP hrun hok
  rw [hsent] at hpre hend
  obtain ⟨hst, hwhole, hbody⟩ := response_whole hpre hend
  rw [total, hbody] at hout
  rw [hbody] at hP'
  exact ⟨hst, hwhole, hout, hP'⟩

/-- A callback with a log keeps account in it. -/
theorem logged_keepsAccount (call : κ → List UInt8 → σ → Bool × σ) (cb : κ) :
    KeepsAccount (logged call) cb fun b user => user.2.flatten = b := by
  intro b user piece hb _ _
  rw [logged, List.flatten_append, List.flatten_singleton, hb]

/-- **No success with another body**: in every run of a call, whatever the callback answers and
whatever goes wrong on the way, `HTTP_OK` behind a well-formed head means that its status is 2xx,
that all of the body it announces has come, that the pieces handed over are this body, and that
`*out_total` is its length. -/
theorem success_exact {s : Start κ} {r : Nat} {user : σ}
    {init : Request κ (σ × List (List UInt8)) → Prop} {es : List Event}
    {q : Request κ (σ × List (List UInt8))} (hcb : s.chunkCb = some cb) (hrun : (LTS.ofFun init
      (Request.step (logged call) r)).Runs (fun _ _ => True) (Request.start r s (user, [])) es q)
    {out : Option Nat} (hok : q.returned = some (.ok, out)) {hd : ResponseHead} {b : List UInt8}
    (hsent : es.flatMap Event.bytes = hd.bytes ++ b) :
    hd.Success ∧ hd.Whole b ∧ q.http.user.2.flatten = hd.body b ∧
      out = some ((hd.body b).length % 2 ^ 32) := by
  obtain ⟨hst, hwhole, hout, hlog⟩ :=
    taken_of_head (logged_keepsAccount call cb) hcb rfl hrun hok hsent
  exact ⟨hst, hwhole, hlog, hout⟩

/-- The body is cut off behind its declared length. -/
def longDelivery : List Event :=
  [.callback (.dns (some 1) ⟨true, errOk⟩), .callback (.connected errOk errOk), .check false,
    .callback (.received [twoBytes.bytes.take 25, twoBytes.bytes.drop 25 ++ ascii "a"] errOk),
    .callback (.received [ascii "bcd"] errOk), .callback .closed, .check true]

theorem longDelivery_exact : twoBytes.Success ∧ twoBytes.Whole (ascii "abcd") ∧
    [ascii "a", ascii "b"].flatten = twoBytes.body (ascii "abcd") ∧
    some 2 = some ((twoBytes.body (ascii "abcd")).length % 2 ^ 32) := by
  have hrun : (LTS.exec (Request.step (logged acceptAll) 0) (fun _ _ => True)
      (Request.start 0 plainStart ((), [])) longDelivery).map (fun q =>
        (q.returned, q.http.user.2)) =
      some (some (.ok, some 2), [ascii "a", ascii "b"]) := by decide +kernel
  obtain ⟨q, hexec, hq⟩ := Option.map_eq_some_iff.mp hrun
  obtain ⟨hret, hlog⟩ := Prod.mk.inj hq
  have h := @success_exact _ _ acceptAll () plainStart 0 () (fun _ => True) _ _ rfl
    (LTS.runs_exec hexec) _ hret
    twoBytes (ascii "abcd") (by decide +kernel)
  rwa [hlog] at h

/-! ## A response in one piece -/

/-- The whole of a response comes in one segment, and the callback takes it. -/
theorem recvSegments_whole {c : Ctx κ} (hc : c.Listening) (hcb : c.chunkCb = some cb)
    {resp : List UInt8} (hfull : Full resp) (hl : ¬ TooLong resp) (hne : wanted resp ≠ [])
    (err : ErrT) {user : σ} (hacc : (call cb (wanted resp) user).1 = true) :
    recvSegments call [resp] ⟨c, err, user⟩ =
      ⟨(c.readTo resp).markComplete .ok, err, (call cb (wanted resp) user).2⟩ := by
  obtain ⟨hd, b, hs, hst, hpos, hlen⟩ := hfull
  have hhand : hand call (some cb) (fresh [] resp) user =
      (true, (call cb (wanted resp) user).2) := by
    have hfresh : fresh [] resp = wanted resp := rfl
    rw [hand, hfresh, if_neg hne, ← hacc]
  have hend := endOfBody_reached c hs hpos hlen
  rw [if_pos hst] at hend
  have hseg := recvSegment_readTo call hc (h := ⟨c, err, user⟩) (s := []) (q := resp)
    (Ctx.readTo_nil hc).symm trivial hl
  rw [List.nil_append, hcb, hhand] at hseg
  dsimp only at hseg
  rw [recvSegments, hc.complete, if_neg Bool.false_ne_true, hseg, hend]
  rfl

/-- `http_get` leaves the user argument to its callback. -/
theorem start_user (r : Nat) (s : Start κ) (user : σ) :
    (Request.start r s user).http.user = user := by
  unfold Request.start httpGet
  rcases parseUrl s.url s.ctx with ⟨ctx, _ | _⟩
  · rfl
  · dsimp only
    cases s.dns with
    | failed => rfl
    | inProgress => rfl
    | found addr =>
      dsimp only
      unfold Network.startConnect
      split
      · dsimp only
        split <;> rfl
      · rfl

/-- **The call that goes well.** -/
theorem run_whole (call : κ → List UInt8 → σ → Bool × σ) {s : Start κ} (hcb : s.chunkCb = some cb)
    (hprog : s.progress = .connecting) {resp : List UInt8}
    (hfull : Full resp) (hl : ¬ TooLong resp) (hne : wanted resp ≠ []) {user : σ}
    (hacc : (call cb (wanted resp) user).1 = true) (r : Nat) (init : Request κ σ → Prop) :
    ∃ q, (LTS.ofFun init (Request.step call r)).Runs (fun _ _ => True) (Request.start r s user)
        [.callback (.connected errOk errOk), .callback (.received [resp] errOk), .check false] q ∧
      q.returned = some (.ok, some (total resp)) ∧
      q.http.user = (call cb (wanted resp) user).2 := by
  have htracks := tracks_start r s user
  have huser := start_user r s user
  rw [hprog] at htracks
  generalize Request.start r s user = q at htracks huser
  obtain ⟨⟨ctx, err, user'⟩, conn, ret⟩ := q
  obtain ⟨-, hw, hconn, hret⟩ := htracks
  dsimp only at hconn hret huser
  subst hconn hret huser
  -- the request goes out
  have hlisten : ({ ctx with state := .headers } : Ctx κ).Listening :=
    { hw.toBlank with state := rfl }
  have hconnected : Request.step call r ⟨⟨ctx, err, user'⟩, ⟨false, .connecting⟩, none⟩
      (.callback (.connected errOk errOk)) =
        some ⟨⟨{ ctx with state := .headers }, err, user'⟩, ⟨false, .established⟩, none⟩ := by
    have hrun : tcpConnectedCb errOk errOk ⟨ctx, err, user'⟩ = ⟨{ ctx with state := .headers },
        err, user'⟩ := by
      rw [tcpConnectedCb, if_neg (by simp), sendRequest, if_neg (Nat.not_le_of_lt hw.fits),
        if_neg (by simp)]
    rw [Request.step, Conn.next, if_pos rfl, Option.map_some, Callback.run, hrun]
  have hchunk : ({ ctx with state := .headers } : Ctx κ).chunkCb = some cb := hw.chunkCb.trans hcb
  generalize ({ ctx with state := .headers } : Ctx κ) = c at hlisten hconnected hchunk
  -- the response comes
  have hended := Ctx.markComplete_ended (Ctx.readTo_complete hlisten resp) .ok
  rw [Ctx.readTo_total hlisten] at hended
  have hreceived : Request.step call r ⟨⟨c, err, user'⟩, ⟨false, .established⟩, none⟩
      (.callback (.received [resp] errOk)) =
        some ⟨⟨(c.readTo resp).markComplete .ok, err, (call cb (wanted resp) user').2⟩,
          ⟨false, .established⟩, none⟩ := by
    rw [Request.step, Conn.next, if_pos rfl, Option.map_some, Callback.run, tcpRecvCb,
      if_neg (by simp), recvSegments_whole hlisten hchunk hfull hl hne err hacc]
  refine ⟨_, .cons trivial hconnected (.cons trivial hreceived (.cons trivial rfl (.nil _))),
    ?_, ?_⟩
  · rw [Request.check, if_neg (by simp), waitLoop, if_pos hended.complete]
    dsimp only
    rw [hended.result, hended.bodyReceived]
  · rw [Request.check, if_neg (by simp), waitLoop, if_pos hended.complete]

end PicoBLE.Network
