import Mathlib.Logic.Function.Basic
import PicoBLE.Lib.LTS
import PicoBLE.Network.HttpGet

/-!
# Many calls on one context

`http_get` keeps its context in a static variable, and a connection that a call
leaves behind keeps its callbacks. Every call here runs twice: once with all the
others on the static context, and once alone, with the events of its own
connection only. As long as no event of an earlier call meets the context of a
later one that is still at work, both runs hand over the same bytes and return the
same result.
-/

namespace PicoBLE.Network

open CString

/-! ## What a callback can reach -/

section reach

variable {κ σ : Type} (call : κ → List UInt8 → σ → Bool × σ)

/-- What the segment loop leaves alone: where the connection goes, and whatever
the caller's callback keeps. -/
structure Within (F : σ → σ → Prop) (h h' : Http κ σ) : Prop where
  chunkCb : h'.ctx.chunkCb = h.ctx.chunkCb
  pcb : h'.ctx.pcb = h.ctx.pcb
  user : F h.user h'.user

/-- The caller's callback keeps `F`, which is reflexive and transitive. -/
structure Frame (cb : Option κ) (F : σ → σ → Prop) : Prop where
  refl : ∀ u, F u u
  trans : ∀ {u v w}, F u v → F v w → F u w
  call : ∀ k ∈ cb, ∀ bytes u, F u (call k bytes u).2

variable {call} {cb : Option κ} {F : σ → σ → Prop}

theorem Ctx.markComplete_keeps (c : Ctx κ) (r : HttpResult) :
    (c.markComplete r).chunkCb = c.chunkCb ∧ (c.markComplete r).pcb = c.pcb := by
  rw [markComplete]
  split <;> exact ⟨rfl, rfl⟩

theorem countBody_keeps (take : Nat) (c : Ctx κ) :
    (countBody take c).chunkCb = c.chunkCb ∧ (countBody take c).pcb = c.pcb := by
  rw [countBody, Ctx.endOfBody]
  split
  · exact Ctx.markComplete_keeps _ _
  · exact ⟨rfl, rfl⟩

theorem feedHeaderBytes_keeps (c : Ctx κ) (data : List UInt8) :
    (feedHeaderBytes c data).1.chunkCb = c.chunkCb ∧ (feedHeaderBytes c data).1.pcb = c.pcb := by
  induction data generalizing c with
  | nil => exact ⟨rfl, rfl⟩
  | cons b data ih =>
    rw [feedHeaderBytes]
    split
    · split
      · split
        · exact ⟨rfl, rfl⟩
        · exact ih _
      · exact ⟨rfl, rfl⟩
    · exact ⟨rfl, rfl⟩

theorem recvBody_within (hF : Frame call cb F) (bytes : List UInt8) {h : Http κ σ}
    (hcb : h.ctx.chunkCb = cb) : Within F h (recvBody call bytes h).1 := by
  obtain ⟨ctx, e, u⟩ := h
  have hcb : ctx.chunkCb = cb := hcb
  have hcount := fun take => countBody_keeps take ctx
  rw [recvBody]
  split
  · rw [takeBody]
    dsimp only
    cases hc : ctx.chunkCb with
    | none => exact ⟨(hcount _).1, (hcount _).2, hF.refl _⟩
    | some k =>
      dsimp only
      split
      · have hk := hF.call k (by rw [← hcb, hc]; rfl) (bytes.take (bodyTake ctx bytes.length)) u
        rcases hcall : call k (bytes.take (bodyTake ctx bytes.length)) u with ⟨_ | _, u'⟩
        · rw [hcall] at hk
          have hmark := Ctx.markComplete_keeps ctx .errAborted
          exact ⟨hmark.1, hmark.2, hk⟩
        · rw [hcall] at hk
          exact ⟨(hcount _).1, (hcount _).2, hk⟩
      · exact ⟨(hcount _).1, (hcount _).2, hF.refl _⟩
  · exact ⟨rfl, rfl, hF.refl _⟩

theorem recvSegment_within (hF : Frame call cb F) (bytes : List UInt8) {h : Http κ σ}
    (hcb : h.ctx.chunkCb = cb) : Within F h (recvSegment call bytes h).1 := by
  have hfeed := feedHeaderBytes_keeps h.ctx bytes
  rw [recvSegment]
  split
  · split
    · exact ⟨hfeed.1, hfeed.2, hF.refl _⟩
    · have hbody := recvBody_within hF (feedHeaderBytes h.ctx bytes).2
        (h := { h with ctx := (feedHeaderBytes h.ctx bytes).1 }) (hfeed.1.trans hcb)
      exact ⟨hbody.chunkCb.trans hfeed.1, hbody.pcb.trans hfeed.2, hbody.user⟩
  · exact recvBody_within hF bytes hcb

theorem recvSegments_within (hF : Frame call cb F) (chain : List (List UInt8)) {h : Http κ σ}
    (hcb : h.ctx.chunkCb = cb) : Within F h (recvSegments call chain h) := by
  induction chain generalizing h with
  | nil => exact ⟨rfl, rfl, hF.refl _⟩
  | cons q chain ih =>
    have hone := recvSegment_within hF q hcb
    rw [recvSegments]
    split
    · exact ⟨rfl, rfl, hF.refl _⟩
    · rcases hr : recvSegment call q h with ⟨h', _ | _⟩
      · rw [hr] at hone
        exact hone
      · rw [hr] at hone
        have hrest := ih (hone.chunkCb.trans hcb)
        exact ⟨hrest.chunkCb.trans hone.chunkCb, hrest.pcb.trans hone.pcb,
          hF.trans hone.user hrest.user⟩

/-- **What a callback can reach**: the context's caller, and of the connection
only its own. -/
theorem Callback.run_within (hF : Frame call cb F) (r : Nat) (c : Callback) {h : Http κ σ}
    (hcb : h.ctx.chunkCb = cb) :
    (c.run call r h).ctx.chunkCb = cb ∧
      ((c.run call r h).ctx.pcb = h.ctx.pcb ∨ (c.run call r h).ctx.pcb = none ∨
        (c.run call r h).ctx.pcb = some r) ∧
      F h.user (c.run call r h).user := by
  have hmark := Ctx.markComplete_keeps h.ctx
  cases c with
  | dns addr tcp =>
    cases addr with
    | none => exact ⟨(hmark _).1.trans hcb, .inl (hmark _).2, hF.refl _⟩
    | some addr =>
      rw [run, dnsCb, startConnect]
      split
      · dsimp only
        split
        · have hopen := Ctx.markComplete_keeps
            ({ h.ctx with remoteIp := addr, pcb := some r, state := .connect } : Ctx κ) .errConnect
          exact ⟨hopen.1.trans hcb, .inr (.inr hopen.2), hF.refl _⟩
        · exact ⟨hcb, .inr (.inr rfl), hF.refl _⟩
      · have hnew := Ctx.markComplete_keeps ({ h.ctx with remoteIp := addr } : Ctx κ) .errNomem
        exact ⟨hnew.1.trans hcb, .inl hnew.2, hF.refl _⟩
  | connected err write =>
    have hsend := Ctx.markComplete_keeps ({ h.ctx with state := .headers } : Ctx κ)
    rw [run, tcpConnectedCb]
    split
    · exact ⟨(hmark _).1.trans hcb, .inl (hmark _).2, hF.refl _⟩
    · rw [sendRequest]
      split
      · exact ⟨(hsend _).1.trans hcb, .inl (hsend _).2, hF.refl _⟩
      · split
        · exact ⟨(hsend _).1.trans hcb, .inl (hsend _).2, hF.refl _⟩
        · exact ⟨hcb, .inl rfl, hF.refl _⟩
  | received chain err =>
    rw [run, tcpRecvCb]
    split
    · exact ⟨(hmark _).1.trans hcb, .inl (hmark _).2, hF.refl _⟩
    · have hrecv := recvSegments_within hF chain hcb
      exact ⟨hrecv.chunkCb.trans hcb, .inl hrecv.pcb, hrecv.user⟩
  | closed =>
    refine ⟨?_, .inr (.inl rfl), hF.refl _⟩
    rw [run, tcpRecvCb, recvClosed]
    dsimp only
    split <;> exact (hmark _).1.trans hcb
  | error err =>
    have hgone := Ctx.markComplete_keeps ({ h.ctx with pcb := none } : Ctx κ) .errAborted
    exact ⟨hgone.1.trans hcb, .inr (.inl hgone.2), hF.refl _⟩

/-! ## What a callback depends on -/

/-- On states that `R` relates, the caller's callback answers alike and keeps
`R`. -/
def Respects (call : κ → List UInt8 → σ → Bool × σ) (cb : Option κ) (R : σ → σ → Prop) : Prop :=
  ∀ k ∈ cb, ∀ bytes u v, R u v →
    (call k bytes u).1 = (call k bytes v).1 ∧ R (call k bytes u).2 (call k bytes v).2

/-- One context, and states that `R` relates. -/
structure Same (R : σ → σ → Prop) (h h' : Http κ σ) : Prop where
  ctx : h.ctx = h'.ctx
  user : R h.user h'.user

variable {R : σ → σ → Prop}

theorem recvBody_same (hR : Respects call cb R) (bytes : List UInt8) {h h' : Http κ σ}
    (hs : Same R h h') (hcb : h.ctx.chunkCb = cb) :
    Same R (recvBody call bytes h).1 (recvBody call bytes h').1 ∧
      (recvBody call bytes h).2 = (recvBody call bytes h').2 := by
  obtain ⟨ctx, e, u⟩ := h
  obtain ⟨ctx', e', v⟩ := h'
  obtain ⟨rfl, huv⟩ := hs
  have hcb : ctx.chunkCb = cb := hcb
  rw [recvBody, recvBody]
  split
  · rw [takeBody, takeBody]
    dsimp only
    cases hc : ctx.chunkCb with
    | none => exact ⟨⟨rfl, huv⟩, rfl⟩
    | some k =>
      dsimp only
      split
      · obtain ⟨hans, hkeep⟩ := hR k (by rw [← hcb, hc]; rfl)
          (bytes.take (bodyTake ctx bytes.length)) u v huv
        rcases hu : call k (bytes.take (bodyTake ctx bytes.length)) u with ⟨b, u'⟩
        rcases hv : call k (bytes.take (bodyTake ctx bytes.length)) v with ⟨b', v'⟩
        rw [hu, hv] at hans hkeep
        have hans : b = b' := hans
        subst hans
        cases b <;> exact ⟨⟨rfl, hkeep⟩, rfl⟩
      · exact ⟨⟨rfl, huv⟩, rfl⟩
  · exact ⟨⟨rfl, huv⟩, rfl⟩

theorem recvSegment_same (hR : Respects call cb R) (bytes : List UInt8) {h h' : Http κ σ}
    (hs : Same R h h') (hcb : h.ctx.chunkCb = cb) :
    Same R (recvSegment call bytes h).1 (recvSegment call bytes h').1 ∧
      (recvSegment call bytes h).2 = (recvSegment call bytes h').2 := by
  rw [recvSegment, recvSegment, ← hs.ctx]
  split
  · split
    · exact ⟨⟨rfl, hs.user⟩, rfl⟩
    · have hfeed := feedHeaderBytes_keeps h.ctx bytes
      exact recvBody_same hR _ ⟨rfl, hs.user⟩ (hfeed.1.trans hcb)
  · exact recvBody_same hR bytes hs hcb

theorem recvSegments_same (hF : Frame call cb F) (hR : Respects call cb R)
    (chain : List (List UInt8)) {h h' : Http κ σ} (hs : Same R h h') (hcb : h.ctx.chunkCb = cb) :
    Same R (recvSegments call chain h) (recvSegments call chain h') := by
  induction chain generalizing h h' with
  | nil => exact hs
  | cons q chain ih =>
    obtain ⟨hone, hgo⟩ := recvSegment_same hR q hs hcb
    have hcb' := (recvSegment_within hF q hcb).chunkCb.trans hcb
    rw [recvSegments, recvSegments, ← hs.ctx]
    split
    · exact hs
    · rcases hr : recvSegment call q h with ⟨h₁, go⟩
      rcases hr' : recvSegment call q h' with ⟨h₁', go'⟩
      rw [hr, hr'] at hone hgo
      rw [hr] at hcb'
      have hgo : go = go' := hgo
      subst hgo
      cases go with
      | true => exact ih hone hcb'
      | false => exact hone

/-- **What a callback depends on**: the context, and what its caller keeps. -/
theorem Callback.run_same (hF : Frame call cb F) (hR : Respects call cb R) (r : Nat)
    (c : Callback) {h h' : Http κ σ} (hs : Same R h h') (hcb : h.ctx.chunkCb = cb) :
    Same R (c.run call r h) (c.run call r h') := by
  obtain ⟨ctx, e, u⟩ := h
  obtain ⟨ctx', e', v⟩ := h'
  obtain ⟨rfl, huv⟩ := hs
  cases c with
  | dns addr tcp =>
    cases addr with
    | none => exact ⟨rfl, huv⟩
    | some addr =>
      rw [run, run, dnsCb, dnsCb, startConnect, startConnect]
      split
      · dsimp only
        split <;> exact ⟨rfl, huv⟩
      · exact ⟨rfl, huv⟩
  | connected err write =>
    rw [run, run, tcpConnectedCb, tcpConnectedCb]
    split
    · exact ⟨rfl, huv⟩
    · rw [sendRequest, sendRequest]
      split
      · exact ⟨rfl, huv⟩
      · split <;> exact ⟨rfl, huv⟩
  | received chain err =>
    rw [run, run, tcpRecvCb, tcpRecvCb]
    split
    · exact ⟨rfl, huv⟩
    · exact recvSegments_same hF hR chain ⟨rfl, huv⟩ hcb
  | closed =>
    rw [run, run, tcpRecvCb, tcpRecvCb, recvClosed, recvClosed]
    exact ⟨rfl, huv⟩
  | error err => exact ⟨rfl, huv⟩

theorem startConnect_same (r : Nat) (tcp : TcpOpen) (ctx : Ctx κ) (err : ErrT) (u v : σ) :
    (startConnect r tcp ⟨ctx, err, u⟩).ctx = (startConnect r tcp ⟨ctx, err, v⟩).ctx ∧
      (startConnect r tcp ⟨ctx, err, u⟩).user = u := by
  rw [startConnect, startConnect]
  split
  · dsimp only
    split <;> exact ⟨rfl, rfl⟩
  · exact ⟨rfl, rfl⟩

/-- `http_get` starts the same whatever the callers keep. -/
theorem httpGet_same (r : Nat) (s : Start κ) (u v : σ) :
    (httpGet r s u).1.ctx = (httpGet r s v).1.ctx ∧ (httpGet r s u).2 = (httpGet r s v).2 ∧
      (httpGet r s u).1.user = u := by
  rw [httpGet, httpGet]
  split
  · exact ⟨rfl, rfl, rfl⟩
  · split
    · next ctx _ _ addr _ =>
      obtain ⟨hctx, huser⟩ := startConnect_same r s.tcp { ctx with remoteIp := addr } 0 u v
      exact ⟨hctx, rfl, huser⟩
    · exact ⟨rfl, rfl, rfl⟩
    · exact ⟨rfl, rfl, rfl⟩

theorem startConnect_keeps (r : Nat) (tcp : TcpOpen) (h : Http κ σ) :
    (startConnect r tcp h).ctx.chunkCb = h.ctx.chunkCb ∧
      ((startConnect r tcp h).ctx.pcb = h.ctx.pcb ∨ (startConnect r tcp h).ctx.pcb = some r) := by
  rw [startConnect]
  split
  · dsimp only
    split
    · have hopen := Ctx.markComplete_keeps
        ({ h.ctx with pcb := some r, state := .connect } : Ctx κ) .errConnect
      exact ⟨hopen.1, .inr hopen.2⟩
    · exact ⟨rfl, .inr rfl⟩
  · have hmark := Ctx.markComplete_keeps h.ctx .errNomem
    exact ⟨hmark.1, .inl hmark.2⟩

theorem httpGet_keeps (r : Nat) (s : Start κ) (u : σ) :
    (httpGet r s u).1.ctx.chunkCb = s.chunkCb ∧
      ((httpGet r s u).1.ctx.pcb = none ∨ (httpGet r s u).1.ctx.pcb = some r) ∧
      ((httpGet r s u).2.2.isSome = true → (httpGet r s u).2.1 = .idle) := by
  obtain ⟨host, port, path, hctx, -⟩ := parseUrl_frame s.url s.ctx
  rw [httpGet]
  rcases hp : parseUrl s.url s.ctx with ⟨ctx, _ | _⟩ <;> rw [hp] at hctx
  · have hctx : ctx = { s.ctx with host := host, port := port, path := path } := hctx
    subst hctx
    exact ⟨rfl, .inl rfl, fun _ => rfl⟩
  · have hctx : ctx = { s.ctx with host := host, port := port, path := path } := hctx
    subst hctx
    dsimp only
    split
    · obtain ⟨hcb, hpcb⟩ := startConnect_keeps r s.tcp
        ⟨{ s.ctx with host := host, port := port, path := path, remoteIp := _ }, 0, u⟩
      exact ⟨hcb, hpcb, fun hf => absurd hf Bool.false_ne_true⟩
    · exact ⟨rfl, .inl rfl, fun hf => absurd hf Bool.false_ne_true⟩
    · exact ⟨rfl, .inl rfl, fun _ => rfl⟩

/-- A pass of the wait loop depends on the context alone. -/
theorem waitLoop_same (expired : Bool) {h h' : Http κ σ} (hctx : h.ctx = h'.ctx) :
    (waitLoop expired h).1.ctx = (waitLoop expired h').1.ctx ∧
      (waitLoop expired h).2 = (waitLoop expired h').2 ∧
      aborts expired h = aborts expired h' := by
  have hdead : (onDeadline h).ctx = (onDeadline h').ctx := by
    rw [onDeadline, onDeadline, hctx]
    split
    · simp only [markComplete, tcpErrCb, hctx]
    · simp only [markComplete, hctx]
  rw [waitLoop, waitLoop, aborts, aborts, hctx]
  refine ⟨?_, ?_, rfl⟩
  · split
    · exact hctx
    · split
      · exact hdead
      · exact hctx
  · split
    · rfl
    · split <;> rfl

theorem onDeadline_keeps (h : Http κ σ) :
    (onDeadline h).ctx.chunkCb = h.ctx.chunkCb ∧
      ((onDeadline h).ctx.pcb = h.ctx.pcb ∨ (onDeadline h).ctx.pcb = none) ∧
      (onDeadline h).user = h.user ∧ (onDeadline h).ctx.complete = true := by
  have hmark : ∀ (c : Ctx κ) r, (c.markComplete r).complete = true := by
    intro c r
    rw [Ctx.markComplete]
    split
    · next hc => exact hc
    · rfl
  rw [onDeadline]
  split
  · have hone := Ctx.markComplete_keeps ({ h.ctx with pcb := none } : Ctx κ) .errAborted
    have htwo := Ctx.markComplete_keeps
      ({ ({ h.ctx with pcb := none } : Ctx κ).markComplete .errAborted with pcb := none } : Ctx κ)
      .errTimeout
    exact ⟨htwo.1.trans hone.1, .inr htwo.2, rfl, hmark _ _⟩
  · have hone := Ctx.markComplete_keeps h.ctx .errTimeout
    exact ⟨hone.1, .inl hone.2, rfl, hmark _ _⟩

theorem waitLoop_keeps (expired : Bool) (h : Http κ σ) :
    (waitLoop expired h).1.ctx.chunkCb = h.ctx.chunkCb ∧
      ((waitLoop expired h).1.ctx.pcb = h.ctx.pcb ∨ (waitLoop expired h).1.ctx.pcb = none) ∧
      (waitLoop expired h).1.user = h.user ∧
      ((waitLoop expired h).2 = true → (waitLoop expired h).1.ctx.complete = true) := by
  rw [waitLoop]
  split
  · next hc => exact ⟨rfl, .inl rfl, rfl, fun _ => hc⟩
  · split
    · obtain ⟨h1, h2, h3, h4⟩ := onDeadline_keeps h
      exact ⟨h1, h2, h3, fun _ => h4⟩
    · exact ⟨rfl, .inl rfl, rfl, fun hf => absurd hf Bool.false_ne_true⟩

end reach

/-! ## The calls together, and each alone -/

/-- What has been handed to each caller, chunk by chunk. -/
abbrev Logs := Nat → List (List UInt8)

def Logs.empty : Logs := fun _ => []

/-- The chunk callback of every caller: it keeps what it is handed, and answers
from what it has been handed before. -/
def answer (accept : Nat → List (List UInt8) → List UInt8 → Bool) (r : Nat) (bytes : List UInt8)
    (logs : Logs) : Bool × Logs :=
  (accept r (logs r) bytes, Function.update logs r (logs r ++ [bytes]))

/-- A start, with the callback of call `r` if there is to be one. -/
def Start.by (s : Start Unit) (r : Nat) : Start Nat :=
  { s with chunkCb := s.chunkCb.map fun _ => r }

/-- All calls on the static context. -/
structure Net where
  http : Http Nat Logs
  conns : Nat → Conn
  /-- The calls that are in their wait loop, the innermost first: a pass of one
  loop may start another call. -/
  frames : List Nat
  returned : Nat → Option (HttpResult × Option Nat)
  started : Nat

/-- A call starts, or an event of a call. -/
inductive Label where
  | start (s : Start Unit)
  | on (r : Nat) (e : Event)

section system

variable (accept : Nat → List (List UInt8) → List UInt8 → Bool)

def Net.start (s : Start Unit) (w : Net) : Net :=
  let r := w.started
  { http := (httpGet r (s.by r) w.http.user).1
    conns := Function.update w.conns r (httpGet r (s.by r) w.http.user).2.1
    frames := if (httpGet r (s.by r) w.http.user).2.2.isSome then w.frames else r :: w.frames
    returned := Function.update w.returned r ((httpGet r (s.by r) w.http.user).2.2.map (·, none))
    started := r + 1 }

/-- A pass of the innermost wait loop, that of call `r`. The pcb it aborts is the
one in the context. -/
def Net.check (r : Nat) (expired : Bool) (w : Net) : Net :=
  match waitLoop expired w.http with
  | (h, true) =>
    { w with
      http := h
      conns :=
        match aborts expired w.http with
        | some r' => Function.update w.conns r' { w.conns r' with pcb := .freed }
        | none => w.conns
      frames := w.frames.tail
      returned := Function.update w.returned r (some (h.ctx.result, some h.ctx.bodyReceived)) }
  | (h, false) => { w with http := h }

/-- A callback of call `r`, after which `conn` is pending for it. -/
def Net.callback (r : Nat) (c : Callback) (conn : Conn) (w : Net) : Net :=
  { w with
    http := c.run (answer accept) r w.http
    conns := Function.update w.conns r conn }

def Net.step (w : Net) : Label → Option Net
  | .start s => some (w.start s)
  | .on r (.callback c) =>
    if r < w.started then ((w.conns r).next c).map fun conn => w.callback accept r c conn else none
  | .on r (.check expired) => if w.frames.head? = some r then some (w.check r expired) else none

/-- All calls together, and each call alone on a context of its own. -/
structure Watched where
  net : Net
  alone : Nat → Option (Request Nat Logs)

/-- A call alone sees the events of its own connection. -/
def Watched.step (w : Watched) (l : Label) : Option Watched :=
  (w.net.step accept l).map fun net =>
    { net := net
      alone :=
        match l with
        | .start s =>
          Function.update w.alone w.net.started
            (some (Request.start w.net.started (s.by w.net.started) Logs.empty))
        | .on r e =>
          Function.update w.alone r ((w.alone r).bind fun q => q.step (answer accept) r e) }

/-- Before any call. -/
def Watched.init : Watched where
  net :=
    { http := ⟨Ctx.zero, 0, Logs.empty⟩
      conns := fun _ => .idle
      frames := []
      returned := fun _ => none
      started := 0 }
  alone := fun _ => none

def requestSystem : LTS Watched Label := .ofFun (· = Watched.init) (Watched.step accept)

/-- An event belongs to the last call started, or to a call that has returned and
finds the context complete. -/
def Exclusive (w : Watched) : Label → Prop
  | .start _ => True
  | .on r _ =>
    r + 1 = w.net.started ∨ (w.net.http.ctx.complete = true ∧ (w.net.returned r).isSome = true)

instance (w : Watched) : (l : Label) → Decidable (Exclusive w l)
  | .start _ => isTrue trivial
  | .on _ _ => inferInstanceAs (Decidable (_ ∨ _))

end system

/-! ## The invariant -/

/-- Contexts that end a call alike: equal, or complete with the same outcome. -/
def Alike (a b : Ctx Nat) : Prop :=
  a = b ∨ (a.complete = true ∧ b.complete = true ∧ a.result = b.result ∧
    a.bodyReceived = b.bodyReceived)

/-- A complete context stays alike whatever becomes of its connection. -/
theorem Alike.settle {a b a' b' : Ctx Nat} (h : Alike a b) (ha : a.complete = true)
    (ha' : a'.complete = true ∧ a'.result = a.result ∧ a'.bodyReceived = a.bodyReceived)
    (hb' : b.complete = true →
      b'.complete = true ∧ b'.result = b.result ∧ b'.bodyReceived = b.bodyReceived) :
    Alike a' b' := by
  obtain ⟨hc, hr, hn⟩ := ha'
  rcases h with rfl | ⟨-, hb, hres, hbytes⟩
  · obtain ⟨hc', hr', hn'⟩ := hb' ha
    exact .inr ⟨hc, hc', hr.trans hr'.symm, hn.trans hn'.symm⟩
  · obtain ⟨hc', hr', hn'⟩ := hb' hb
    exact .inr ⟨hc, hc', by rw [hr, hres, hr'], by rw [hn, hbytes, hn']⟩

/-- A call among the others, and the same call alone. -/
structure Paired (w : Net) (r : Nat) (q : Request Nat Logs) : Prop where
  conn : q.conn = w.conns r
  returned : q.returned = w.returned r
  handed : q.http.user r = w.http.user r
  chunkCb : ∀ k ∈ q.http.ctx.chunkCb, k = r
  /-- A call that has returned is complete, or has no connection. -/
  settled : q.returned.isSome = true → q.http.ctx.complete = true ∨ q.conn = .idle
  /-- The last call started owns the static context. -/
  ctx : r + 1 = w.started → Alike w.http.ctx q.http.ctx

structure Inv (w : Watched) : Prop where
  paired : ∀ r, r < w.net.started → ∃ q, w.alone r = some q ∧ Paired w.net r q
  fresh : ∀ r, w.net.started ≤ r → w.net.http.user r = []
  chunkCb : ∀ k ∈ w.net.http.ctx.chunkCb, k + 1 = w.net.started
  /-- Only the owner's pcb can be aborted. -/
  pcb : w.net.http.ctx.complete = false → ∀ k ∈ w.net.http.ctx.pcb, k + 1 = w.net.started
  frames : ∀ r ∈ w.net.frames, r < w.net.started ∧ w.net.returned r = none
  nodup : w.net.frames.Nodup

theorem inv_init : Inv Watched.init where
  paired r h := absurd h (Nat.not_lt_zero r)
  fresh _ _ := rfl
  chunkCb k h := absurd h (by simp [Watched.init, Ctx.zero])
  pcb _ k h := absurd h (by simp [Watched.init, Ctx.zero])
  frames r h := absurd h (by simp [Watched.init])
  nodup := List.nodup_nil

variable (accept : Nat → List (List UInt8) → List UInt8 → Bool)

theorem idle_next (c : Callback) : Conn.idle.next c = none := by
  cases c <;> simp [Conn.next, Conn.idle]

/-- A callback changes no other caller's log. -/
theorem answer_frame {cb : Option Nat} {r : Nat} (hcb : ∀ k ∈ cb, k = r) :
    Frame (answer accept) cb fun u v : Logs => ∀ k, k ≠ r → v k = u k where
  refl _ _ _ := rfl
  trans huv hvw k hk := (hvw k hk).trans (huv k hk)
  call k hk bytes u j hj := by
    obtain rfl := hcb k hk
    exact Function.update_of_ne hj _ _

/-- It depends on its own caller's log. -/
theorem answer_respects {cb : Option Nat} {r : Nat} (hcb : ∀ k ∈ cb, k = r) :
    Respects (answer accept) cb fun u v : Logs => u r = v r := by
  intro k hk bytes u v huv
  obtain rfl := hcb k hk
  have huv : u k = v k := huv
  simp only [answer, huv, Function.update_self, and_self]

section start

variable (s : Start Unit) (w : Net)

theorem Net.start_conns : (w.start s).conns w.started =
    (httpGet w.started (s.by w.started) w.http.user).2.1 := Function.update_self _ _ _

theorem Net.start_returned : (w.start s).returned w.started =
    (httpGet w.started (s.by w.started) w.http.user).2.2.map (·, none) := Function.update_self _ _ _

theorem Net.start_other {r : Nat} (hr : r < w.started) :
    (w.start s).conns r = w.conns r ∧ (w.start s).returned r = w.returned r :=
  ⟨Function.update_of_ne (Nat.ne_of_lt hr) _ _, Function.update_of_ne (Nat.ne_of_lt hr) _ _⟩

end start

/-- A call that gets to its wait loop goes on top of the ones that wait. -/
theorem Inv.start_frames {w : Watched} (h : Inv w) (s : Start Unit) :
    (∀ r ∈ (w.net.start s).frames, r < (w.net.start s).started ∧
      (w.net.start s).returned r = none) ∧
      (w.net.start s).frames.Nodup := by
  have hold : ∀ r ∈ w.net.frames, r < (w.net.start s).started ∧
      (w.net.start s).returned r = none := by
    intro r hr
    obtain ⟨hlt, hret⟩ := h.frames r hr
    exact ⟨Nat.lt_succ_of_lt hlt, (w.net.start_other s hlt).2.trans hret⟩
  have hframes : (w.net.start s).frames
      = if (httpGet w.net.started (s.by w.net.started) w.net.http.user).2.2.isSome
        then w.net.frames else w.net.started :: w.net.frames := rfl
  cases hearly : (httpGet w.net.started (s.by w.net.started) w.net.http.user).2.2 with
  | some _ =>
    rw [hframes, hearly, Option.isSome_some, if_pos rfl]
    exact ⟨hold, h.nodup⟩
  | none =>
    rw [hframes, hearly, if_neg (by simp)]
    refine ⟨fun r hr => ?_, List.nodup_cons.mpr
      ⟨fun hm => absurd (h.frames _ hm).1 (Nat.lt_irrefl _), h.nodup⟩⟩
    rcases List.mem_cons.mp hr with rfl | hr
    · exact ⟨Nat.lt_succ_self _, by rw [Net.start_returned, hearly]; rfl⟩
    · exact hold r hr

/-- **A call starts.** -/
theorem inv_start {w : Watched} (h : Inv w) (s : Start Unit) :
    Inv ⟨w.net.start s, Function.update w.alone w.net.started
      (some (Request.start w.net.started (s.by w.net.started) Logs.empty))⟩ := by
  obtain ⟨hctx, hsnd, huser⟩ :=
    httpGet_same w.net.started (s.by w.net.started) w.net.http.user Logs.empty
  obtain ⟨-, -, huser'⟩ :=
    httpGet_same w.net.started (s.by w.net.started) Logs.empty w.net.http.user
  obtain ⟨hcb, hpcb, hidle⟩ :=
    httpGet_keeps w.net.started (s.by w.net.started) w.net.http.user
  have hby : ∀ k ∈ (s.by w.net.started).chunkCb, k = w.net.started := by
    intro k hk
    obtain ⟨-, -, rfl⟩ := Option.map_eq_some_iff.mp hk
    rfl
  refine ⟨?_, ?_, ?_, ?_, ?_, ?_⟩
  · intro r hr
    rcases Nat.lt_succ_iff_lt_or_eq.mp hr with hlt | rfl
    · -- an earlier call
      obtain ⟨q, hq, hp⟩ := h.paired r hlt
      obtain ⟨hconns, hreturned⟩ := w.net.start_other s hlt
      exact ⟨q, (Function.update_of_ne (Nat.ne_of_lt hlt) _ _).trans hq,
        hp.conn.trans hconns.symm, hp.returned.trans hreturned.symm,
        hp.handed.trans (congrFun huser r).symm, hp.chunkCb, hp.settled,
        fun heq => absurd (Nat.succ.inj heq) (Nat.ne_of_lt hlt)⟩
    · -- the new call, on a context just cleared
      obtain ⟨hcb', -, hidle'⟩ :=
        httpGet_keeps w.net.started (s.by w.net.started) Logs.empty
      refine ⟨_, Function.update_self _ _ _, ?_, ?_, ?_, ?_, ?_, fun _ => .inl hctx⟩
      · rw [Net.start_conns, hsnd, Request.start]
      · rw [Net.start_returned, hsnd, Request.start]
      · have hnew := (congrFun huser w.net.started).trans (h.fresh _ (Nat.le_refl _))
        exact (congrFun huser' w.net.started).trans hnew.symm
      · rw [Request.start]
        dsimp only
        rw [hcb']
        exact hby
      · intro hret
        rw [Request.start] at hret ⊢
        rw [Option.isSome_map] at hret
        exact .inr (hidle' hret)
  · intro r hr
    exact (congrFun huser r).trans (h.fresh r (Nat.le_of_succ_le hr))
  · intro k hk
    rw [Net.start] at hk
    dsimp only at hk
    rw [hcb] at hk
    exact congrArg (· + 1) (hby k hk)
  · intro _ k hk
    rw [Net.start] at hk
    dsimp only at hk
    rcases hpcb with hnone | hsome
    · rw [hnone] at hk; exact absurd hk (by simp)
    · rw [hsome] at hk
      exact congrArg (· + 1) (Option.some.inj hk).symm
  · exact (h.start_frames s).1
  · exact (h.start_frames s).2

/-- A callback on a complete context, in short. -/
theorem run_complete_short (call : Nat → List UInt8 → Logs → Bool × Logs) {h : Http Nat Logs}
    (hc : h.ctx.complete = true) (r : Nat) (c : Callback) :
    ((c.run call r h).ctx.complete = true ∧ (c.run call r h).ctx.result = h.ctx.result ∧
      (c.run call r h).ctx.bodyReceived = h.ctx.bodyReceived) ∧
    (c.run call r h).ctx.chunkCb = h.ctx.chunkCb ∧ (c.run call r h).user = h.user := by
  obtain ⟨pcb, ip, st, hctx, huser, -⟩ := Callback.run_complete call hc r c
  rw [hctx]
  exact ⟨⟨hc, rfl, rfl⟩, rfl, huser⟩

theorem Net.callback_conns (r : Nat) (c : Callback) (conn : Conn) (w : Net) :
    (w.callback accept r c conn).conns r = conn :=
  Function.update_self _ _ _

/-- The call alone makes the same callback. -/
theorem Paired.callback {w : Watched} {r : Nat} {q : Request Nat Logs} (hp : Paired w.net r q)
    (hq : w.alone r = some q) {c : Callback} {conn : Conn}
    (hn : (w.net.conns r).next c = some conn) :
    Function.update w.alone r
        ((w.alone r).bind fun q => q.step (answer accept) r (.callback c)) r =
      some { q with http := c.run (answer accept) r q.http, conn := conn } := by
  rw [Function.update_self, hq, Option.bind_some, Request.step, hp.conn, hn]
  rfl

/-- What has settled stays so. -/
theorem Paired.settled_callback {w : Net} {r : Nat} {q : Request Nat Logs} (hp : Paired w r q)
    {c : Callback} {conn : Conn} (hn : (w.conns r).next c = some conn)
    (hret : q.returned.isSome = true) : q.http.ctx.complete = true := by
  rcases hp.settled hret with hc | hidle
  · exact hc
  · rw [← hp.conn, hidle, idle_next] at hn
    exact absurd hn (by simp)

/-- **A callback of the last call started.** -/
theorem inv_own {w : Watched} (h : Inv w) {r : Nat} (hr : r + 1 = w.net.started) {c : Callback}
    {conn : Conn} (hn : (w.net.conns r).next c = some conn) :
    Inv ⟨w.net.callback accept r c conn, Function.update w.alone r
      ((w.alone r).bind fun q => q.step (answer accept) r (.callback c))⟩ := by
  have hown : ∀ k ∈ w.net.http.ctx.chunkCb, k = r :=
    fun k hk => Nat.succ.inj ((h.chunkCb k hk).trans hr.symm)
  have hF := answer_frame accept hown
  obtain ⟨hcb, hpcb, huser⟩ := Callback.run_within hF r c rfl
  obtain ⟨q, hq, hp⟩ := h.paired r (by omega)
  refine ⟨?_, ?_, ?_, ?_, h.frames, h.nodup⟩
  · intro k hk
    by_cases hkr : k = r
    · subst hkr
      refine ⟨_, hp.callback accept hq hn, ?_⟩
      have hconn := (w.net.callback_conns accept k c conn).symm
      have hownq := answer_frame accept hp.chunkCb
      have hcbq := (Callback.run_within hownq k c (h := q.http) rfl).1
      have hsettled := fun hret => (run_complete_short (answer accept)
        (hp.settled_callback hn hret) k c).1.1
      rcases hp.ctx hr with hctx | ⟨hc, hcq, hres, hbytes⟩
      · -- the same context on both sides
        have hstart : Same (fun u v : Logs => u k = v k) w.net.http q.http :=
          ⟨hctx, hp.handed.symm⟩
        have hsame := Callback.run_same hF (answer_respects accept hown) k c hstart rfl
        exact ⟨hconn, hp.returned, hsame.user.symm, hcbq ▸ hp.chunkCb, fun hret =>
          .inl (hsettled hret), fun _ => .inl hsame.ctx⟩
      · -- the call is over on both sides
        obtain ⟨hnet, -, hu⟩ := run_complete_short (answer accept) hc k c
        obtain ⟨hsolo, -, huq⟩ := run_complete_short (answer accept) hcq k c
        refine ⟨hconn, hp.returned, ?_, hcbq ▸ hp.chunkCb, fun hret => .inl (hsettled hret),
          fun _ => ?_⟩
        · exact (congrFun huq k).trans (hp.handed.trans (congrFun hu k).symm)
        · exact Alike.settle (.inr ⟨hc, hcq, hres, hbytes⟩) hc hnet fun _ => hsolo
    · -- another call: nothing of it changes
      obtain ⟨q', hq', hp'⟩ := h.paired k hk
      exact ⟨q', (Function.update_of_ne hkr _ _).trans hq',
        hp'.conn.trans (Function.update_of_ne hkr _ _).symm, hp'.returned,
        hp'.handed.trans (huser k hkr).symm, hp'.chunkCb, hp'.settled,
        fun heq => absurd (Nat.succ.inj (heq.trans hr.symm)) hkr⟩
  · intro k hk
    have hk : w.net.started ≤ k := hk
    have hkr : k ≠ r := by omega
    exact (huser k hkr).trans (h.fresh k hk)
  · intro k hk
    exact h.chunkCb k (hcb ▸ hk)
  · intro hc k hk
    have hc : (c.run (answer accept) r w.net.http).ctx.complete = false := hc
    have hk : k ∈ (c.run (answer accept) r w.net.http).ctx.pcb := hk
    rcases hpcb with hsame | hnone | hsome
    · -- the context was not complete before either
      have hbefore : w.net.http.ctx.complete = false := by
        cases hb : w.net.http.ctx.complete with
        | false => rfl
        | true =>
          rw [(run_complete_short (answer accept) hb r c).1.1] at hc
          exact absurd hc (by simp)
      exact h.pcb hbefore k (hsame ▸ hk)
    · rw [hnone] at hk; exact absurd hk (by simp)
    · rw [hsome] at hk
      exact (congrArg (· + 1) (Option.some.inj hk).symm).trans hr

/-- **A callback of a call that has returned**, on a complete context. -/
theorem inv_late {w : Watched} (h : Inv w) {r : Nat} (hlt : r < w.net.started)
    (hr : r + 1 ≠ w.net.started) (hc : w.net.http.ctx.complete = true)
    (hret : (w.net.returned r).isSome = true) {c : Callback} {conn : Conn}
    (hn : (w.net.conns r).next c = some conn) :
    Inv ⟨w.net.callback accept r c conn, Function.update w.alone r
      ((w.alone r).bind fun q => q.step (answer accept) r (.callback c))⟩ := by
  obtain ⟨hnet, hcb, hu⟩ := run_complete_short (answer accept) hc r c
  obtain ⟨q, hq, hp⟩ := h.paired r hlt
  refine ⟨?_, ?_, ?_, ?_, h.frames, h.nodup⟩
  · intro k hk
    by_cases hkr : k = r
    · subst hkr
      have hretq : q.returned.isSome = true := by rw [hp.returned]; exact hret
      have hcq := hp.settled_callback hn hretq
      obtain ⟨hsolo, hcbq, huq⟩ := run_complete_short (answer accept) hcq k c
      have hconn := (w.net.callback_conns accept k c conn).symm
      exact ⟨_, hp.callback accept hq hn, hconn, hp.returned,
        (congrFun huq k).trans (hp.handed.trans (congrFun hu k).symm), hcbq ▸ hp.chunkCb,
        fun _ => .inl hsolo.1, fun heq => absurd heq hr⟩
    · obtain ⟨q', hq', hp'⟩ := h.paired k hk
      exact ⟨q', (Function.update_of_ne hkr _ _).trans hq',
        hp'.conn.trans (Function.update_of_ne hkr _ _).symm, hp'.returned,
        hp'.handed.trans (congrFun hu k).symm, hp'.chunkCb, hp'.settled,
        fun heq => (hp'.ctx heq).settle hc hnet fun hb => ⟨hb, rfl, rfl⟩⟩
  · intro k hk
    exact (congrFun hu k).trans (h.fresh k hk)
  · intro k hk
    exact h.chunkCb k (hcb ▸ hk)
  · intro hc'
    have hc' : (c.run (answer accept) r w.net.http).ctx.complete = false := hc'
    rw [hnet.1] at hc'
    exact absurd hc' (by simp)

/-- A pass of the wait loop in the call alone. -/
theorem Paired.check {w : Watched} {r : Nat} {q : Request Nat Logs} (hq : w.alone r = some q)
    (expired : Bool) :
    Function.update w.alone r
        ((w.alone r).bind fun q => q.step (answer accept) r (.check expired)) r =
      some (q.check expired) := by
  rw [Function.update_self, hq]
  rfl

theorem Alike.outcome {a b : Ctx Nat} (h : Alike a b) :
    a.result = b.result ∧ a.bodyReceived = b.bodyReceived := by
  rcases h with rfl | ⟨-, -, hr, hn⟩
  · exact ⟨rfl, rfl⟩
  · exact ⟨hr, hn⟩

/-- A pass that is not the last changes nothing. -/
theorem waitLoop_goesOn {κ σ : Type} {expired : Bool} {h : Http κ σ}
    (hl : (waitLoop expired h).2 = false) : waitLoop expired h = (h, false) := by
  rw [waitLoop] at hl ⊢
  split at hl
  · exact absurd hl (by simp)
  · next hc =>
    rw [if_neg hc]
    split at hl
    · exact absurd hl (by simp)
    · next he => rw [if_neg he]

/-- The pcb that the last pass of call `r` aborts is its own. -/
theorem Net.check_conns {w : Net} {r : Nat} {expired : Bool}
    (hl : (waitLoop expired w.http).2 = true) (ha : ∀ k ∈ aborts expired w.http, k = r) :
    w.check r expired =
      { w with
        http := (waitLoop expired w.http).1
        conns := Function.update w.conns r
          (if (aborts expired w.http).isSome then { w.conns r with pcb := .freed } else w.conns r)
        frames := w.frames.tail
        returned := Function.update w.returned r
          (some ((waitLoop expired w.http).1.ctx.result,
            some (waitLoop expired w.http).1.ctx.bodyReceived)) } := by
  rcases hw : waitLoop expired w.http with ⟨h', done⟩
  rw [hw] at hl
  have hl : done = true := hl
  subst hl
  rw [Net.check, hw]
  cases hab : aborts expired w.http with
  | none => simp
  | some k =>
    obtain rfl := ha k (by rw [hab]; rfl)
    simp

/-- A pass of the owner's wait loop is the same pass in the call alone. -/
theorem Paired.waitLoop {w : Net} {r : Nat} {q : Request Nat Logs} (hp : Paired w r q)
    (hr : r + 1 = w.started) (expired : Bool) :
    Alike (waitLoop expired w.http).1.ctx (waitLoop expired q.http).1.ctx ∧
      (waitLoop expired w.http).2 = (waitLoop expired q.http).2 ∧
      aborts expired w.http = aborts expired q.http := by
  rcases hp.ctx hr with hctx | ⟨hc, hcq, hres, hbytes⟩
  · obtain ⟨h1, h2, h3⟩ := waitLoop_same expired hctx
    exact ⟨.inl h1, h2, h3⟩
  · rw [Network.waitLoop, Network.waitLoop, if_pos hc, if_pos hcq, aborts, aborts,
      if_neg (by simp [hc]), if_neg (by simp [hcq])]
    exact ⟨.inr ⟨hc, hcq, hres, hbytes⟩, rfl, rfl⟩

/-- The last pass of a call alone. -/
theorem Request.check_done {q : Request Nat Logs} {expired : Bool} (hret : q.returned = none)
    (hdone : (Network.waitLoop expired q.http).2 = true) :
    q.check expired =
      { http := (Network.waitLoop expired q.http).1
        conn := if (aborts expired q.http).isSome then { q.conn with pcb := .freed } else q.conn
        returned := some ((Network.waitLoop expired q.http).1.ctx.result,
          some (Network.waitLoop expired q.http).1.ctx.bodyReceived) } := by
  rcases hw : Network.waitLoop expired q.http with ⟨h', done⟩
  rw [hw] at hdone
  have hdone : done = true := hdone
  subst hdone
  rw [Request.check, hret, if_neg (by simp), hw]

/-- **A pass of the innermost wait loop.** -/
theorem inv_check {w : Watched} (h : Inv w) {r : Nat} (hr : r + 1 = w.net.started)
    (hframe : w.net.frames.head? = some r) (expired : Bool) :
    Inv ⟨w.net.check r expired, Function.update w.alone r
      ((w.alone r).bind fun q => q.step (answer accept) r (.check expired))⟩ := by
  obtain ⟨rest, hframes⟩ := List.head?_eq_some_iff.mp hframe
  have hret := (h.frames r (by rw [hframes]; exact List.mem_cons_self)).2
  obtain ⟨q, hq, hp⟩ := h.paired r (by omega)
  have hretq : q.returned = none := hp.returned.trans hret
  -- the pass is the same on both sides
  obtain ⟨halike, hdone, haborts⟩ := hp.waitLoop hr expired
  have hstep := Paired.check accept hq expired
  have hother : ∀ k, k ≠ r → Function.update w.alone r
      ((w.alone r).bind fun q => q.step (answer accept) r (.check expired)) k = w.alone k :=
    fun k hk => Function.update_of_ne hk _ _
  cases hl : (waitLoop expired w.net.http).2 with
  | false =>
    have hnet : w.net.check r expired = w.net := by rw [Net.check, waitLoop_goesOn hl]
    have hsolo : q.check expired = q := by
      rw [Request.check, hretq, if_neg (by simp), waitLoop_goesOn (hdone ▸ hl)]
      rw [← hretq]
    rw [hnet]
    refine ⟨fun k hk => ?_, h.fresh, h.chunkCb, h.pcb, h.frames, h.nodup⟩
    by_cases hkr : k = r
    · subst hkr
      exact ⟨q, hstep.trans (by rw [hsolo]), hp⟩
    · obtain ⟨q', hq', hp'⟩ := h.paired k hk
      exact ⟨q', (hother k hkr).trans hq', hp'⟩
  | true =>
    obtain ⟨hcb, -, huser, hcomplete⟩ := waitLoop_keeps expired w.net.http
    obtain ⟨hcbq, -, huserq, hcompleteq⟩ := waitLoop_keeps expired q.http
    have hown : ∀ k ∈ aborts expired w.net.http, k = r := by
      intro k hk
      rw [aborts] at hk
      split at hk
      · next hopen => exact Nat.succ.inj ((h.pcb hopen.2 k hk).trans hr.symm)
      · exact absurd hk (by simp)
    have hsolo := Request.check_done hretq (hdone.symm.trans hl)
    rw [Net.check_conns hl hown]
    refine ⟨fun k hk => ?_, ?_, ?_, ?_, ?_, ?_⟩
    · by_cases hkr : k = r
      · subst hkr
        refine ⟨_, hstep.trans (congrArg some hsolo), ?_, ?_, ?_, ?_, ?_, fun _ => halike⟩
        · dsimp only
          rw [Function.update_self, haborts, hp.conn]
        · dsimp only
          rw [Function.update_self, halike.outcome.1, halike.outcome.2]
        · exact (congrFun huserq k).trans (hp.handed.trans (congrFun huser k).symm)
        · exact hcbq ▸ hp.chunkCb
        · exact fun _ => .inl (hcompleteq (hdone ▸ hl))
      · obtain ⟨q', hq', hp'⟩ := h.paired k hk
        exact ⟨q', (hother k hkr).trans hq',
          hp'.conn.trans (Function.update_of_ne hkr _ _).symm,
          hp'.returned.trans (Function.update_of_ne hkr _ _).symm,
          hp'.handed.trans (congrFun huser k).symm, hp'.chunkCb, hp'.settled,
          fun heq => absurd (Nat.succ.inj (heq.trans hr.symm)) hkr⟩
    · exact fun k hk => (congrFun huser k).trans (h.fresh k hk)
    · exact fun k hk => h.chunkCb k (hcb ▸ hk)
    · intro hc
      have hc : (waitLoop expired w.net.http).1.ctx.complete = false := hc
      rw [hcomplete hl] at hc
      exact absurd hc (by simp)
    · have hnodup := h.nodup
      rw [hframes] at hnodup
      intro k hk
      have hk : k ∈ rest := by
        have hk : k ∈ w.net.frames.tail := hk
        rw [hframes] at hk
        exact hk
      have hkr : k ≠ r := fun heq => (List.nodup_cons.mp hnodup).1 (heq ▸ hk)
      obtain ⟨hlt, hnone⟩ := h.frames k (by rw [hframes]; exact List.mem_cons_of_mem _ hk)
      exact ⟨hlt, (Function.update_of_ne hkr _ _).trans hnone⟩
    · exact h.nodup.tail

/-- **Calls do not disturb each other** in every run whose events are exclusive. -/
theorem inv_reachable {w : Watched}
    (h : (requestSystem accept).ReachableWhen Exclusive w) : Inv w := by
  refine h.inv (P := Inv) ?_ ?_
  · rintro _ rfl
    exact inv_init
  · intro w l w' hinv hok hstep
    obtain ⟨net, hnet, rfl⟩ := Option.map_eq_some_iff.mp hstep
    cases l with
    | start s =>
      obtain rfl := Option.some.inj hnet
      exact inv_start hinv s
    | on r e =>
      cases e with
      | callback c =>
        rw [Net.step] at hnet
        split at hnet
        · next hlt =>
          obtain ⟨conn, hn, rfl⟩ := Option.map_eq_some_iff.mp hnet
          by_cases hr : r + 1 = w.net.started
          · exact inv_own accept hinv hr hn
          · obtain ⟨hc, hret⟩ := hok.resolve_left hr
            exact inv_late accept hinv hlt hr hc hret hn
        · exact absurd hnet (by simp)
      | check expired =>
        rw [Net.step] at hnet
        split at hnet
        · next hframe =>
          obtain rfl := Option.some.inj hnet
          have hret := (hinv.frames r (List.mem_of_head? hframe)).2
          refine inv_check accept hinv (hok.resolve_right fun hlate => ?_) hframe expired
          rw [hret] at hlate
          exact absurd hlate.2 (by simp)
        · exact absurd hnet (by simp)

/-- **A call is what it would be alone**: what it hands over and what it returns
come from the events of its own connection, in every run whose events are
exclusive. -/
theorem requests_separate {w : Watched}
    (h : (requestSystem accept).ReachableWhen Exclusive w) {r : Nat} (hr : r < w.net.started) :
    ∃ q, w.alone r = some q ∧ w.net.http.user r = q.http.user r ∧
      w.net.returned r = q.returned := by
  obtain ⟨q, hq, hp⟩ := (inv_reachable accept h).paired r hr
  exact ⟨q, hq, hp.handed.symm, hp.returned.symm⟩

/-- A name that the cache has, and a server that answers. -/
def cachedStart : Start Unit := ⟨some (ascii "http://h/"), some (), .found 1, ⟨true, errOk⟩⟩

/-- A head with no fields. -/
def bareHead : List UInt8 := ascii "HTTP/1.1 200 OK\r\n\r\n"

/-- Two downloads, one after the other. The first server closes late. -/
def twoDownloads : List Label :=
  [.start cachedStart, .on 0 (.callback (.connected errOk errOk)),
    .on 0 (.callback (.received [bareHead, ascii "a"] errOk)), .on 0 (.callback .closed),
    .on 0 (.check false), .start cachedStart, .on 1 (.callback (.connected errOk errOk)),
    .on 1 (.callback (.received [bareHead ++ ascii "b"] errOk)), .on 1 (.callback .closed),
    .on 1 (.check false)]

theorem twoDownloads_separate :
    ∃ w q, (requestSystem fun _ _ _ => true).ReachableWhen Exclusive w ∧ w.alone 1 = some q ∧
      q.http.user 1 = [ascii "b"] ∧ w.net.http.user 1 = q.http.user 1 ∧
      w.net.returned 1 = q.returned := by
  have hrun : (LTS.exec (Watched.step fun _ _ _ => true) Exclusive Watched.init
      twoDownloads).map (fun w => (w.net.started, w.net.http.user 1)) = some (2, [ascii "b"]) := by
    decide +kernel
  obtain ⟨w, hexec, hw⟩ := Option.map_eq_some_iff.mp hrun
  obtain ⟨hstarted, huser⟩ := Prod.mk.inj hw
  have hreach : (requestSystem fun _ _ _ => true).ReachableWhen Exclusive w :=
    (LTS.runs_exec hexec).reachableWhen (.init rfl)
  obtain ⟨q, hq, hhanded, hret⟩ :=
    requests_separate (fun _ _ _ => true) hreach (r := 1) (by rw [hstarted]; decide)
  exact ⟨w, q, hreach, hq, hhanded ▸ huser, hhanded, hret⟩

/-- The first caller refuses its first chunk and `http_get` returns, but the
connection stays. What its server sends next goes to the second caller. -/
def refusedDownload : List Label :=
  [.start cachedStart, .on 0 (.callback (.connected errOk errOk)),
    .on 0 (.callback (.received [bareHead, ascii "a"] errOk)), .on 0 (.check false),
    .start cachedStart, .on 1 (.callback (.connected errOk errOk)),
    .on 1 (.callback (.received [bareHead] errOk)),
    .on 0 (.callback (.received [ascii "foreign"] errOk))]

theorem refusedDownload_mixes :
    ∃ w q, (requestSystem fun r _ _ => r ≠ 0).Reachable w ∧ 1 < w.net.started ∧
      w.alone 1 = some q ∧ w.net.http.user 1 = [ascii "foreign"] ∧ q.http.user 1 = [] := by
  have hrun : (LTS.exec (Watched.step fun r _ _ => r ≠ 0) (fun _ _ => True) Watched.init
      refusedDownload).map (fun w =>
        (w.net.started, w.net.http.user 1, (w.alone 1).map fun q => q.http.user 1)) =
      some (2, [ascii "foreign"], some []) := by decide +kernel
  obtain ⟨w, hexec, hw⟩ := Option.map_eq_some_iff.mp hrun
  obtain ⟨hstarted, hw⟩ := Prod.mk.inj hw
  obtain ⟨huser, hw⟩ := Prod.mk.inj hw
  obtain ⟨q, hq, hlog⟩ := Option.map_eq_some_iff.mp hw
  exact ⟨w, q, (LTS.runs_exec hexec).reachableWhen (.init rfl), by rw [hstarted]; decide, hq, huser,
    hlog⟩

end PicoBLE.Network
