import PicoBLE.Network.HttpTermination
import PicoBLE.Network.HttpHead

/-!
# A response is taken exactly

With a callback that accepts everything, what a call returns and what it hands
over depend on the bytes of the response alone: not on how they are cut into
pbufs, and not on when the wait loop looks.
-/

namespace PicoBLE.Network

open CString

variable {κ σ : Type} (call : κ → List UInt8 → σ → Bool × σ)

/-- A callback that also keeps what it was handed. -/
def logged (cb : κ) (bytes : List UInt8) (user : σ × List (List UInt8)) :
    Bool × (σ × List (List UInt8)) :=
  ((call cb bytes user.1).1, ((call cb bytes user.1).2, user.2 ++ [bytes]))

/-! ## More bytes -/

/-- A segment brings what is still wanted of it. -/
theorem wanted_append (s q : List UInt8) : wanted s ++ fresh s q = wanted (s ++ q) := by
  have hpre : wanted s <+: wanted (s ++ q) := by
    have happ := splitHead_append [] s q
    unfold wanted
    cases hs : splitHead [] s with
    | none => exact List.nil_prefix
    | some r =>
      simp only [hs] at happ
      rw [happ]
      dsimp only
      unfold upTo
      split
      · exact List.prefix_append _ _
      · rw [List.take_append]
        exact List.prefix_append _ _
  rw [fresh, List.prefix_iff_eq_append.mp hpre]

/-- What has been decided stays so, and nothing more is wanted. -/
theorem verdict_append {s t : List UInt8} {r : HttpResult} (hv : verdict s = some r)
    (hl : ¬ TooLong s) (he : ¬ DeclaresEmpty s) :
    verdict (s ++ t) = some r ∧ wanted (s ++ t) = wanted s := by
  have happ := splitHead_append [] s t
  unfold verdict at hv ⊢
  unfold TooLong headLength at hl
  unfold DeclaresEmpty at he
  unfold wanted
  cases hs : splitHead [] s with
  | none =>
    simp only [hs] at hv hl
    rw [if_neg hl] at hv
    exact absurd hv (by simp)
  | some p =>
    obtain ⟨hd, b⟩ := p
    simp only [hs] at hv hl he happ
    rw [if_neg hl] at hv
    rw [happ]
    dsimp only
    rw [if_neg hl, parseContentLength_eq]
    cases hd' : declared hd with
    | none => rw [hd'] at hv; exact absurd hv (by simp)
    | some n =>
      simp only [hd'] at hv
      split at hv
      · next hn =>
        have hpos : n ≠ 0 := by
          rintro rfl
          rcases hn.2 with hst | hlt
          · exact he ⟨hst, hd'⟩
          · exact absurd hlt (Nat.lt_irrefl 0)
        have hlen : n ≤ (b ++ t).length := by rw [List.length_append]; omega
        dsimp only [Option.getD_some]
        rw [if_pos ⟨hlen, hn.2⟩, hv, upTo, upTo, if_neg hpos, if_neg hpos,
          List.take_append_of_le_length hn.1]
        exact ⟨rfl, rfl⟩
      · exact absurd hv (by simp)

/-- How far the bytes take a call whose callback accepts everything. -/
def arrived (s : List UInt8) : Progress :=
  match verdict s with
  | some r => .ended r (total s)
  | none => .reading s

/-- **A chain adds its bytes**, and hands over what is wanted of them, however
it is cut. -/
theorem receive_accepting (hacc : ∀ k bytes user, (call k bytes user).1 = true) (cb : κ)
    (chain : List (List UInt8)) {s : List UInt8} {user : σ × List (List UInt8)}
    (hv : verdict s = none) (hlog : user.2.flatten = wanted s)
    (hl : ¬ TooLong (s ++ chain.flatten)) (he : ¬ DeclaresEmpty (s ++ chain.flatten)) :
    (receive (logged call) (some cb) chain s user).1 = arrived (s ++ chain.flatten) ∧
      (receive (logged call) (some cb) chain s user).2.2.flatten = wanted (s ++ chain.flatten) := by
  induction chain generalizing s user with
  | nil =>
    rw [List.flatten_nil, List.append_nil, receive, arrived, hv]
    exact ⟨rfl, hlog⟩
  | cons q chain ih =>
    rw [List.flatten_cons, ← List.append_assoc] at hl he ⊢
    obtain ⟨user', hhand, hlog'⟩ : ∃ user', hand (logged call) (some cb) (fresh s q) user =
        (true, user') ∧ user'.2.flatten = wanted (s ++ q) := by
      have happ := wanted_append s q
      rw [hand]
      split
      · next hnil => rw [hnil, List.append_nil] at happ; exact ⟨user, rfl, hlog.trans happ⟩
      · refine ⟨(logged call cb (fresh s q) user).2, ?_, ?_⟩
        · rw [← hacc cb (fresh s q) user.1]; rfl
        · rw [← happ, ← hlog, logged, List.flatten_append, List.flatten_singleton]
    have hl' : ¬ TooLong (s ++ q) := fun hh => hl (hh.append _)
    have he' : ¬ DeclaresEmpty (s ++ q) := fun hh => he (hh.append _)
    rw [receive, hhand]
    dsimp only
    cases hv' : verdict (s ++ q) with
    | none => exact ih hv' hlog' hl he
    | some r =>
      obtain ⟨hv'', hw⟩ := verdict_append (t := chain.flatten) hv' hl' he'
      rw [arrived, hv'', total, total, hw]
      exact ⟨rfl, hlog'⟩

/-! ## A whole response -/

/-- What a response and the close decide. -/
def outcome (s : List UInt8) : HttpResult := (verdict s).getD (closeVerdict s)

/-- The call gets as far as the connection. -/
structure Start.Opens (s : Start κ) : Prop where
  url : (parseUrl s.url s.ctx).2 = true
  dns : s.dns ≠ .failed
  tcp : s.dns ≠ .inProgress → s.tcp = ⟨true, errOk⟩

/-- The segments of a response and the close. -/
def delivery (chains : List (List (List UInt8))) : List Callback :=
  chains.map (.received · errOk) ++ [.closed]

/-- The callbacks of a call whose response comes in these chains. -/
def Start.script (s : Start κ) (addr : Nat) (chains : List (List (List UInt8))) : List Callback :=
  match s.dns with
  | .inProgress =>
    .dns (some addr) ⟨true, errOk⟩ :: .connected errOk errOk :: delivery chains
  | _ => .connected errOk errOk :: delivery chains

/-- Where a call stands in the delivery of the response `S`: the callbacks still
to come, and what has been handed over. -/
inductive Stage (S : List UInt8) : List Callback → Session κ (σ × List (List UInt8)) → Prop where
  | lookup {s : Session κ (σ × List (List UInt8))} {addr : Nat}
      {chains : List (List (List UInt8))} :
      s.progress = .resolving → s.req.http.user.2 = [] → chains.flatten.flatten = S →
      Stage S (.dns (some addr) ⟨true, errOk⟩ :: .connected errOk errOk :: delivery chains) s
  | connect {s : Session κ (σ × List (List UInt8))} {chains : List (List (List UInt8))} :
      s.progress = .connecting → s.req.http.user.2 = [] → chains.flatten.flatten = S →
      Stage S (.connected errOk errOk :: delivery chains) s
  | deliver {s : Session κ (σ × List (List UInt8))} {got : List UInt8}
      {chains : List (List (List UInt8))} :
      s.progress = arrived got → s.req.http.user.2.flatten = wanted got →
      s.req.conn = ⟨false, .established⟩ → got ++ chains.flatten.flatten = S →
      Stage S (delivery chains) s
  | finish {s : Session κ (σ × List (List UInt8))} :
      s.progress = .ended (outcome S) (total S) → s.req.http.user.2.flatten = wanted S →
      Stage S [] s

/-- A call in step with its script. -/
structure Ready (cb : κ) (S : List UInt8) (cs : List Callback)
    (s : Session κ (σ × List (List UInt8))) : Prop where
  tracks : Tracks s.chunkCb s.req s.progress
  chunkCb : s.chunkCb = some cb
  stage : Stage S cs s

/-- A pass of the wait loop before the deadline only reads the flag. -/
theorem check_false (q : Request κ σ) :
    (q.check false).http = q.http ∧ (q.check false).conn = q.conn := by
  rw [Request.check]
  split
  · exact ⟨rfl, rfl⟩
  · rw [waitLoop]
    by_cases hc : q.http.ctx.complete = true
    · rw [if_pos hc]; exact ⟨rfl, rfl⟩
    · rw [if_neg hc]; exact ⟨rfl, rfl⟩

theorem ready_check {cb : κ} {S : List UInt8} {cs : List Callback}
    {s : Session κ (σ × List (List UInt8))} (h : Ready cb S cs s) (r : Nat) :
    ∃ s', s.step (logged call) r (.check false) = some s' ∧ Ready cb S cs s' := by
  obtain ⟨hhttp, hconn⟩ := check_false s.req
  have htracks : Tracks s.chunkCb (s.req.check false) s.progress := tracks_check h.tracks trivial
  refine ⟨_, rfl, htracks, h.chunkCb, ?_⟩
  rcases h.stage with ⟨hp, hu, hS⟩ | ⟨hp, hu, hS⟩ | ⟨hp, hu, hc, hS⟩ | ⟨hp, hu⟩
  · exact .lookup hp (hhttp ▸ hu) hS
  · exact .connect hp (hhttp ▸ hu) hS
  · exact .deliver hp (hhttp ▸ hu) (hconn ▸ hc) hS
  · exact .finish hp (hhttp ▸ hu)

/-- The step of a callback that can come. -/
theorem step_callback {s : Session κ σ} {c : Callback} {conn : Conn}
    (hn : s.req.conn.next c = some conn) (r : Nat) :
    s.step call r (.callback c) = some
      { s with
        req := { s.req with http := c.run call r s.req.http, conn := conn }
        progress := s.progress.next call s.chunkCb s.req.http.user c } := by
  rw [Session.step, Request.step, hn]
  rfl

theorem delivery_cons {c : Callback} {cs : List Callback} {chains : List (List (List UInt8))}
    (h : c :: cs = delivery chains) :
    (chains = [] ∧ c = .closed ∧ cs = []) ∨
    ∃ chain rest, chains = chain :: rest ∧ c = .received chain errOk ∧ cs = delivery rest := by
  cases chains with
  | nil =>
    obtain ⟨hc, hcs⟩ := List.cons.inj h
    exact .inl ⟨rfl, hc, hcs⟩
  | cons chain rest =>
    obtain ⟨hc, hcs⟩ := List.cons.inj h
    exact .inr ⟨chain, rest, rfl, hc, hcs⟩

/-- A chain arrives. -/
theorem received_arrived (hacc : ∀ k bytes user, (call k bytes user).1 = true) {cb : κ}
    {s : Session κ (σ × List (List UInt8))} {got : List UInt8} {chain : List (List UInt8)}
    (ht : Tracks s.chunkCb s.req s.progress) (hcb : s.chunkCb = some cb)
    (hp : s.progress = arrived got) (hu : s.req.http.user.2.flatten = wanted got)
    (hl : ¬ TooLong (got ++ chain.flatten)) (he : ¬ DeclaresEmpty (got ++ chain.flatten))
    (r : Nat) :
    s.progress.next (logged call) s.chunkCb s.req.http.user (.received chain errOk) =
        arrived (got ++ chain.flatten) ∧
      ((Callback.received chain errOk).run (logged call) r s.req.http).user.2.flatten =
        wanted (got ++ chain.flatten) := by
  have hl' : ¬ TooLong got := fun hh => hl (hh.append _)
  have he' : ¬ DeclaresEmpty got := fun hh => he (hh.append _)
  cases hv : verdict got with
  | none =>
    have hreading : s.progress = .reading got := by rw [hp, arrived, hv]
    rw [hreading] at ht ⊢
    obtain ⟨⟨c, hc, hccb, hctx⟩, hpend, -⟩ := ht
    have huser := (recvSegments_follows (logged call) hc chain hctx hpend hl he).2
    obtain ⟨hr1, hr2⟩ := receive_accepting call hacc cb chain hv hu hl he
    rw [hcb, Progress.next, if_neg (by simp), hr1, Callback.run, tcpRecvCb, if_neg (by simp),
      huser, hccb, hcb, hr2]
    exact ⟨rfl, rfl⟩
  | some code =>
    have hended : s.progress = .ended code (total got) := by rw [hp, arrived, hv]
    rw [hended] at ht ⊢
    obtain ⟨-, -, -, -, huser, -⟩ := Callback.run_complete (logged call) ht.1.complete r
      (.received chain errOk)
    obtain ⟨hv', hw⟩ := verdict_append (t := chain.flatten) hv hl' he'
    rw [huser, hw, arrived, hv', total, total, hw]
    exact ⟨rfl, hu⟩

theorem tcpConnectedCb_user (err write : ErrT) (h : Http κ σ) :
    (tcpConnectedCb err write h).user = h.user := by
  rw [tcpConnectedCb]
  split
  · rfl
  · rw [sendRequest]
    split
    · rfl
    · split <;> rfl

/-- The server closes. -/
theorem closed_outcome {s : Session κ (σ × List (List UInt8))} {got : List UInt8}
    (hp : s.progress = arrived got) :
    s.progress.next (logged call) s.chunkCb s.req.http.user .closed =
      .ended (outcome got) (total got) := by
  rw [hp, arrived, outcome]
  cases verdict got <;> rfl

/-- **A callback of the script** takes the call one stage on. -/
theorem ready_callback (hacc : ∀ k bytes user, (call k bytes user).1 = true) {cb : κ}
    {S : List UInt8} (hl : ¬ TooLong S) (he : ¬ DeclaresEmpty S) {c : Callback}
    {cs : List Callback} {s : Session κ (σ × List (List UInt8))} (h : Ready cb S (c :: cs) s)
    (r : Nat) :
    ∃ s', s.step (logged call) r (.callback c) = some s' ∧ Ready cb S cs s' := by
  obtain ⟨ht, hcb, hst⟩ := h
  generalize hcs : c :: cs = script at hst
  cases hst with
  | @lookup _ addr chains hp hu hS =>
    obtain ⟨rfl, rfl⟩ := List.cons.inj hcs
    have hconn : s.req.conn = ⟨true, .absent⟩ := by rw [hp] at ht; exact ht.2.2.2.1
    have hn : s.req.conn.next (.dns (some addr) ⟨true, errOk⟩) = some ⟨false, .connecting⟩ := by
      rw [hconn]; rfl
    have ht' := tracks_callback (logged call) ht r hn (.inl hp)
    refine ⟨_, step_callback (logged call) hn r, ht', hcb, .connect ?_ hu hS⟩
    dsimp only
    rw [hp]
    rfl
  | connect hp hu hS =>
    obtain ⟨rfl, rfl⟩ := List.cons.inj hcs
    have hconn : s.req.conn = ⟨false, .connecting⟩ := by rw [hp] at ht; exact ht.2.2.1
    have hn : s.req.conn.next (.connected errOk errOk) = some ⟨false, .established⟩ := by
      rw [hconn]; rfl
    have ht' := tracks_callback (logged call) ht r hn trivial
    have hgot : s.progress.next (logged call) s.chunkCb s.req.http.user
        (.connected errOk errOk) = arrived [] := by rw [hp]; rfl
    have huser : ((Callback.connected errOk errOk).run (logged call) r s.req.http).user.2.flatten =
        wanted [] := by
      rw [Callback.run, tcpConnectedCb_user, hu]
      rfl
    exact ⟨_, step_callback (logged call) hn r, ht', hcb, .deliver hgot huser rfl hS⟩
  | @deliver _ got chains hp hu hconn hS =>
    rcases delivery_cons hcs with ⟨rfl, rfl, rfl⟩ | ⟨chain, rest, rfl, rfl, rfl⟩
    · have hn : s.req.conn.next .closed = some ⟨false, .closing⟩ := by rw [hconn]; rfl
      have ht' := tracks_callback (logged call) ht r hn trivial
      rw [List.flatten_nil, List.flatten_nil, List.append_nil] at hS
      subst hS
      exact ⟨_, step_callback (logged call) hn r, ht', hcb, .finish (closed_outcome call hp) hu⟩
    · have hn : s.req.conn.next (.received chain errOk) = some ⟨false, .established⟩ := by
        rw [hconn]; rfl
      rw [List.flatten_cons, List.flatten_append, ← List.append_assoc] at hS
      have hl' : ¬ TooLong (got ++ chain.flatten) := fun hh => hl (hS ▸ hh.append _)
      have he' : ¬ DeclaresEmpty (got ++ chain.flatten) := fun hh => he (hS ▸ hh.append _)
      have hkeeps : s.progress.Keeps chain := by
        rw [hp, arrived]
        cases verdict got with
        | none => exact ⟨hl', he'⟩
        | some code => trivial
      have ht' := tracks_callback (logged call) ht r hn fun _ => hkeeps
      obtain ⟨hp', hu'⟩ := received_arrived call hacc ht hcb hp hu hl' he' r
      exact ⟨_, step_callback (logged call) hn r, ht', hcb, .deliver hp' hu' rfl hS⟩
  | finish _ _ => exact absurd hcs (by simp)

/-- **The script, with passes of the wait loop anywhere in between.** -/
theorem ready_run (hacc : ∀ k bytes user, (call k bytes user).1 = true) {cb : κ}
    {S : List UInt8} (hl : ¬ TooLong S) (he : ¬ DeclaresEmpty S) (r : Nat) {es : List Event}
    (hpoll : .check true ∉ es) {s : Session κ (σ × List (List UInt8))}
    (h : Ready cb S (es.filterMap Event.callback?) s) :
    ∃ s', LTS.exec (Session.step (logged call) r) (fun _ _ => True) s es = some s' ∧
      Ready cb S [] s' := by
  induction es generalizing s with
  | nil => exact ⟨s, rfl, h⟩
  | cons e es ih =>
    have hpoll' : .check true ∉ es := fun hm => hpoll (List.mem_cons_of_mem _ hm)
    obtain ⟨s₁, hstep, h₁⟩ : ∃ s₁, s.step (logged call) r e = some s₁ ∧
        Ready cb S (es.filterMap Event.callback?) s₁ := by
      cases e with
      | callback c => exact ready_callback call hacc hl he h r
      | check expired =>
        cases expired with
        | false => exact ready_check call h r
        | true => exact absurd List.mem_cons_self hpoll
    obtain ⟨s', hexec, h'⟩ := ih hpoll' h₁
    refine ⟨s', ?_, h'⟩
    rw [LTS.exec, if_pos trivial, hstep]
    exact hexec

theorem startConnect_user (r : Nat) (tcp : TcpOpen) (h : Http κ σ) :
    (startConnect r tcp h).user = h.user := by
  rw [startConnect]
  split
  · dsimp only
    split <;> rfl
  · rfl

theorem httpGet_user (r : Nat) (s : Start κ) (user : σ) : (httpGet r s user).1.user = user := by
  rw [httpGet]
  split
  · rfl
  · split
    · exact startConnect_user _ _ _
    · rfl
    · rfl

theorem ready_start {start : Start κ} {cb : κ} (hcb : start.chunkCb = some cb)
    (hopen : start.Opens) (addr : Nat) {chains : List (List (List UInt8))} {S : List UInt8}
    (hS : chains.flatten.flatten = S) (r : Nat) (user : σ) :
    Ready cb S (start.script addr chains) (Session.start r start (user, [])) := by
  have huser : (Session.start r start (user, ([] : List (List UInt8)))).req.http.user.2 = [] :=
    congrArg Prod.snd (httpGet_user r start (user, []))
  refine ⟨tracks_start r start _, hcb, ?_⟩
  rw [Start.script]
  cases hd : start.dns with
  | inProgress =>
    have hp : start.progress = .resolving := by
      rw [Start.progress, if_pos hopen.url, hd]
    exact .lookup hp huser hS
  | found a =>
    have hp : start.progress = .connecting := by
      rw [Start.progress, if_pos hopen.url, hd, hopen.tcp (by rw [hd]; simp)]
      rfl
    exact .connect hp huser hS
  | failed => exact absurd hd hopen.dns

/-- A session is its request with the progress beside it. -/
theorem exec_req {r : Nat} {es : List Event} {s s' : Session κ σ}
    (h : LTS.exec (Session.step call r) (fun _ _ => True) s es = some s') :
    LTS.exec (Request.step call r) (fun _ _ => True) s.req es = some s'.req := by
  induction es generalizing s with
  | nil => rw [← Option.some.inj h, LTS.exec]
  | cons e es ih =>
    rw [LTS.exec, if_pos trivial] at h
    obtain ⟨s₁, hs, h⟩ := Option.bind_eq_some_iff.mp h
    obtain ⟨q, hq, rfl⟩ := Option.map_eq_some_iff.mp hs
    rw [LTS.exec, if_pos trivial, hq]
    exact ih h

/-- What the wait loop returns after the script. -/
theorem ready_returned {cb : κ} {S : List UInt8} {s : Session κ (σ × List (List UInt8))}
    (h : Ready cb S [] s) :
    (s.req.check false).returned = some (outcome S, some (total S)) ∧
      (s.req.check false).http.user.2.flatten = wanted S := by
  obtain ⟨hhttp, -⟩ := check_false s.req
  generalize hcs : ([] : List Callback) = cs at h
  rcases h with ⟨ht, hcb, hst⟩
  cases hst with
  | lookup | connect => exact absurd hcs (by simp)
  | @deliver _ _ chains => exact absurd hcs (by simp [delivery])
  | finish hp hu =>
    have hc := ht.consistent
    refine ⟨?_, hhttp ▸ hu⟩
    rw [hp] at ht
    rcases ht.2.2 with hret | hret
    · exact hc.stops _ _ false hp hret
    · rw [Request.check, if_pos (by rw [hret]; rfl), hret]

/-! ## Well-formed responses -/

/-- The length that a head declares is not 0. -/
theorem ResponseHead.length_pos (hd : ResponseHead) {n : Nat} (h : hd.length = some n) : 0 < n := by
  have hdeclares := hd.declares
  rw [h] at hdeclares
  cases hdeclares with
  | line _ _ _ l => exact l.pos

variable (hd : ResponseHead) (b : List UInt8)

theorem splitHead_bytes : splitHead [] (hd.bytes ++ b) = some (hd.bytes, b) :=
  splitHead_head hd.isHead b

theorem not_tooLong (h : hd.bytes.length ≤ hdrMax) : ¬ TooLong (hd.bytes ++ b) := by
  rw [TooLong, headLength, splitHead_bytes]
  exact Nat.not_lt_of_le h

theorem not_declaresEmpty : ¬ DeclaresEmpty (hd.bytes ++ b) := by
  rw [DeclaresEmpty, splitHead_bytes]
  rintro ⟨-, h0⟩
  rw [hd.declared_bytes] at h0
  exact absurd (hd.length_pos h0) (Nat.lt_irrefl 0)

theorem wanted_bytes : wanted (hd.bytes ++ b) = hd.body b := by
  rw [wanted, splitHead_bytes]
  dsimp only
  rw [parseContentLength_eq, hd.declared_bytes, ResponseHead.body]
  cases hn : hd.length with
  | none => rfl
  | some n => exact if_neg (Nat.pos_iff_ne_zero.mp (hd.length_pos hn))

/-- What a response decides, in terms of its head. -/
theorem outcome_bytes (h : hd.bytes.length ≤ hdrMax) :
    outcome (hd.bytes ++ b) =
      if hd.Success then if hd.Whole b then .ok else .errAborted else .errHttpStatus := by
  rw [outcome, verdict, closeVerdict, splitHead_bytes]
  dsimp only
  rw [if_neg (Nat.not_lt_of_le h), hd.parseStatus_bytes, hd.declared_bytes]
  cases hn : hd.length with
  | none =>
    have hwhole : hd.Whole b := by rw [ResponseHead.Whole, hn]; simp
    by_cases hs : hd.Success <;> simp [hs, hwhole]
  | some n =>
    have hpos := hd.length_pos hn
    have hwhole : hd.Whole b ↔ n ≤ b.length := by rw [ResponseHead.Whole, hn]; simp
    by_cases hs : hd.Success <;> by_cases hb : n ≤ b.length <;> simp [hs, hb, hwhole, hpos]

/-- **A response is taken exactly.** Cut into any chains of any segments, with
passes of the wait loop anywhere, it is a success when the status is 2xx and the
body is whole, and then the caller has been handed that body. -/
theorem body_exact (hacc : ∀ k bytes user, (call k bytes user).1 = true)
    (h : hd.bytes.length ≤ hdrMax) (r : Nat) {start : Start κ} {cb : κ}
    (hcb : start.chunkCb = some cb) (hopen : start.Opens) (addr : Nat)
    {chains : List (List (List UInt8))} (hchains : chains.flatten.flatten = hd.bytes ++ b)
    {es : List Event} (hpoll : .check true ∉ es)
    (hes : es.filterMap Event.callback? = start.script addr chains) (user : σ) :
    ∃ q code out,
      LTS.exec (Request.step (logged call) r) (fun _ _ => True)
        (Request.start r start (user, [])) (es ++ [.check false]) = some q ∧
      q.returned = some (code, some out) ∧
      (code = .ok ↔ hd.Success ∧ hd.Whole b) ∧
      (code = .ok → q.http.user.2.flatten = hd.body b ∧ out = (hd.body b).length % 2 ^ 32) ∧
      (hd.Success → ¬ hd.Whole b → code = .errAborted) ∧
      (¬ hd.Success → code = .errHttpStatus) := by
  have hl := not_tooLong hd b h
  have he := not_declaresEmpty hd b
  have hstart : Ready cb (hd.bytes ++ b) (es.filterMap Event.callback?)
      (Session.start r start (user, [])) := hes ▸ ready_start hcb hopen addr hchains r user
  obtain ⟨s, hexec, hready⟩ := ready_run call hacc hl he r hpoll hstart
  obtain ⟨hret, hlog⟩ := ready_returned hready
  rw [wanted_bytes] at hlog
  refine ⟨s.req.check false, outcome (hd.bytes ++ b), total (hd.bytes ++ b), ?_, hret, ?_, ?_, ?_,
    ?_⟩
  · exact LTS.exec_append (exec_req (logged call) hexec) rfl
  · rw [outcome_bytes hd b h]
    by_cases hs : hd.Success <;> by_cases hw : hd.Whole b <;> simp [hs, hw]
  · rw [total, wanted_bytes]
    exact fun _ => ⟨hlog, rfl⟩
  · intro hs hw
    rw [outcome_bytes hd b h, if_pos hs, if_neg hw]
  · intro hs
    rw [outcome_bytes hd b h, if_neg hs]

/-- The field that declares a length. -/
def lengthLine (n : List UInt8) : List UInt8 := ascii "Content-Length: " ++ n

theorem unbroken_of_notMem {s : List UInt8} (h : 13 ∉ s) : ¬ crlf <:+: s := by
  have hnil : ¬ crlf <:+: ([] : List UInt8) := by decide
  have happend := ResponseHead.unbroken_append h hnil
  rwa [List.append_nil] at happend

theorem notMem_lengthLine {digits : List UInt8} (h : digits.all isDigit = true) {c : UInt8}
    (hc : isDigit c = false) (hname : c ∉ ascii "Content-Length: ") : c ∉ lengthLine digits := by
  rw [lengthLine, List.mem_append, not_or]
  exact ⟨hname, fun hm => ResponseHead.isDigit_ne (List.all_eq_true.mp h c hm) hc rfl⟩

theorem lengthLine_isLine {digits : List UInt8} (h : digits.all isDigit = true) :
    IsLine (lengthLine digits) :=
  ⟨List.append_ne_nil_of_left_ne_nil (by decide) _,
    unbroken_of_notMem (notMem_lengthLine h (by decide) (by decide))⟩

/-- A head with this one field. -/
def lengthHead (code reason digits : List UInt8) (n : Nat)
    (hcode : code.length = 3 ∧ code.all isDigit = true)
    (hreason : reason.head? = some 32 ∧ 13 ∉ reason ∧ 0 ∉ reason)
    (hdigits : digits ≠ [] ∧ digits.all isDigit = true)
    (hn : decimal digits = n ∧ 0 < n ∧ n < 2 ^ 32) : ResponseHead where
  version := 49
  code := code
  reason := reason
  fields := [lengthLine digits]
  length := some n
  version_ok := by decide
  code_length := hcode.1
  code_ok := hcode.2
  reason_ok := .inr hreason.1
  reason_unbroken := unbroken_of_notMem hreason.2.1
  fields_ok f hf := List.mem_singleton.mp hf ▸ lengthLine_isLine hdigits.2
  no_nul := ⟨hreason.2.2, fun _ hf =>
    List.mem_singleton.mp hf ▸ notMem_lengthLine hdigits.2 (by decide) (by decide)⟩
  declares := @Declares.line _ [] [] (lengthLine digits) n rfl (by simp) (by simp)
    ⟨ascii "Content-Length:", [32], digits, [], by rw [List.append_nil]; rfl, by decide, by decide,
      by decide, hdigits.1, hdigits.2, rfl, hn.1, hn.2.1, hn.2.2⟩

theorem code200_ok : (ascii "200").length = 3 ∧ (ascii "200").all isDigit = true := by decide

theorem reasonOk_ok :
    (ascii " OK").head? = some 32 ∧ 13 ∉ ascii " OK" ∧ 0 ∉ ascii " OK" := by decide

def twoBytes : ResponseHead :=
  lengthHead (ascii "200") (ascii " OK") (ascii "2") 2 code200_ok reasonOk_ok (by decide)
    (by decide)

def notFound : ResponseHead :=
  lengthHead (ascii "404") (ascii " Not Found") (ascii "5") 5 (by decide) (by decide) (by decide)
    (by decide)

theorem plainStart_opens : plainStart.Opens := ⟨by decide, by decide, fun h => absurd rfl h⟩

/-- Three bytes after a head that declares two, cut inside the blank line. -/
def twoBytesChains : List (List (List UInt8)) :=
  [[twoBytes.bytes.take 35, twoBytes.bytes.drop 35 ++ ascii "h"], [ascii "i!"]]

def twoBytesEvents : List Event :=
  [.check false, .callback (.dns (some 1) ⟨true, errOk⟩), .callback (.connected errOk errOk),
    .callback (.received (twoBytesChains.getD 0 []) errOk), .check false,
    .callback (.received (twoBytesChains.getD 1 []) errOk), .callback .closed]

theorem twoBytes_exact :
    ∃ q out, LTS.exec (Request.step (logged acceptAll) 0) (fun _ _ => True)
        (Request.start 0 plainStart ((), [])) (twoBytesEvents ++ [.check false]) = some q ∧
      q.returned = some (.ok, some out) ∧ q.http.user.2.flatten = ascii "hi" := by
  have hbytes : twoBytesChains.flatten.flatten = twoBytes.bytes ++ ascii "hi!" := by decide
  have hpoll : .check true ∉ twoBytesEvents := by decide
  have hes : twoBytesEvents.filterMap Event.callback? = plainStart.script 1 twoBytesChains := rfl
  obtain ⟨q, code, out, hexec, hret, hiff, hok, -, -⟩ := body_exact acceptAll twoBytes
    (ascii "hi!") (fun _ _ _ => rfl) (by decide) 0 rfl plainStart_opens 1 hbytes hpoll hes ()
  have hcode : code = .ok := hiff.mpr ⟨by decide, by decide⟩
  subst hcode
  exact ⟨q, out, hexec, hret, (hok rfl).1⟩

/-- The body of an error page that is cut short: `http_get` reports the status. -/
theorem notFound_breaks :
    ¬ notFound.Whole (ascii "ab") ∧
    ∃ q, LTS.exec (Request.step (logged acceptAll) 0) (fun _ _ => True)
        (Request.start 0 plainStart ((), []))
        [.callback (.dns (some 1) ⟨true, errOk⟩), .callback (.connected errOk errOk),
          .callback (.received [notFound.bytes ++ ascii "ab"] errOk), .callback .closed,
          .check false] = some q ∧
      q.returned = some (.errHttpStatus, some 2) ∧ HttpResult.errHttpStatus ≠ .errAborted := by
  have hrun : (LTS.exec (Request.step (logged acceptAll) 0) (fun _ _ => True)
      (Request.start 0 plainStart ((), []))
      [.callback (.dns (some 1) ⟨true, errOk⟩), .callback (.connected errOk errOk),
        .callback (.received [notFound.bytes ++ ascii "ab"] errOk), .callback .closed,
        .check false]).map (·.returned) = some (some (.errHttpStatus, some 2)) := by
    decide +kernel
  obtain ⟨q, hexec, hret⟩ := Option.map_eq_some_iff.mp hrun
  exact ⟨by decide, q, hexec, hret, by decide⟩

end PicoBLE.Network
