import PicoBLE.Network.HttpGet

/-!
# What a stream of response bytes means

The context after some response bytes is computed here from the bytes alone:
they split at the first blank line into a head and a body, and the head says how
much of the body is wanted. Each segment takes the context for the bytes before
it to the context for the bytes with it, so how the stream is cut makes no
difference.
-/

namespace PicoBLE.Network

open CString

variable {κ σ : Type}

/-! ## Head and body -/

/-- Split at the first `CR LF CR LF`, which the head keeps. `seen` has been read
without finding one. -/
def splitHead (seen : List UInt8) : List UInt8 → Option (List UInt8 × List UInt8)
  | [] => none
  | b :: rest =>
    if crlfCrlf <:+ seen ++ [b] then some (seen ++ [b], rest) else splitHead (seen ++ [b]) rest

/-- Splitting goes on where it stopped. -/
theorem splitHead_append (seen s t : List UInt8) :
    splitHead seen (s ++ t) =
      match splitHead seen s with
      | some (hd, b) => some (hd, b ++ t)
      | none => splitHead (seen ++ s) t := by
  induction s generalizing seen with
  | nil => rw [List.nil_append, List.append_nil, splitHead]
  | cons c s ih =>
    rw [List.cons_append, splitHead, splitHead]
    split
    · rfl
    · rw [ih, List.append_assoc, List.singleton_append]

/-- The head is at least one byte of what follows, and the body the rest. -/
theorem splitHead_some {seen s hd b : List UInt8} (h : splitHead seen s = some (hd, b)) :
    ∃ t, t ≠ [] ∧ hd = seen ++ t ∧ s = t ++ b := by
  induction s generalizing seen with
  | nil => exact absurd h (by simp [splitHead])
  | cons c s ih =>
    rw [splitHead] at h
    split at h
    · obtain ⟨rfl, rfl⟩ := Prod.mk.inj (Option.some.inj h)
      exact ⟨[c], List.cons_ne_nil _ _, rfl, rfl⟩
    · obtain ⟨t, -, rfl, rfl⟩ := ih h
      exact ⟨c :: t, List.cons_ne_nil _ _, by rw [List.append_assoc, List.singleton_append], rfl⟩

/-- The bytes up to the first `CR LF CR LF`: it ends them, and it does not stand
anywhere before. -/
structure IsHead (hd : List UInt8) : Prop where
  ends : crlfCrlf <:+ hd
  first : ∀ p, p <+: hd → crlfCrlf <:+ p → p = hd

/-- A head followed by anything splits there. -/
theorem splitHead_head {hd : List UInt8} (h : IsHead hd) (b : List UInt8) :
    splitHead [] (hd ++ b) = some (hd, b) := by
  have key : ∀ seen rest, seen ++ rest = hd → rest ≠ [] →
      splitHead seen (rest ++ b) = some (hd, b) := by
    intro seen rest hr hne
    induction rest generalizing seen with
    | nil => exact absurd rfl hne
    | cons c rest ih =>
      rw [List.cons_append, splitHead]
      have hc : seen ++ [c] ++ rest = hd := by rw [← hr, List.append_assoc, List.singleton_append]
      split
      · next hs =>
        have hall : seen ++ [c] = hd := h.first _ ⟨rest, hc⟩ hs
        have hnil : rest = [] := by rw [← hall] at hc; simpa using hc
        rw [hall, hnil, List.nil_append]
      · next hs =>
        refine ih _ hc fun hnil => hs ?_
        rw [hnil, List.append_nil] at hc
        exact hc ▸ h.ends
  refine key [] hd rfl fun hnil => ?_
  have hlen := h.ends.length_le
  rw [hnil] at hlen
  exact absurd hlen (by decide)

/-! ## The declared length -/

/-- The string from the start of each header line on, from a line break on. -/
def lineStarts : Nat → List UInt8 → List (List UInt8)
  | 0, _ => []
  | fuel + 1, brk =>
    if brk.drop 2 = [] ∨ crlf <+: brk.drop 2 then []
    else
      brk.drop 2 ::
        match strstr crlf (brk.drop 2) with
        | some brk => lineStarts fuel brk
        | none => []

/-- The number on a `content-length:` line, if there is one. -/
def lineLength (line : List UInt8) : Option Nat :=
  if hasNumber ((line.drop 15).dropWhile isBlank) then some (lineValue line)
  else none

/-- The length after one more line. -/
def stepLength (d : Option Nat) (line : List UInt8) : Option Nat :=
  if namesLength line then lineLength line else d

/-- The length that a response declares: the number on its last
`content-length:` line. -/
def declared (hd : List UInt8) : Option Nat :=
  match strstr crlf (ofBuffer hd) with
  | some brk => (lineStarts hd.length brk).foldl stepLength none
  | none => none

theorem lineLength_getD (line : List UInt8) : (lineLength line).getD 0 = lineValue line := by
  unfold lineLength
  split
  · rfl
  · next h => rw [lineValue, strtoul_eq_zero (by simpa using h)]; rfl

/-- The loop of the parser runs through the line starts. -/
theorem scanLines_foldl (fuel : Nat) (brk : List UInt8) (n : Nat) :
    scanLines fuel brk n = (lineStarts fuel brk).foldl
      (fun n line => if namesLength line then lineValue line else n)
      n := by
  induction fuel generalizing brk n with
  | zero => rfl
  | succ fuel ih =>
    rw [scanLines, lineStarts]
    dsimp only
    split
    · rfl
    · rw [List.foldl_cons]
      cases strstr crlf (brk.drop 2) with
      | some brk => exact ih _ _
      | none => rfl

/-- What the parser stores is the declared length, and 0 without one. -/
theorem parseContentLength_eq (hd : List UInt8) :
    parseContentLength hd = (declared hd).getD 0 := by
  have key : ∀ (lines : List (List UInt8)) (d : Option Nat),
      lines.foldl (fun n line => if namesLength line then lineValue line else n) (d.getD 0) =
        (lines.foldl stepLength d).getD 0 := by
    intro lines d
    induction lines generalizing d with
    | nil => rfl
    | cons line lines ih =>
      rw [List.foldl_cons, List.foldl_cons, ← ih, stepLength]
      split
      · rw [lineLength_getD]
      · rfl
  unfold parseContentLength declared
  cases strstr crlf (ofBuffer hd) with
  | some brk => exact (scanLines_foldl _ _ _).trans (key _ none)
  | none => rfl

/-! ## Body bytes -/

/-- How much of a body is wanted: no more than the length, if one is known. -/
def upTo (contentLength : Nat) (b : List UInt8) : List UInt8 :=
  if contentLength = 0 then b else b.take contentLength

/-- The body bytes wanted from a stream. -/
def wanted (s : List UInt8) : List UInt8 :=
  match splitHead [] s with
  | none => []
  | some (hd, b) => upTo (parseContentLength hd) b

/-- The body bytes that the segment `q` brings. -/
def fresh (s q : List UInt8) : List UInt8 := (wanted (s ++ q)).drop (wanted s).length

/-- The length of the head, as far as it has come. -/
def headLength (s : List UInt8) : Nat :=
  match splitHead [] s with
  | none => s.length
  | some (hd, _) => hd.length

/-- The head does not fit the header buffer. -/
def TooLong (s : List UInt8) : Prop := hdrMax < headLength s

instance (s : List UInt8) : Decidable (TooLong s) := inferInstanceAs (Decidable (_ < _))

/-- More body is expected. -/
def Pending (s : List UInt8) : Prop :=
  match splitHead [] s with
  | none => True
  | some (hd, b) => parseContentLength hd = 0 ∨ b.length < parseContentLength hd

/-! ## The context of a stream -/

/-- A context that has received nothing. -/
structure Ctx.Blank (c : Ctx κ) : Prop where
  hdrBuf : c.hdrBuf = []
  contentLength : c.contentLength = 0
  bodyReceived : c.bodyReceived = 0
  statusOk : c.statusOk = false
  result : c.result = .errInternal
  complete : c.complete = false

/-- A context in which the response starts. -/
structure Ctx.Listening (c : Ctx κ) : Prop extends c.Blank where
  state : c.state = .headers

/-- The context after the bytes `s`, where it has not completed. -/
def Ctx.readTo (c : Ctx κ) (s : List UInt8) : Ctx κ :=
  match splitHead [] s with
  | none => { c with hdrBuf := s }
  | some (hd, b) =>
    { c with
      state := .body
      hdrBuf := hd
      statusOk := parseStatus hd
      contentLength := parseContentLength hd
      bodyReceived := (upTo (parseContentLength hd) b).length % 2 ^ 32 }

theorem Ctx.readTo_nil {c : Ctx κ} (h : c.Listening) : c.readTo [] = c := by
  have hs : splitHead [] [] = none := rfl
  rw [readTo, hs, ← h.hdrBuf]

theorem Ctx.readTo_complete {c : Ctx κ} (h : c.Listening) (s : List UInt8) :
    (c.readTo s).complete = false := by
  unfold readTo; split <;> exact h.complete

/-! ## Feeding the header -/

/-- No blank line yet, and room for what came. -/
theorem feedHeaderBytes_none {ctx : Ctx κ} {data : List UInt8} (hs : ctx.state = .headers)
    (h : splitHead ctx.hdrBuf data = none) (hl : (ctx.hdrBuf ++ data).length ≤ hdrMax) :
    feedHeaderBytes ctx data = ({ ctx with hdrBuf := ctx.hdrBuf ++ data }, []) := by
  induction data generalizing ctx with
  | nil => rw [feedHeaderBytes, List.append_nil]
  | cons b data ih =>
    rw [splitHead] at h
    rw [List.length_append, List.length_cons] at hl
    by_cases hb : crlfCrlf <:+ ctx.hdrBuf ++ [b]
    · rw [if_pos hb] at h
      exact absurd h (by simp)
    · rw [if_neg hb] at h
      have hl' : (ctx.hdrBuf ++ [b] ++ data).length ≤ hdrMax := by
        simp only [List.length_append, List.length_singleton]; omega
      have hfeed : feedHeaderBytes { ctx with hdrBuf := ctx.hdrBuf ++ [b] } data = _ := ih hs h hl'
      rw [feedHeaderBytes, if_pos hs, if_pos (by omega), if_neg hb, hfeed]
      simp only [List.append_assoc, List.singleton_append]

/-- The blank line comes while there is room. -/
theorem feedHeaderBytes_some {ctx : Ctx κ} {data hd rest : List UInt8} (hs : ctx.state = .headers)
    (h : splitHead ctx.hdrBuf data = some (hd, rest)) (hl : hd.length ≤ hdrMax) :
    feedHeaderBytes ctx data =
      ({ ctx with
          state := .body
          hdrBuf := hd
          statusOk := parseStatus hd
          contentLength := parseContentLength hd }, rest) := by
  induction data generalizing ctx with
  | nil => exact absurd h (by simp [splitHead])
  | cons b data ih =>
    have hlen : ctx.hdrBuf.length < hdrMax := by
      obtain ⟨t, ht, rfl, -⟩ := splitHead_some h
      have hpos : 0 < t.length := List.length_pos_iff.mpr ht
      rw [List.length_append] at hl
      omega
    rw [splitHead] at h
    by_cases hb : crlfCrlf <:+ ctx.hdrBuf ++ [b]
    · rw [if_pos hb] at h
      obtain ⟨rfl, rfl⟩ := Prod.mk.inj (Option.some.inj h)
      rw [feedHeaderBytes, if_pos hs, if_pos hlen, if_pos hb, parseResponseHeaders]
    · rw [if_neg hb] at h
      have hfeed : feedHeaderBytes { ctx with hdrBuf := ctx.hdrBuf ++ [b] } data = _ := ih hs h
      rw [feedHeaderBytes, if_pos hs, if_pos hlen, if_neg hb, hfeed]

/-! ## Taking the body -/

theorem scanLines_lt (fuel : Nat) (brk : List UInt8) {n : Nat} (hn : n < 2 ^ 32) :
    scanLines fuel brk n < 2 ^ 32 := by
  induction fuel generalizing brk n with
  | zero => exact hn
  | succ fuel ih =>
    have hline : (if namesLength (brk.drop 2) then
        lineValue (brk.drop 2) else n) < 2 ^ 32 := by
      split
      · exact strtoul_lt _
      · exact hn
    rw [scanLines]
    dsimp only
    split
    · exact hn
    · split
      · exact ih _ hline
      · exact hline

/-- A length that the parser finds fits a `size_t`. -/
theorem parseContentLength_lt (hd : List UInt8) : parseContentLength hd < 2 ^ 32 := by
  unfold parseContentLength
  split
  · exact scanLines_lt _ _ (Nat.two_pow_pos 32)
  · exact Nat.two_pow_pos 32

variable (call : κ → List UInt8 → σ → Bool × σ)

/-- Handing bytes to the caller's callback: nothing is not handed over, and
without a callback everything is accepted. -/
def hand (cb : Option κ) (bytes : List UInt8) (user : σ) : Bool × σ :=
  match cb with
  | some cb => if bytes = [] then (true, user) else call cb bytes user
  | none => (true, user)

theorem hand_nil (cb : Option κ) (user : σ) : hand call cb [] user = (true, user) := by
  unfold hand; split <;> rfl

theorem upTo_nil (n : Nat) : upTo n [] = [] := by
  unfold upTo; split <;> simp

/-- What a segment adds to the bytes wanted, while more is expected. -/
theorem upTo_append {n : Nat} {b q : List UInt8} (hp : n = 0 ∨ b.length < n) :
    upTo n b = b ∧ upTo n (b ++ q) = b ++ q.take (if n = 0 then q.length else n - b.length) := by
  unfold upTo
  rcases hp with rfl | hp
  · rw [if_pos rfl, if_pos rfl, if_pos rfl, List.take_length]
    exact ⟨rfl, rfl⟩
  · rw [if_neg (by omega), if_neg (by omega), if_neg (by omega), List.take_append,
      List.take_of_length_le (by omega)]
    exact ⟨rfl, rfl⟩

/-- `left` is what is still wanted. -/
theorem bodyTake_eq {ctx : Ctx κ} {len : Nat} (hn : ctx.contentLength < 2 ^ 32)
    (hr : ctx.bodyReceived = len % 2 ^ 32)
    (hp : ctx.contentLength = 0 ∨ len < ctx.contentLength) (k : Nat) :
    bodyTake ctx k = if ctx.contentLength = 0 then k else min k (ctx.contentLength - len) := by
  unfold bodyTake
  rcases hp with hz | hlt
  · rw [if_neg (by omega), if_pos hz]
  · have hlen : len % 2 ^ 32 = len := Nat.mod_eq_of_lt (by omega)
    have hleft : (ctx.contentLength + 2 ^ 32 - len) % 2 ^ 32 = ctx.contentLength - len := by
      rw [show ctx.contentLength + 2 ^ 32 - len = ctx.contentLength - len + 2 ^ 32 by omega,
        Nat.add_mod_right, Nat.mod_eq_of_lt (by omega)]
    rw [if_pos (by omega), if_neg (by omega), hr, hlen, hleft]

/-- **The body part of the segment loop** hands over and counts what the segment
adds to the bytes wanted. -/
theorem recvBody_upTo {h : Http κ σ} {b q : List UInt8} (hs : h.ctx.state = .body)
    (hn : h.ctx.contentLength < 2 ^ 32)
    (hr : h.ctx.bodyReceived = (upTo h.ctx.contentLength b).length % 2 ^ 32)
    (hp : h.ctx.contentLength = 0 ∨ b.length < h.ctx.contentLength) :
    recvBody call q h =
      match hand call h.ctx.chunkCb
        ((upTo h.ctx.contentLength (b ++ q)).drop (upTo h.ctx.contentLength b).length) h.user with
      | (true, user) =>
        ({ h with
            ctx := { h.ctx with
              bodyReceived :=
                (upTo h.ctx.contentLength (b ++ q)).length % 2 ^ 32 : Ctx κ }.endOfBody
            user := user }, true)
      | (false, user) => (markComplete .errAborted { h with user := user }, false) := by
  obtain ⟨hb, hbq⟩ := upTo_append (q := q) hp
  rw [hb] at hr
  rw [hb, hbq, List.drop_left]
  by_cases hq : q = []
  · -- no bytes: the loop does nothing, and the body is not at its end
    have hidle : ({ h.ctx with bodyReceived := b.length % 2 ^ 32 } : Ctx κ).endOfBody = h.ctx := by
      rw [← hr, Ctx.endOfBody, if_neg]
      rintro ⟨hpos, heq⟩
      rcases hp with hz | hlt
      · exact absurd hz (Nat.pos_iff_ne_zero.mp hpos)
      · have hfits : b.length % 2 ^ 32 = b.length := Nat.mod_eq_of_lt (by omega)
        simp only [hr, hfits] at heq
        omega
    rw [hq, List.take_nil, hand_nil, List.append_nil, hidle, recvBody, if_neg]
    exact fun hh => absurd hh.2 (Nat.lt_irrefl 0)
  · have hlen : 0 < q.length := List.length_pos_iff.mpr hq
    obtain ⟨take, htake⟩ : ∃ take, take = bodyTake h.ctx q.length := ⟨_, rfl⟩
    have heq := htake.trans (bodyTake_eq hn hr hp q.length)
    have hbytes : q.take (if h.ctx.contentLength = 0 then q.length
        else h.ctx.contentLength - b.length) = q.take take := by
      rw [List.take_eq_take_iff]; split at heq <;> split <;> omega
    have hpos : 0 < take ∧ take ≤ q.length := by split at heq <;> omega
    have hcount : countBody take h.ctx =
        ({ h.ctx with bodyReceived := (b ++ q.take take).length % 2 ^ 32 } : Ctx κ).endOfBody := by
      rw [countBody, hr, Nat.mod_add_mod, List.length_append, List.length_take,
        Nat.min_eq_left hpos.2]
    have hne : q.take take ≠ [] := by
      intro hnil
      have hl := congrArg List.length hnil
      rw [List.length_take, List.length_nil] at hl
      omega
    rw [hbytes, ← hcount, recvBody, if_pos ⟨hs, hlen⟩, takeBody, ← htake]
    cases hcb : h.ctx.chunkCb with
    | none => rfl
    | some cb =>
      dsimp only [hand]
      rcases hcall : call cb (q.take take) h.user with ⟨_ | _, user⟩ <;>
        simp only [if_pos hpos.1, if_neg hne]

/-! ## One segment -/

/-- **A segment takes the context of the bytes before it to the context of the
bytes with it**, unless the callback refuses what it brings. -/
theorem recvSegment_readTo {c : Ctx κ} (hc : c.Listening) {h : Http κ σ} {s q : List UInt8}
    (hctx : h.ctx = c.readTo s) (hp : Pending s) (hl : ¬ TooLong (s ++ q)) :
    recvSegment call q h =
      match hand call c.chunkCb (fresh s q) h.user with
      | (true, user) =>
        ({ h with ctx := (c.readTo (s ++ q)).endOfBody, user := user }, true)
      | (false, user) =>
        (markComplete .errAborted { h with
          ctx := { c.readTo (s ++ q) with bodyReceived := (wanted s).length % 2 ^ 32 }
          user := user }, false) := by
  obtain ⟨ctx, lastErr, user⟩ := h
  have hctx : ctx = c.readTo s := hctx
  subst hctx
  have happ := splitHead_append [] s q
  unfold TooLong headLength at hl
  unfold Pending at hp
  unfold fresh wanted
  cases hs : splitHead [] s with
  | some r =>
    -- the body has begun
    obtain ⟨hd, b⟩ := r
    simp only [hs] at happ hp
    have hread : c.readTo s = { c with
        state := .body
        hdrBuf := hd
        statusOk := parseStatus hd
        contentLength := parseContentLength hd
        bodyReceived := (upTo (parseContentLength hd) b).length % 2 ^ 32 } := by
      rw [Ctx.readTo, hs]
    rw [recvSegment, hread, if_neg (by simp),
      recvBody_upTo call rfl (parseContentLength_lt hd) rfl hp, happ, Ctx.readTo, happ]
  | none =>
    simp only [hs, List.nil_append] at happ
    have hread : c.readTo s = { c with hdrBuf := s } := by rw [Ctx.readTo, hs]
    cases hq : splitHead s q with
    | none =>
      -- the head goes on
      rw [hq] at happ
      simp only [happ] at hl
      have hfeed : feedHeaderBytes { c with hdrBuf := s } q = ({ c with hdrBuf := s ++ q }, []) :=
        feedHeaderBytes_none hc.state hq (Nat.le_of_not_lt hl)
      rw [recvSegment, hread, if_pos hc.state, hfeed, if_neg (by simp [hc.state]),
        recvBody, if_neg (by simp [hc.state]), happ, List.drop_nil, hand_nil, Ctx.readTo, happ,
        Ctx.endOfBody, if_neg (by simp [hc.contentLength])]
    | some r =>
      -- the head ends in this segment
      obtain ⟨hd, b⟩ := r
      rw [hq] at happ
      simp only [happ] at hl
      have hzero : c.bodyReceived = (upTo (parseContentLength hd) []).length % 2 ^ 32 := by
        rw [upTo_nil, hc.bodyReceived]; rfl
      have hfeed : feedHeaderBytes { c with hdrBuf := s } q = ({ c with
          state := .body
          hdrBuf := hd
          statusOk := parseStatus hd
          contentLength := parseContentLength hd }, b) :=
        feedHeaderBytes_some hc.state hq (Nat.le_of_not_lt hl)
      rw [recvSegment, hread, if_pos hc.state, hfeed, if_neg (by simp),
        recvBody_upTo call rfl (parseContentLength_lt hd) hzero (Nat.eq_zero_or_pos _), upTo_nil,
        happ, Ctx.readTo, happ]
      rw [hc.bodyReceived]
      rfl

/-! ## Where a response ends -/

/-- A 2xx response that declares an empty body. -/
def DeclaresEmpty (s : List UInt8) : Prop :=
  match splitHead [] s with
  | none => False
  | some (hd, _) => parseStatus hd = true ∧ declared hd = some 0

instance (s : List UInt8) : Decidable (DeclaresEmpty s) :=
  decidable_of_iff
    ((splitHead [] s).any (fun r => parseStatus r.1 && decide (declared r.1 = some 0)) = true) (by
      unfold DeclaresEmpty; cases splitHead [] s <;> simp)

/-- What the bytes received so far decide: the head is too long, or the declared
length has been received. -/
def verdict (s : List UInt8) : Option HttpResult :=
  match splitHead [] s with
  | none => if hdrMax < s.length then some .errParse else none
  | some (hd, b) =>
    if hdrMax < hd.length then some .errParse
    else
      match declared hd with
      | none => none
      | some n =>
        if n ≤ b.length ∧ (parseStatus hd = true ∨ 0 < n) then
          some (if parseStatus hd then .ok else .errHttpStatus)
        else none

/-- What the close decides when the bytes have not. -/
def closeVerdict (s : List UInt8) : HttpResult :=
  match splitHead [] s with
  | none => .errHttpStatus
  | some (hd, _) =>
    if parseStatus hd then if (declared hd).isSome then .errAborted else .ok else .errHttpStatus

/-- `*out_total` after the bytes `s`. -/
def total (s : List UInt8) : Nat := (wanted s).length % 2 ^ 32

/-- A head that is too long stays too long. -/
theorem TooLong.append {s : List UInt8} (h : TooLong s) (t : List UInt8) : TooLong (s ++ t) := by
  have happ := splitHead_append [] s t
  unfold TooLong headLength at h ⊢
  cases hs : splitHead [] s with
  | some r => simp only [hs] at h happ; simp only [happ]; exact h
  | none =>
    simp only [hs, List.nil_append] at h happ
    rw [happ]
    cases ht : splitHead s t with
    | none => simp only [List.length_append]; omega
    | some r =>
      obtain ⟨u, -, hu, -⟩ := splitHead_some ht
      simp only [hu, List.length_append]; omega

theorem DeclaresEmpty.append {s : List UInt8} (h : DeclaresEmpty s) (t : List UInt8) :
    DeclaresEmpty (s ++ t) := by
  have happ := splitHead_append [] s t
  unfold DeclaresEmpty at h ⊢
  cases hs : splitHead [] s with
  | some r => simp only [hs] at h happ; simp only [happ]; exact h
  | none => simp only [hs] at h

/-- A completed context. -/
structure Ctx.Ended (c : Ctx κ) (r : HttpResult) (total : Nat) : Prop where
  complete : c.complete = true
  result : c.result = r
  state : c.state = if r = .ok then .done else .error
  bodyReceived : c.bodyReceived = total

theorem Ctx.markComplete_ended {c : Ctx κ} (h : c.complete = false) (r : HttpResult) :
    (c.markComplete r).Ended r c.bodyReceived := by
  rw [markComplete, h, if_neg Bool.false_ne_true]
  exact ⟨rfl, rfl, rfl, rfl⟩

theorem Ctx.readTo_total {c : Ctx κ} (h : c.Listening) (s : List UInt8) :
    (c.readTo s).bodyReceived = total s := by
  unfold readTo total wanted
  split
  · rw [h.bodyReceived]; rfl
  · rfl

/-- While more is expected, the context does not complete. -/
theorem endOfBody_pending {c : Ctx κ} (h : c.Listening) {s : List UInt8} (hp : Pending s) :
    (c.readTo s).endOfBody = c.readTo s := by
  unfold Pending at hp
  rw [Ctx.endOfBody, if_neg]
  unfold Ctx.readTo
  cases hs : splitHead [] s with
  | none => simp [h.contentLength]
  | some r =>
    obtain ⟨hd, b⟩ := r
    simp only [hs] at hp
    have hlt := parseContentLength_lt hd
    dsimp only
    rintro ⟨hpos, heq⟩
    rcases hp with hz | hb
    · exact absurd hz (Nat.pos_iff_ne_zero.mp hpos)
    · rw [(upTo_append (q := []) (.inr hb)).1, Nat.mod_eq_of_lt (by omega)] at heq
      omega

/-- **The bytes decide nothing as long as more is expected**, and otherwise the
context completes with what they decide. -/
theorem endOfBody_verdict (c : Ctx κ) {s : List UInt8} (hl : ¬ TooLong s)
    (he : ¬ DeclaresEmpty s) :
    (verdict s = none ∧ Pending s) ∨
    ∃ r, verdict s = some r ∧ (c.readTo s).endOfBody = (c.readTo s).markComplete r := by
  unfold TooLong headLength at hl
  unfold DeclaresEmpty at he
  unfold verdict Pending Ctx.readTo
  cases hs : splitHead [] s with
  | none =>
    simp only [hs] at hl
    exact .inl ⟨if_neg hl, trivial⟩
  | some r =>
    obtain ⟨hd, b⟩ := r
    simp only [hs] at hl he
    have hn := parseContentLength_eq hd
    dsimp only
    rw [if_neg hl]
    cases hd' : declared hd with
    | none =>
      rw [hd'] at hn
      exact .inl ⟨rfl, .inl hn⟩
    | some n =>
      rw [hd'] at hn he
      have hn : parseContentLength hd = n := hn
      have hlt := hn ▸ parseContentLength_lt hd
      rw [hn]
      by_cases hpos : n = 0
      · have hst : parseStatus hd = false := by
          have hno : ¬ (parseStatus hd = true) := fun ht => he ⟨ht, by rw [hpos]⟩
          simpa using hno
        refine .inl ⟨?_, .inl hpos⟩
        simp [hst, hpos]
      · by_cases hb : n ≤ b.length
        · have hup : (upTo n b).length % 2 ^ 32 = n := by
            rw [upTo, if_neg hpos, List.length_take, Nat.min_eq_left hb, Nat.mod_eq_of_lt hlt]
          refine .inr ⟨_, if_pos ⟨hb, .inr (Nat.pos_of_ne_zero hpos)⟩, ?_⟩
          rw [Ctx.endOfBody, if_pos ⟨Nat.pos_of_ne_zero hpos, hup⟩]
        · refine .inl ⟨if_neg fun hh => hb hh.1, .inr (Nat.lt_of_not_le hb)⟩

/-! ## A chain of segments -/

/-- How far a call has got, as its connection sees it. -/
inductive Progress where
  /-- Refused before the wait loop. -/
  | refused (r : HttpResult)
  | resolving
  | connecting
  /-- The bytes received, which decide nothing yet. -/
  | reading (s : List UInt8)
  /-- The code of the first terminal event, and `*out_total`. -/
  | ended (r : HttpResult) (total : Nat)
deriving DecidableEq

/-- The segments of a chain, one after the other: the callback may refuse what a
segment brings, and the bytes with it may decide. -/
def receive (cb : Option κ) : List (List UInt8) → List UInt8 → σ → Progress × σ
  | [], s, user => (.reading s, user)
  | q :: chain, s, user =>
    match hand call cb (fresh s q) user with
    | (false, user) => (.ended .errAborted (total s), user)
    | (true, user) =>
      match verdict (s ++ q) with
      | some r => (.ended r (total (s ++ q)), user)
      | none => receive cb chain (s ++ q) user

/-- The context of a response that has got this far. -/
def Ctx.Follows (c ctx : Ctx κ) : Progress → Prop
  | .reading s => ctx = c.readTo s ∧ Pending s
  | .ended r total => ctx.Ended r total
  | _ => False

/-- **A chain of segments** takes the response where its bytes take it. -/
theorem recvSegments_follows {c : Ctx κ} (hc : c.Listening) (chain : List (List UInt8))
    {h : Http κ σ} {s : List UInt8} (hctx : h.ctx = c.readTo s) (hp : Pending s)
    (hl : ¬ TooLong (s ++ chain.flatten)) (he : ¬ DeclaresEmpty (s ++ chain.flatten)) :
    c.Follows (recvSegments call chain h).ctx (receive call c.chunkCb chain s h.user).1 ∧
      (recvSegments call chain h).user = (receive call c.chunkCb chain s h.user).2 := by
  induction chain generalizing h s with
  | nil => exact ⟨⟨hctx, hp⟩, rfl⟩
  | cons q chain ih =>
    have hcomplete : h.ctx.complete = false := hctx ▸ Ctx.readTo_complete hc s
    rw [List.flatten_cons, ← List.append_assoc] at hl he
    have hl' : ¬ TooLong (s ++ q) := fun hh => hl (hh.append _)
    have he' : ¬ DeclaresEmpty (s ++ q) := fun hh => he (hh.append _)
    rw [recvSegments, hcomplete, if_neg Bool.false_ne_true,
      recvSegment_readTo call hc hctx hp hl', receive]
    rcases hand call c.chunkCb (fresh s q) h.user with ⟨_ | _, user⟩
    · -- refused
      have hopen : ({ c.readTo (s ++ q) with
          bodyReceived := (wanted s).length % 2 ^ 32 } : Ctx κ).complete = false :=
        Ctx.readTo_complete hc (s ++ q)
      exact ⟨Ctx.markComplete_ended hopen .errAborted, rfl⟩
    · dsimp only
      rcases endOfBody_verdict c hl' he' with ⟨hv, hp'⟩ | ⟨r, hv, hend⟩
      · rw [hv, endOfBody_pending hc hp']
        exact ih rfl hp' hl he
      · -- decided: the rest of the chain is dropped
        have hended := Ctx.markComplete_ended (Ctx.readTo_complete hc (s ++ q)) r
        rw [Ctx.readTo_total hc] at hended
        rw [hv, hend, recvSegments_complete call hended.complete]
        exact ⟨hended, rfl⟩

end PicoBLE.Network
