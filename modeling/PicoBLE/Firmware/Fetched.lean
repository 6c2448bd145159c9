import PicoBLE.Cli.Heredoc
import PicoBLE.Network.HttpTaken

/-!
# A script, from the server to `run`

`script fetch` lets `http_get` fill the buffer that captures use, and keeps the
name it was called with where arguments are. Other shells go on meanwhile.
`http_get` answers for the pieces, the shells for the buffer and the name, the
store for the slot, and `run` for the lines: what is dispatched in the end are
lines of the body that a well-formed head announces, in a run in which `http_get`
is not called again while the fetch is in progress, and nothing is written to the
buffer or the name.
-/

namespace PicoBLE.Firmware

open PicoBLE.Cli
open PicoBLE.Network
open PicoBLE.Storage
open CString (ascii)

/-! ## The callback -/

/-- What `fetch_chunk` has counted, and the pieces it has been called with. -/
structure Pieces where
  bytes : Nat
  pieces : List (List UInt8)

/-- `fetch_chunk` as `http_get` calls it. Where the piece goes is up to the machine. -/
def fetchChunkCb (_ : Unit) (data : List UInt8) (u : Pieces) : Bool × Pieces :=
  if u.bytes + data.length > scriptBodyMax then (false, ⟨u.bytes, u.pieces ++ [data]⟩)
  else (true, ⟨u.bytes + data.length, u.pieces ++ [data]⟩)

/-- It is the same function. -/
theorem fetchChunk_answers {u : Pieces} {fw : Fw} (data : List UInt8)
    (h : fw.fetchState = { bytes := u.bytes, overflow := false }) :
    (fetchChunk data fw).fetchState =
      { bytes := (fetchChunkCb () data u).2.bytes, overflow := !(fetchChunkCb () data u).1 } := by
  unfold fetchChunk fetchChunkCb
  rw [h]
  dsimp only
  split <;> rfl

/-- The pieces make up `b`, and the count is right. -/
structure Counted (b : List UInt8) (u : Pieces) : Prop where
  body : u.pieces.flatten = b
  count : u.bytes = b.length
  fits : b.length ≤ scriptBodyMax

/-- **`fetch_chunk` keeps account.** -/
theorem fetchChunkCb_keepsAccount : KeepsAccount fetchChunkCb () Counted := by
  intro b u piece h _ hacc
  unfold fetchChunkCb at hacc ⊢
  by_cases hlong : u.bytes + piece.length > scriptBodyMax
  · rw [if_pos hlong] at hacc
    exact absurd hacc Bool.false_ne_true
  · rw [if_neg hlong]
    obtain ⟨hbody, hcount, -⟩ := h
    refine ⟨?_, ?_, ?_⟩
    · rw [List.flatten_append, List.flatten_singleton, hbody]
    · rw [List.length_append, hcount]
    · rw [List.length_append, ← hcount]
      exact Nat.le_of_not_lt hlong

/-- A call of `http_get` returns `HTTP_OK`, while nobody else calls it. It has handed over these
pieces, and the connection has delivered `received`. -/
def FetchServed (pieces : List (List UInt8)) (received : List UInt8) : Prop :=
  ∃ r start events q out, start.chunkCb = some () ∧
    (LTS.ofFun (fun _ => True) (Request.step fetchChunkCb r)).Runs (fun _ _ => True)
      (Request.start r start ⟨0, []⟩) events q ∧
    q.returned = some (.ok, out) ∧ q.http.user.pieces = pieces ∧
    received = events.flatMap Network.Event.bytes

/-- They are the body that the head announces. -/
theorem FetchServed.body {pieces : List (List UInt8)} {hd : ResponseHead} {b : List UInt8}
    (h : FetchServed pieces (hd.bytes ++ b)) :
    hd.Success ∧ hd.Whole b ∧ pieces.flatten = hd.body b ∧ (hd.body b).length ≤ scriptBodyMax := by
  obtain ⟨r, start, events, q, out, hcb, hrun, hret, rfl, hsent⟩ := h
  obtain ⟨hst, hwhole, -, hcounted⟩ :=
    taken_of_head fetchChunkCb_keepsAccount hcb (⟨rfl, rfl, Nat.zero_le _⟩ : Counted [] ⟨0, []⟩)
      hrun hret hsent.symm
  exact ⟨hst, hwhole, hcounted.body, hcounted.fits⟩

/-! ## While it is in progress -/

/-- `http_get` returns. -/
def returns : Cli.Event → Bool
  | .httpDone _ _ => true
  | _ => false

/-- The fetch that `w` has in progress goes on. -/
def GoesOn (w : FetchWorld) (e : Cli.Event) : Prop := FetchKept w e ∧ returns e = false

instance (w : FetchWorld) (e : Cli.Event) : Decidable (GoesOn w e) :=
  inferInstanceAs (Decidable (_ ∧ _))

/-- Only the return of `http_get` takes a fetch off the stack. -/
theorem fetches_le {m m' : Machine} {e : Cli.Event} (hs : m.step e = some m')
    (he : returns e = false) :
    (fetches m.stack).length ≤ (fetches m'.stack).length := by
  cases step_cases hs with
  | @tick t f below r hstack hrun =>
    have hf : f.fetching = none := by
      cases f with
      | fetch name => exact absurd hrun (by simp [runFrame])
      | _ => rfl
    rw [hstack, Ran.resume, fetches_append, fetches, List.filterMap_cons_none hf,
      List.length_append]
    exact Nat.le_add_left _ _
  | @fire target _ =>
    rw [Ran.resume, fetches_append, List.length_append]
    exact Nat.le_add_left _ _
  | httpDone _ _ => exact absurd he (by simp [returns])
  | leafDone hstack => rw [hstack]; exact Nat.le_refl _
  | _ => exact Nat.le_refl _

/-- A step that the fetch goes on in: it stays in progress, under its name, and gets the piece
that is handed over. -/
theorem fetch_step {w w' : FetchWorld} {e : Cli.Event} (h : FetchInv w) (hk : GoesOn w e)
    (hs : w.next e = some w') (hbusy : fetches w.t.m.stack ≠ []) :
    fetches w'.t.m.stack ≠ [] ∧ w'.meant.fetchName = w.meant.fetchName ∧
      w'.meant.fetched = w.meant.fetched ++ e.piece.getD [] := by
  obtain ⟨t', ht, rfl⟩ := Option.map_eq_some_iff.mp hs
  have hstep := typeNext_step ht
  obtain ⟨hkept, hon⟩ := hk
  have hno := (hkept.2 hbusy)
  dsimp only
  cases bufferStep_of_step hstep with
  | same hdeed he _ _ _ hf =>
    rw [meant_same hdeed he, he, hf]
    exact ⟨hbusy, rfl, (List.append_nil _).symm⟩
  | @captured sh line t fw₀ hdeed hcap _ _ hf =>
    -- somebody captures, so no fetch is in progress
    rcases h.fetch with hnil | ⟨name, -, hidle, -⟩
    · exact absurd hnil hbusy
    · exact absurd ((hidle sh).symm.trans hcap) Bool.false_ne_true
  | begun hdeed =>
    have hb := hno.1
    rw [hdeed] at hb
    exact absurd hb (by simp [Deed.begins])
  | fetching hdeed =>
    have hb := hno.2.1
    have hcalls : w.t.m.callsHttpGet e = true := by
      unfold Machine.callsHttpGet
      split
      · rfl
      · rw [hdeed]
    exact absurd (hb.symm.trans hcalls) Bool.false_ne_true
  | @chunk data hdeed _ _ _ _ hf =>
    rw [hf]
    unfold Meant.next
    rw [hdeed]
    exact ⟨hbusy, rfl, rfl⟩
  | @done name hdeed he _ _ _ hf =>
    have hle := fetches_le hstep hon
    rw [hf, List.length_cons] at hle
    exact absurd hle (Nat.not_succ_le_self _)

/-- **All that is handed over is on record**, whatever else happens. -/
theorem fetch_run {w w' : FetchWorld} {es : List Cli.Event} (hrun : fetchWorlds.Runs GoesOn w es w')
    (h : fetchWorlds.ReachableWhen FetchKept w) (hbusy : fetches w.t.m.stack ≠ []) :
    fetchWorlds.ReachableWhen FetchKept w' ∧ fetches w'.t.m.stack ≠ [] ∧
      w'.meant.fetchName = w.meant.fetchName ∧
      w'.meant.fetched = w.meant.fetched ++ (es.filterMap Event.piece).flatten := by
  induction hrun with
  | nil => exact ⟨h, hbusy, rfl, (List.append_nil _).symm⟩
  | @cons w w₁ w' e es hk hs _ ih =>
    obtain ⟨hbusy₁, hname, hfetched⟩ := fetch_step (fetchInv_reachable h) hk hs hbusy
    obtain ⟨hreach, hbusy', hname', hfetched'⟩ := ih (h.tail hk.1 hs) hbusy₁
    refine ⟨hreach, hbusy', hname'.trans hname, ?_⟩
    rw [hfetched', hfetched, List.append_assoc]
    cases hp : e.piece with
    | none => rw [List.filterMap_cons_none hp]; rfl
    | some data => rw [List.filterMap_cons_some hp]; rfl

/-- The call, and the name it is called with. -/
theorem fetch_begins {w w' : FetchWorld} {e : Cli.Event} {name : Arg}
    (hcall : w.t.m.deed e = .fetching name) (hs : w.next e = some w') :
    fetches w'.t.m.stack ≠ [] ∧ w'.meant.fetchName = w.t.m.fw.str name ∧ w'.meant.fetched = [] := by
  obtain ⟨t', ht, rfl⟩ := Option.map_eq_some_iff.mp hs
  have hmeant :
      w.meant.next w.t e = { w.meant with fetchName := w.t.m.fw.str name, fetched := [] } := by
    unfold Meant.next
    rw [hcall]
  dsimp only
  rw [hmeant]
  cases bufferStep_of_step (typeNext_step ht) with
  | fetching hd _ _ _ hf => exact ⟨by rw [hf]; exact List.cons_ne_nil _ _, rfl, rfl⟩
  | same hd =>
    rw [hcall] at hd
    exact absurd hd (by simp)
  | captured hd | begun hd | chunk hd | done hd => exact absurd (hcall.symm.trans hd) (by simp)

/-- When `http_get` has returned, the store is called. -/
theorem httpDone_calls {m m' : Machine} {t : Tick} (hs : m.step (.httpDone t true) = some m') :
    ∃ name body, m.storeCall (.httpDone t true) = some (.save t.flashOk name body) := by
  cases step_cases hs with
  | @httpDone _ _ name _ hstack _ =>
    refine ⟨m.fw.str name, m.fw.cap.fetched m.fw.fetchState.bytes, ?_⟩
    rw [Machine.storeCall, hstack]
    rfl

/-! ## The whole way -/

def lampHead : ResponseHead :=
  lengthHead (ascii "200") (ascii " OK") (ascii "12") 12 code200_ok reasonOk_ok (by decide)
    (by decide)

/-- `script fetch lamp http://h/u` over BLE, up to the call of `cmd_fetch`. -/
def callingFetch : List Cli.Event :=
  [.linkUp, .subscribe, .rx (ascii "repeat 1 script fetch lamp http://h/u")] ++ List.replicate
    41 (.tick online)

def lampStart : Start Unit := { plainStart with url := some (ascii "http://h/u") }

/-- The server's response, in two segments. -/
def lampServed : List Network.Event :=
  [.callback (.dns (some 1) ⟨true, errOk⟩), .callback (.connected errOk errOk), .check false,
    .callback (.received [lampHead.bytes ++ ascii "gpio 25 "] errOk), .check false,
    .callback (.received [ascii "high"] errOk), .check false]

/-- Between the two pieces somebody types on USB, and the second comes while a command waits. -/
def lampPieces : List Cli.Event :=
  [.chunk (ascii "gpio 25 ")] ++ (ascii "sleep 1s\x0d").flatMap (fun b =>
    [.usb b, .tick online, .tick online]) ++
    [.chunkBelow (ascii "high"), .leafDone cliOk] ++ List.replicate 3 (.tick online)

theorem lampServed_fetch :
    FetchServed (lampPieces.filterMap Event.piece) (lampHead.bytes ++ ascii "gpio 25 high") := by
  have hrun :
      (LTS.exec (Request.step fetchChunkCb 0) (fun _ _ => True) (Request.start 0 lampStart ⟨0, []⟩)
        lampServed).map (fun q => (q.returned, q.http.user.pieces)) =
        some (some (.ok, some 12), [ascii "gpio 25 ", ascii "high"]) := by decide +kernel
  obtain ⟨q, hexec, hview⟩ := Option.map_eq_some_iff.mp hrun
  obtain ⟨hret, hpieces⟩ := Prod.mk.inj hview
  exact ⟨0, lampStart, lampServed, q, _, rfl, LTS.runs_exec hexec, hret, hpieces.trans (by decide),
    by decide +kernel⟩

/-- The word of the line that names it. -/
def lampArg : Arg := ⟨22, ascii "lamp"⟩

end PicoBLE.Firmware
