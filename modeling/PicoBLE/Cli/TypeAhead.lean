import PicoBLE.Cli.ArgBuffer

/-!
# What is typed while a command runs

`end_of_line` hands the line buffer over and sets `line_len` to 0 only when the
command has returned. What the shell gets meanwhile is appended to the line
that is still in the buffer, and what has not ended by then is thrown away.

Beside the machine a reference keeps what has been typed since the last line
end, and both write down every line they take to be complete.

* **T1.** The two agree on whether the last byte was a carriage return.
* **T2.** Unless a line of the shell is with `end_of_line`, or something was thrown away
  when the last one returned, its buffer holds what the reference holds.
* **T3.** What has been written down is the same.
-/

namespace PicoBLE.Cli

open CString (ascii)
open PicoBLE.System (bindTargetMax)

/-! ## Who writes to a line buffer -/

/-- The line buffer and what belongs to it. -/
structure SameLine (c c' : CliCtx) : Prop where
  line : c'.line = c.line
  len : c'.lineLen = c.lineLen
  cr : c'.lastWasCr = c.lastWasCr

theorem SameLine.refl (c : CliCtx) : SameLine c c := ⟨rfl, rfl, rfl⟩

theorem SameLine.trans {a b c : CliCtx} (h : SameLine a b) (h' : SameLine b c) : SameLine a c :=
  ⟨h'.line.trans h.line, h'.len.trans h.len, h'.cr.trans h.cr⟩

theorem sameLine_setCtx {fw : Fw} {sh : Shell} {c : CliCtx} (h : SameLine (fw.ctx sh) c)
    (other : Shell) :
    SameLine (fw.ctx other) ((fw.setCtx sh c).ctx other) := by
  by_cases heq : other = sh
  · rw [heq, Fw.setCtx_self]
    exact h
  · rw [Fw.setCtx_of_ne fw c heq]
    exact SameLine.refl _

theorem sameLine_of_ctx {fw fw' : Fw} (h : fw'.ctx = fw.ctx) (sh : Shell) :
    SameLine (fw.ctx sh) (fw'.ctx sh) := by
  rw [h]
  exact SameLine.refl _

theorem captureLineCb_line (t : Tick) (sh : Shell) (line : List UInt8) (fw : Fw) (other : Shell) :
    SameLine (fw.ctx other) ((captureLineCb t sh line fw).ctx other) := by
  have hend : ∀ fw' : Fw, fw'.ctx = fw.ctx →
      SameLine (fw.ctx other) ((fw'.endCapture sh).ctx other) := by
    intro fw' hctx
    rw [← hctx]
    exact @sameLine_setCtx fw' sh { fw'.ctx sh with capturing := false } ⟨rfl, rfl, rfl⟩ other
  rcases captureLineCb_cases t sh line fw with ⟨-, he⟩ | ⟨-, he⟩ | ⟨-, -, he⟩
  · rw [he]; exact hend _ rfl
  · rw [he]; exact hend fw rfl
  · rw [he]; exact SameLine.refl _

theorem dispatchLine_ctx {n : Nat} (sh : Shell) (line : Buffer n) (fw : Fw) :
    (cliDispatchLine sh line fw).fw.ctx = fw.ctx := by
  rcases dispatchLine_expands sh line fw with ⟨-, hfw, -⟩ | ⟨toks, -, hfw, -⟩
  · rw [hfw]
  · rw [hfw]

/-- The end of a line leaves the other shells alone, and this one's carriage return. -/
theorem endOfLine_line (t : Tick) (sh : Shell) (fw : Fw) :
    ((endOfLine t sh fw).fw.ctx sh).lastWasCr = (fw.ctx sh).lastWasCr ∧
      ∀ other, other ≠ sh → SameLine (fw.ctx other) ((endOfLine t sh fw).fw.ctx other) := by
  have hset : ∀ c : CliCtx, ∀ other, other ≠ sh →
      SameLine (fw.ctx other) ((fw.setCtx sh c).ctx other) := by
    intro c other hne
    rw [Fw.setCtx_of_ne fw c hne]
    exact SameLine.refl _
  unfold endOfLine
  dsimp only
  split
  · have hcb := captureLineCb_line t sh ((fw.ctx sh).terminate.line.str 0)
      (fw.setCtx sh (fw.ctx sh).terminate)
    refine ⟨?_, fun other hne => (hset _ other hne).trans (hcb other)⟩
    have hsh := (hcb sh).cr
    rw [Fw.setCtx_self] at hsh
    exact hsh
  · split
    · refine ⟨by rw [Fw.setCtx_self]; rfl, fun other hne => ?_⟩
      dsimp only
      rw [Fw.setCtx_of_ne _ _ hne, dispatchLine_ctx]
      exact hset _ other hne
    · refine ⟨?_, hset _⟩
      show ((fw.setCtx sh (fw.ctx sh).terminate).ctx sh).lastWasCr = _
      rw [Fw.setCtx_self]
      rfl

theorem handleScript_line (t : Tick) (sh : Shell) (argv : List Arg) (fw : Fw) (other : Shell) :
    SameLine (fw.ctx other) ((handleScript t sh argv fw).fw.ctx other) := by
  rcases handleScript_cases t sh argv fw with ⟨rc, he⟩ | ⟨name, he⟩ | he
    | ⟨flash, rc, he⟩ | ⟨name, he⟩
  · rw [he]; exact SameLine.refl _
  · rw [he]
    exact @sameLine_setCtx fw sh { fw.ctx sh with capturing := true } ⟨rfl, rfl, rfl⟩ other
  · rw [he]; exact SameLine.refl _
  · rw [he]; exact SameLine.refl _
  · rw [he]; exact SameLine.refl _

/-- A handler writes to no line buffer. -/
theorem callHandler_line (t : Tick) (sh : Shell) (argv : List Arg) (fw : Fw) (h : Handler)
    (other : Shell) :
    SameLine (fw.ctx other) ((callHandler t sh argv fw h).fw.ctx other) := by
  cases h with
  | cmdRepeat =>
    exact sameLine_of_ctx (by rw [callHandler, (handleRepeat_pending sh argv fw).1]) other
  | cmdWhile =>
    exact sameLine_of_ctx (by rw [callHandler, (handleWhile_pending sh argv fw).1]) other
  | cmdIf => exact sameLine_of_ctx (by rw [callHandler, (handleIf_pending sh argv fw).1]) other
  | cmdRun =>
    refine sameLine_of_ctx ?_ other
    rw [callHandler]
    rcases handleRun_cases sh argv fw with ⟨rc, he⟩ | ⟨-, name, script, -, he | ⟨shell, -, he⟩⟩
    · rw [he]; rfl
    · rw [he]; rfl
    · rw [he]; rfl
  | cmdScript => exact handleScript_line t sh argv fw other
  | cmdSet =>
    obtain ⟨vars, rc, he⟩ := handleSet_eq argv fw
    refine sameLine_of_ctx ?_ other
    rw [callHandler, he]
    rfl
  | cmdUnset =>
    obtain ⟨vars, rc, he⟩ := handleUnset_eq argv fw
    refine sameLine_of_ctx ?_ other
    rw [callHandler, he]
    rfl
  | leaf => exact SameLine.refl _

/-- The shell whose line buffer the frame works on. -/
def Frame.edits : Frame → Option Shell
  | .feed sh (_ :: _) _ => some sh
  | .lineDone sh => some sh
  | _ => none

/-- The shell whose line buffer a step works on. -/
def Machine.edits (m : Machine) : Event → Option Shell
  | .tick _ => m.stack.head?.bind Frame.edits
  | _ => none

theorem feedByte_line (t : Tick) (sh : Shell) (b : UInt8) (fw : Fw) (other : Shell)
    (hne : other ≠ sh) :
    SameLine (fw.ctx other) ((feedByte t sh b fw).fw.ctx other) := by
  have hset : ∀ c : CliCtx, SameLine (fw.ctx other) ((fw.setCtx sh c).ctx other) := by
    intro c
    rw [Fw.setCtx_of_ne fw c hne]
    exact SameLine.refl _
  rcases feedByte_cases t sh b fw with ⟨-, c, -, he⟩ | ⟨-, he | he⟩
  · rw [he]
    exact hset c
  · rw [he]
    exact (endOfLine_line t sh fw).2 other hne
  · rw [he]
    exact (hset _).trans ((endOfLine_line t sh _).2 other hne)

/-- **A tick writes to one line buffer at most.** -/
theorem runFrame_line {t : Tick} {f : Frame} {fw : Fw} {rc : Int} {r : Ran}
    (h : runFrame t f fw rc = some r) {sh : Shell} (hsh : f.edits ≠ some sh) :
    SameLine (fw.ctx sh) (r.fw.ctx sh) := by
  unfold runFrame at h
  cases f with
  | feed sh' data packet =>
    rw [← Option.some.inj h]
    unfold cliFeed
    cases data with
    | nil =>
      dsimp only
      split <;> exact SameLine.refl _
    | cons b rest => exact feedByte_line t sh' b fw sh fun he => hsh (he ▸ rfl)
  | lineDone sh' =>
    have hne : sh ≠ sh' := fun he => hsh (he ▸ rfl)
    rw [← Option.some.inj h, Fw.ret, Fw.setCtx_of_ne fw _ hne]
    exact SameLine.refl _
  | dispatch sh' argv =>
    rw [← Option.some.inj h]
    unfold cliDispatchArgv
    split
    · exact SameLine.refl _
    · split
      · exact SameLine.refl _
      · exact callHandler_line t sh' _ fw _ sh
  | runNext sh' script off =>
    rw [← Option.some.inj h, runNext]
    split
    · dsimp only
      split
      · exact SameLine.refl _
      · exact sameLine_of_ctx (dispatchLine_ctx _ _ fw) sh
    · exact SameLine.refl _
  | handled => rw [← Option.some.inj h]; exact SameLine.refl _
  | repeatNext sh' sub i n =>
    rw [← Option.some.inj h, repeatNext]
    split <;> exact SameLine.refl _
  | repeatCheck sh' sub i n =>
    rw [← Option.some.inj h, repeatCheck]
    split <;> exact SameLine.refl _
  | whileNext sh' cond body i =>
    rw [← Option.some.inj h, whileNext]
    split <;> exact SameLine.refl _
  | whileCond sh' cond body i =>
    rw [← Option.some.inj h, whileCond]
    split <;> exact SameLine.refl _
  | whileBody sh' cond body i =>
    rw [← Option.some.inj h, whileBody]
    split <;> exact SameLine.refl _
  | ifCond sh' thenArgv elseArgv =>
    rw [← Option.some.inj h, ifCond]
    split
    · exact SameLine.refl _
    · split <;> exact SameLine.refl _
  | fetch name => exact absurd h (by simp)
  | leaf sh' argv => exact absurd h (by simp)

/-! ## The reference -/

/-- What has been typed in a shell since its last line end. -/
structure Typed where
  text : List UInt8
  /-- The last byte was a carriage return. -/
  lastCr : Bool
  /-- `end_of_line` has not returned yet. -/
  busy : Bool
  /-- When it returned last, some of the text was there already. -/
  lost : Bool
deriving DecidableEq

/-- A shell that has just been reset. -/
def Typed.fresh : Typed := { text := [], lastCr := false, busy := false, lost := false }

/-- The byte ends a line: CR, LF, or the two together once. -/
def Typed.ends (b : UInt8) (s : Typed) : Bool := b = 13 || (b = 10 && !s.lastCr)

/-- One more byte. A backspace takes the last character back, and the other control characters
and what does not fit in a line are dropped. -/
def Typed.key (b : UInt8) (s : Typed) : Typed :=
  if s.ends b then { s with text := [], lastCr := b = 13, busy := true }
  else if b = 8 ∨ b = 127 then { s with text := s.text.dropLast, lastCr := false }
  else if 32 ≤ b ∧ s.text.length < cliLineMax - 1 then
    { s with text := s.text ++ [b], lastCr := false }
  else { s with lastCr := false }

/-- What is written down. -/
inductive Entry where
  /-- A line is complete. -/
  | line (sh : Shell) (text : List UInt8)
  /-- A packet is at its end, and there is something left that it ends. -/
  | packet (sh : Shell) (ended : Bool)
deriving DecidableEq

/-- What a step hands over. -/
def Machine.passing (m : Machine) : Event → Option Entry
  | .tick _ =>
    match m.stack with
    | .feed sh [] true :: _ => some (.packet sh (0 < (m.fw.ctx sh).lineLen.1))
    | f :: _ => (f.handing m.fw).map fun p => .line p.1 p.2
    | [] => none
  | _ => none

/-- The machine, the reference, and what the two have written down. -/
structure TypeWorld where
  m : Machine
  typed : Shell → Typed
  passed : List Entry
  complete : List Entry

/-- What the reference takes to be complete. -/
def TypeWorld.completing (w : TypeWorld) : Event → Option Entry
  | .tick _ =>
    match w.m.stack with
    | .feed sh [] true :: _ => some (.packet sh ((w.typed sh).text ≠ []))
    | .feed sh (b :: _) _ :: _ =>
      let s := w.typed sh
      -- an empty line counts while the shell captures
      if s.ends b ∧ ((w.m.fw.ctx sh).capturing ∨ s.text ≠ []) then some (.line sh s.text) else none
    | _ => none
  | _ => none

/-- What the frame does to the reference of the shell it works on. -/
def Frame.types : Frame → Typed → Typed
  | .feed _ (b :: _) _, s => s.key b
  | .lineDone _, s => { s with busy := false, lost := s.text ≠ [] }
  | _, s => s

/-- The reference after a step. -/
def TypeWorld.typedNext (w : TypeWorld) (e : Event) (sh : Shell) : Typed :=
  if w.m.resets e = some sh then .fresh
  else if w.m.edits e = some sh then
    (w.m.stack.head?.map fun f => f.types (w.typed sh)).getD (w.typed sh)
  else w.typed sh

def TypeWorld.next (w : TypeWorld) (e : Event) : Option TypeWorld :=
  (w.m.step e).map fun m' =>
    { m := m', typed := w.typedNext e, passed := w.passed ++ (w.m.passing e).toList,
      complete := w.complete ++ (w.completing e).toList }

/-- At start nothing has been typed. -/
def TypeWorld.boot (flash : PicoBLE.Ota.Flash) : TypeWorld where
  m := Machine.boot flash
  typed := fun _ => .fresh
  passed := []
  complete := []

def typeWorlds : LTS TypeWorld Event :=
  LTS.ofFun (fun w => ∃ flash, w = TypeWorld.boot flash) TypeWorld.next

/-- The shell in which the step ends a line or a packet. -/
def TypeWorld.ending (w : TypeWorld) : Event → Option Shell
  | .tick _ =>
    match w.m.stack with
    | .feed sh [] true :: _ => some sh
    | .feed sh (b :: _) _ :: _ => if (w.typed sh).ends b then some sh else none
    | _ => none
  | _ => none

/-- The shell whose `end_of_line` returns. -/
def Machine.lineDone (m : Machine) : Event → Option Shell
  | .tick _ =>
    match m.stack with
    | .lineDone sh :: _ => some sh
    | _ => none
  | _ => none

/-- While a line of a shell is with `end_of_line`, no other line of it ends and no packet for it
does, and nothing is left of what has been typed when `end_of_line` returns. -/
def TypeKept (w : TypeWorld) (e : Event) : Prop :=
  (∀ sh ∈ w.ending e, (w.typed sh).busy = false) ∧ ∀ sh ∈ w.m.lineDone e, (w.typed sh).text = []

instance (w : TypeWorld) (e : Event) : Decidable (TypeKept w e) :=
  inferInstanceAs (Decidable (_ ∧ _))

/-! ## The buffer holds what has been typed -/

/-- The first `line_len` characters of the buffer are the text. -/
structure Holding (c : CliCtx) (text : List UInt8) : Prop where
  len : c.lineLen.1 = text.length
  bytes : c.line.bytes.take text.length = text

theorem Holding.congr {c c' : CliCtx} {text : List UInt8} (h : Holding c text)
    (hs : SameLine c c') :
    Holding c' text := by
  refine ⟨?_, ?_⟩
  · rw [hs.len, h.len]
  · rw [hs.line, h.bytes]

/-- An empty line. -/
theorem holding_nil {c : CliCtx} (h : c.lineLen.1 = 0) : Holding c [] := ⟨h, rfl⟩

/-- What is handed over is the text. -/
theorem Holding.str {c : CliCtx} {text : List UInt8} (h : Holding c text) (hnul : 0 ∉ text) :
    c.terminate.line.str 0 = text := by
  have hlt : text.length < c.line.bytes.length := by rw [c.line.size, ← h.len]; exact c.lineLen.2
  have hbytes : c.terminate.line.bytes = c.line.bytes.set text.length 0 := by rw [← h.len]; rfl
  have hget : c.terminate.line.bytes.getD text.length 0 = 0 := by
    rw [hbytes]
    simp [List.getD_eq_getElem?_getD, hlt]
  have htake : c.terminate.line.bytes.take (text.length + 1) = text ++ [0] := by
    rw [hbytes, List.take_add_one, List.take_set_of_le (Nat.le_refl _), h.bytes]
    simp [hlt]
  rw [Buffer.str, List.drop_zero, ← Buffer.ofBuffer_take hget, htake]
  exact CString.ofBuffer_append hnul []

theorem Holding.handed {c : CliCtx} {text : List UInt8} (h : Holding c text) (hnul : 0 ∉ text) :
    c.handed = if c.capturing = true ∨ text ≠ [] then some text else none := by
  unfold CliCtx.handed
  rw [h.str hnul, h.len]
  simp only [List.length_pos_iff]

theorem key_ends {s : Typed} {b : UInt8} (h : s.ends b = true) :
    s.key b = { s with text := [], lastCr := b = 13, busy := true } := if_pos h

/-- Only the return of `end_of_line` loses anything. -/
theorem key_lost (s : Typed) (b : UInt8) : (s.key b).lost = s.lost := by
  unfold Typed.key
  split
  · rfl
  · split
    · rfl
    · split <;> rfl

theorem key_char {s : Typed} {b : UInt8} (h : s.ends b = false) :
    s.key b = if b = 8 ∨ b = 127 then { s with text := s.text.dropLast, lastCr := false }
      else if 32 ≤ b ∧ s.text.length < cliLineMax - 1 then
      { s with text := s.text ++ [b], lastCr := false }
      else { s with lastCr := false } :=
  if_neg (by rw [h]; exact Bool.false_ne_true)

/-- **A character goes to the end of both.** -/
theorem Holding.typeChar {c : CliCtx} {s : Typed} {b : UInt8} (h : Holding c s.text)
    (hends : s.ends b = false) :
    Holding (typeChar b c) (s.key b).text := by
  rw [key_char hends]
  unfold PicoBLE.Cli.typeChar
  dsimp only
  by_cases hback : b = 8 ∨ b = 127
  · -- backspace, which does nothing on an empty line on either side
    rw [if_pos hback, if_pos hback]
    refine ⟨?_, ?_⟩
    · show c.lineLen.1 - 1 = s.text.dropLast.length
      rw [List.length_dropLast, h.len]
    · show c.line.bytes.take s.text.dropLast.length = s.text.dropLast
      have htake := congrArg (List.take (s.text.length - 1)) h.bytes
      rw [List.take_take, Nat.min_eq_left (Nat.sub_le _ _)] at htake
      rw [List.length_dropLast, List.dropLast_eq_take, htake]
  · rw [if_neg hback, if_neg hback]
    by_cases hlow : b < 32
    · rw [if_pos hlow, if_neg fun hh => absurd hlow (UInt8.not_lt.mpr hh.1)]
      exact ⟨h.len, h.bytes⟩
    · rw [if_neg hlow]
      by_cases hroom : c.lineLen.1 < cliLineMax - 1
      · rw [dif_pos hroom, if_pos ⟨UInt8.not_lt.mp hlow, by rw [← h.len]; exact hroom⟩]
        have hlt : s.text.length < c.line.bytes.length := by
          rw [c.line.size, ← h.len]; exact c.lineLen.2
        refine ⟨?_, ?_⟩
        · show c.lineLen.1 + 1 = (s.text ++ [b]).length
          rw [List.length_append, h.len]
          rfl
        · show (c.line.bytes.set c.lineLen.1 b).take (s.text ++ [b]).length = s.text ++ [b]
          rw [List.length_append, List.length_singleton, h.len, List.take_add_one,
            List.take_set_of_le (Nat.le_refl _), h.bytes]
          simp [hlt]
      · -- a full line drops the character
        rw [dif_neg hroom, if_neg fun hh => hroom (by rw [h.len]; exact hh.2)]
        exact ⟨h.len, h.bytes⟩

/-- There is no NUL in what is typed. -/
theorem key_nul {s : Typed} (h : 0 ∉ s.text) (b : UInt8) : 0 ∉ (s.key b).text := by
  unfold Typed.key
  split
  · exact List.not_mem_nil
  · split
    · exact fun hmem => h (List.mem_of_mem_dropLast hmem)
    · split
      · next hb =>
        intro hmem
        rcases List.mem_append.mp hmem with hmem | hmem
        · exact h hmem
        · obtain rfl := List.mem_singleton.mp hmem
          exact absurd hb.1 (by decide)
      · exact h


/-! ## Every step -/

theorem step_line {m m' : Machine} {e : Event} (hs : m.step e = some m') {sh : Shell}
    (hreset : m.resets e ≠ some sh) (hedit : m.edits e ≠ some sh) :
    SameLine (m.fw.ctx sh) (m'.fw.ctx sh) := by
  have hset : ∀ {other : Shell} (c : CliCtx), sh ≠ other →
      SameLine (m.fw.ctx sh) ((m.fw.setCtx other c).ctx sh) := by
    intro other c hne
    rw [Fw.setCtx_of_ne m.fw c hne]
    exact SameLine.refl _
  cases step_cases hs with
  | tick hstack hrun =>
    rw [Machine.edits, hstack] at hedit
    exact runFrame_line hrun hedit
  | subscribe _ => exact hset _ fun he => hreset (he ▸ rfl)
  | linkDown => exact hset _ fun he => hreset (he ▸ rfl)
  | usbFirst hgreeted =>
    rw [Machine.resets, hgreeted] at hreset
    exact hset _ fun he => hreset (he ▸ rfl)
  | fire _ => exact sameLine_of_ctx (dispatchLine_ctx _ _ _) sh
  | @chunk data _ _ _ _ =>
    obtain ⟨buf, fetches, hfw⟩ := fetchChunk_fw data m.fw
    exact sameLine_of_ctx (by rw [hfw]) sh
  | @chunkBelow data _ _ _ _ _ _ =>
    obtain ⟨buf, fetches, hfw⟩ := fetchChunk_fw data m.fw
    exact sameLine_of_ctx (by rw [hfw]) sh
  | @httpDone t ok name _ _ _ =>
    obtain ⟨flash, rc, hdone⟩ := fetchDone_fw t ok name m.fw
    rw [hdone]
    exact SameLine.refl _
  | linkUp => exact SameLine.refl _
  | rx _ => exact SameLine.refl _
  | usb _ => exact SameLine.refl _
  | httpGet _ => exact SameLine.refl _
  | leafDone _ => exact SameLine.refl _
  | elsewhere _ => exact SameLine.refl _

/-- What a reset leaves of a shell. -/
theorem step_reset {m m' : Machine} {e : Event} (hs : m.step e = some m') {sh : Shell}
    (hreset : m.resets e = some sh) : m'.fw.ctx sh = cliReset (m.fw.ctx sh) := by
  cases step_cases hs with
  | subscribe _ =>
    obtain rfl := Option.some.inj hreset
    exact Fw.setCtx_self _ _ _
  | linkDown =>
    obtain rfl := Option.some.inj hreset
    exact Fw.setCtx_self m.fw .ble (cliReset (m.fw.ctx .ble))
  | usbFirst hgreeted =>
    rw [Machine.resets, hgreeted] at hreset
    obtain rfl := Option.some.inj hreset
    exact Fw.setCtx_self m.fw .usb (cliReset (m.fw.ctx .usb))
  | usb hgreeted => rw [Machine.resets, hgreeted] at hreset; exact absurd hreset (by simp)
  | _ => exact absurd hreset (by simp [Machine.resets])

/-- The reference is changed for the same shells. -/
theorem typedNext_same {w : TypeWorld} {e : Event} {sh : Shell} (hreset : w.m.resets e ≠ some sh)
    (hedit : w.m.edits e ≠ some sh) : w.typedNext e sh = w.typed sh := by
  rw [TypeWorld.typedNext, if_neg hreset, if_neg hedit]

theorem typedNext_reset {w : TypeWorld} {e : Event} {sh : Shell} (hreset : w.m.resets e = some sh) :
    w.typedNext e sh = .fresh := if_pos hreset

theorem typedNext_tick {w : TypeWorld} {t : Tick} {f : Frame} {below : List Frame} {sh : Shell}
    (hstack : w.m.stack = f :: below) (hedit : f.edits = some sh) :
    w.typedNext (.tick t) sh = f.types (w.typed sh) := by
  have hreset : w.m.resets (.tick t) ≠ some sh := by simp [Machine.resets]
  rw [TypeWorld.typedNext, if_neg hreset, Machine.edits, hstack, List.head?_cons, Option.bind_some,
    if_pos hedit]
  rfl

/-- A byte, on both sides. -/
theorem feedByte_own (t : Tick) (sh : Shell) (b : UInt8) (fw : Fw) :
    (endsLine b (fw.ctx sh) = true → ((feedByte t sh b fw).fw.ctx sh).lastWasCr = decide (b = 13)) ∧
    (endsLine b (fw.ctx sh) = false → (feedByte t sh b fw).fw.ctx sh =
      if b = 10 then { fw.ctx sh with lastWasCr := false } else typeChar b (fw.ctx sh)) := by
  unfold feedByte endsLine
  dsimp only
  by_cases hlf : b = 10
  · subst hlf
    rw [if_pos rfl, if_pos rfl]
    cases hcr : (fw.ctx sh).lastWasCr with
    | true =>
      -- the second half of a CR LF ends nothing
      refine ⟨fun h => absurd h (by decide), fun _ => ?_⟩
      rw [if_pos rfl]
      exact Fw.setCtx_self _ _ _
    | false =>
      refine ⟨fun _ => ?_, fun h => absurd h (by decide)⟩
      rw [if_neg Bool.false_ne_true, (endOfLine_line t sh fw).1, hcr]
      rfl
  · rw [if_neg hlf, if_neg hlf]
    by_cases hcr : b = 13
    · subst hcr
      refine ⟨fun _ => ?_, fun h => absurd h (by simp)⟩
      rw [if_pos rfl, (endOfLine_line t sh _).1, Fw.setCtx_self]
      rfl
    · rw [if_neg hcr]
      exact ⟨fun h => absurd h (by simp [hlf, hcr]), fun _ => Fw.setCtx_self _ _ _⟩

/-! ## The invariant -/

/-- T1 and T2, of one shell. -/
structure ShellInv (c : CliCtx) (s : Typed) : Prop where
  /-- T1 -/
  cr : c.lastWasCr = s.lastCr
  nul : 0 ∉ s.text
  /-- T2 -/
  held : s.lost = false → s.busy = false → Holding c s.text

theorem ShellInv.congr {c c' : CliCtx} {s : Typed} (h : ShellInv c s) (hs : SameLine c c') :
    ShellInv c' s :=
  ⟨hs.cr.trans h.cr, h.nul, fun hl hb => (h.held hl hb).congr hs⟩

theorem shellInv_fresh {c : CliCtx} (hcr : c.lastWasCr = false) (hlen : c.lineLen.1 = 0) :
    ShellInv c .fresh := ⟨hcr, List.not_mem_nil, fun _ _ => holding_nil hlen⟩

theorem ShellInv.ends_eq {c : CliCtx} {s : Typed} (h : ShellInv c s) (b : UInt8) :
    endsLine b c = s.ends b := by
  rw [endsLine, Typed.ends, h.cr]

/-- **One byte.** -/
theorem ShellInv.key {fw : Fw} {sh : Shell} {s : Typed} (h : ShellInv (fw.ctx sh) s)
    (t : Tick) (b : UInt8) :
    ShellInv ((feedByte t sh b fw).fw.ctx sh) (s.key b) := by
  obtain ⟨hend, hchar⟩ := feedByte_own t sh b fw
  rw [h.ends_eq b] at hend hchar
  cases hb : s.ends b with
  | true =>
    -- from here on the reference waits for `end_of_line`
    rw [key_ends hb]
    exact ⟨hend hb, List.not_mem_nil, fun _ hbusy => absurd hbusy (by simp)⟩
  | false =>
    rw [hchar hb]
    refine ⟨?_, key_nul h.nul b, fun hlost hbusy => ?_⟩
    · have hcr : (s.key b).lastCr = false := by
        rw [key_char hb]
        split
        · rfl
        · split <;> rfl
      rw [hcr]
      split
      · rfl
      · unfold typeChar
        dsimp only
        split
        · rfl
        · split
          · rfl
          · split <;> rfl
    · have hidle : s.busy = false := by
        rw [← hbusy, key_char hb]
        split
        · rfl
        · split <;> rfl
      have hheld := h.held ((key_lost s b).symm.trans hlost) hidle
      by_cases hlf : b = 10
      · -- the second half of a CR LF
        subst hlf
        have htext : (s.key 10).text = s.text := by
          rw [key_char hb, if_neg (by decide), if_neg (by simp)]
        rw [if_pos rfl, htext]
        exact ⟨hheld.len, hheld.bytes⟩
      · rw [if_neg hlf]
        exact hheld.typeChar hb

/-- `line_len = 0`: the two agree unless something is lost by it. -/
theorem ShellInv.done {c : CliCtx} {s : Typed} (h : ShellInv c s) :
    ShellInv c.clearLine { s with busy := false, lost := s.text ≠ [] } := by
  refine ⟨h.cr, h.nul, fun hlost _ => ?_⟩
  have hnil : s.text = [] := by simpa using hlost
  show Holding c.clearLine s.text
  rw [hnil]
  exact holding_nil rfl

/-- T1 and T2. They hold in every run. -/
def ShellsInv (w : TypeWorld) : Prop := ∀ sh, ShellInv (w.m.fw.ctx sh) (w.typed sh)

structure TypeInv (w : TypeWorld) : Prop where
  shell : ShellsInv w
  kept : ∀ sh, (w.typed sh).lost = false
  /-- T3 -/
  same : w.passed = w.complete

/-- **What the machine hands over is what the reference takes to be complete.** -/
theorem TypeInv.passing {w : TypeWorld} (h : TypeInv w) {e : Event} (hk : TypeKept w e) :
    w.m.passing e = w.completing e := by
  obtain ⟨hend, -⟩ := hk
  unfold TypeWorld.ending at hend
  unfold Machine.passing TypeWorld.completing
  cases e with
  | tick t =>
    cases hstack : w.m.stack with
    | nil => rfl
    | cons f below =>
      rw [hstack] at hend
      cases f with
      | feed sh data packet =>
        cases data with
        | nil =>
          cases packet with
          | false => rfl
          | true =>
            -- the end of a packet: there is something left on one side if there is on the other
            have hheld := (h.shell sh).held (h.kept sh) (hend sh rfl)
            dsimp only
            rw [hheld.len]
            simp only [List.length_pos_iff]
        | cons b rest =>
          dsimp only at hend ⊢
          rw [Frame.handing, (h.shell sh).ends_eq b]
          cases hb : (w.typed sh).ends b with
          | false => rfl
          | true =>
            -- the end of a line, which the condition allows only while the two sides agree
            have hheld := (h.shell sh).held (h.kept sh) (hend sh (by rw [hb]; rfl))
            rw [if_pos rfl, hheld.handed (h.shell sh).nul]
            by_cases hc : (w.m.fw.ctx sh).capturing = true ∨ (w.typed sh).text ≠ []
            · rw [if_pos hc, if_pos ⟨rfl, hc⟩]
              rfl
            · rw [if_neg hc, if_neg fun hh => hc hh.2]
              rfl
      | _ => rfl
  | _ => rfl

theorem shellsInv_step {w w' : TypeWorld} {e : Event} (h : ShellsInv w) (hs : w.next e = some w') :
    ShellsInv w' := by
  obtain ⟨m', hstep, rfl⟩ := Option.map_eq_some_iff.mp hs
  intro sh
  show ShellInv (m'.fw.ctx sh) (w.typedNext e sh)
  by_cases hreset : w.m.resets e = some sh
  · rw [typedNext_reset hreset, step_reset hstep hreset]
    exact shellInv_fresh rfl rfl
  · by_cases hedit : w.m.edits e = some sh
    · cases step_cases hstep with
      | @tick t f below r hstack hrun =>
        have hf : f.edits = some sh := by
          rw [Machine.edits, hstack] at hedit
          exact hedit
        rw [typedNext_tick hstack hf]
        cases f with
        | feed sh' data packet =>
          cases data with
          | nil => exact absurd hf (by simp [Frame.edits])
          | cons b rest =>
            obtain rfl := Option.some.inj hf
            rw [runFrame] at hrun
            obtain rfl := Option.some.inj hrun
            exact (h sh').key t b
        | lineDone sh' =>
          obtain rfl := Option.some.inj hf
          rw [runFrame] at hrun
          obtain rfl := Option.some.inj hrun
          show ShellInv ((w.m.fw.setCtx sh' (w.m.fw.ctx sh').clearLine).ctx sh') _
          rw [Fw.setCtx_self]
          exact (h sh').done
        | _ => exact absurd hf (by simp [Frame.edits])
      | _ => exact absurd hedit (by simp [Machine.edits])
    · rw [typedNext_same hreset hedit]
      exact (h sh).congr (step_line hstep hreset hedit)

theorem shellsInv_boot (flash : PicoBLE.Ota.Flash) : ShellsInv (TypeWorld.boot flash) :=
  fun _ => shellInv_fresh rfl rfl

/-- Under the condition nothing is ever lost. -/
theorem typedNext_kept {w : TypeWorld} {e : Event} (hk : TypeKept w e) {sh : Shell}
    (h : (w.typed sh).lost = false) : (w.typedNext e sh).lost = false := by
  unfold TypeWorld.typedNext
  split
  · rfl
  · split
    · next hedit =>
      cases e with
      | tick t =>
        cases hstack : w.m.stack with
        | nil => exact h
        | cons f below =>
          cases f with
          | feed sh' data packet =>
            cases data with
            | nil => exact h
            | cons b rest => exact (key_lost _ b).trans h
          | lineDone sh' =>
            rw [Machine.edits, hstack] at hedit
            obtain rfl := Option.some.inj hedit
            have hnil := hk.2 sh' (by rw [Machine.lineDone, hstack]; rfl)
            simp [Frame.types, hnil]
          | _ => exact h
      | _ => exact absurd hedit (by simp [Machine.edits])
    · exact h

theorem typeInv_step {w w' : TypeWorld} {e : Event} (h : TypeInv w) (hk : TypeKept w e)
    (hs : w.next e = some w') : TypeInv w' := by
  have hshell := shellsInv_step h.shell hs
  obtain ⟨m', hstep, rfl⟩ := Option.map_eq_some_iff.mp hs
  exact ⟨hshell, fun sh => typedNext_kept hk (h.kept sh), by rw [h.same, h.passing hk]⟩

theorem typeInv_reachable {w : TypeWorld} (h : typeWorlds.ReachableWhen TypeKept w) :
    TypeInv w := by
  refine h.inv ?_ fun _ _ _ hinv hk hs => typeInv_step hinv hk hs
  rintro _ ⟨flash, rfl⟩
  exact ⟨shellsInv_boot flash, fun _ => rfl, rfl⟩

/-- `sleep 1s` over BLE, up to where it waits. -/
def sleeping : List Event :=
  [.linkUp, .subscribe, .rx (ascii "sleep 1s")] ++ List.replicate 11 (.tick calm)

end PicoBLE.Cli
