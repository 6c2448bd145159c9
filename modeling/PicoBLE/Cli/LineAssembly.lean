import PicoBLE.Cli.TypeAhead
import PicoBLE.Cli.Nesting

/-!
# Line assembly

`cli_feed` gets what is typed in calls of any size, and the calls fall anywhere:
between a carriage return and its line feed, or in the middle of a line. As
long as no input comes while a handler runs, that makes no difference. What
`end_of_line` passes on is cut out of all the bytes there have been.

* **L1.** The carriage return flag says whether the last byte was one, and then there is no
  text in the line. So the line feed that `cli_feed_line` adds is never taken for the second
  half of a CR LF.
* **L2.** Unless a line is with `end_of_line`, the buffer holds the text of the last piece.
* **L3.** What has been handed over is what the pieces before it come to.
-/

namespace PicoBLE.Cli

open CString (ascii)

/-! ## The whole stream -/

/-- One more byte in front. -/
def consLine (b : UInt8) : List (List UInt8) × List UInt8 → List (List UInt8) × List UInt8
  | ([], rest) => ([], b :: rest)
  | (p :: ps, rest) => ((b :: p) :: ps, rest)

/-- The pieces that have ended, and the one that has not. CR, LF and the two together end one. -/
def splitLines : List UInt8 → List (List UInt8) × List UInt8
  | [] => ([], [])
  | 13 :: 10 :: s => ([] :: (splitLines s).1, (splitLines s).2)
  | 13 :: s => ([] :: (splitLines s).1, (splitLines s).2)
  | 10 :: s => ([] :: (splitLines s).1, (splitLines s).2)
  | b :: s => consLine b (splitLines s)

/-- One byte of a piece. -/
def editByte (text : List UInt8) (b : UInt8) : List UInt8 :=
  if b = 8 ∨ b = 127 then text.dropLast
  else if 32 ≤ b ∧ text.length < cliLineMax - 1 then text ++ [b]
  else text

/-- What a piece comes to. -/
def lineText (piece : List UInt8) : List UInt8 := piece.foldl editByte []

/-- What is handed over of the pieces, and whether to a capture. Empty lines only go to one. -/
def handedLines (pieces : List (List UInt8)) (captured : List Bool) : List (List UInt8 × Bool) :=
  ((pieces.map lineText).zip captured).filter fun l => l.2 || l.1 ≠ []

/-- The last byte is a carriage return. -/
def endsCr (s : List UInt8) : Bool := s.getLast? = some 13

theorem endsCr_cons {b : UInt8} {s : List UInt8} (h : s ≠ [] ∨ b ≠ 13) :
    endsCr (b :: s) = endsCr s := by
  cases s with
  | nil =>
    have hb : b ≠ 13 := h.resolve_left fun hne => hne rfl
    simp [endsCr, hb]
  | cons c s => simp [endsCr]

theorem endsCr_snoc (s : List UInt8) (b : UInt8) : endsCr (s ++ [b]) = decide (b = 13) := by
  simp [endsCr]

/-- A byte that ends nothing. -/
theorem splitLines_char {b : UInt8} (h : b ≠ 13) (h' : b ≠ 10) (s : List UInt8) :
    splitLines (b :: s) = consLine b (splitLines s) := by
  rw [splitLines]
  · exact fun _ he => absurd he h
  · exact h
  · exact h'

theorem splitLines_cr {s : List UInt8} (h : s.head? ≠ some 10) :
    splitLines (13 :: s) = ([] :: (splitLines s).1, (splitLines s).2) := by
  rw [splitLines]
  rintro s' rfl
  exact h rfl

/-- The last piece ends behind more bytes in front. -/
theorem consLine_end (b : UInt8) (r : List (List UInt8) × List UInt8) :
    consLine b (r.1 ++ [r.2], []) = ((consLine b r).1 ++ [(consLine b r).2], []) := by
  obtain ⟨ps, rest⟩ := r
  cases ps <;> rfl

theorem consLine_more (b c : UInt8) (r : List (List UInt8) × List UInt8) :
    consLine b (r.1, r.2 ++ [c]) = ((consLine b r).1, (consLine b r).2 ++ [c]) := by
  obtain ⟨ps, rest⟩ := r
  cases ps <;> rfl

/-- **One more byte at the end.** -/
theorem splitLines_snoc (s : List UInt8) (b : UInt8) :
    splitLines (s ++ [b]) = if b = 10 ∧ endsCr s = true then splitLines s
      else if b = 13 ∨ b = 10 then ((splitLines s).1 ++ [(splitLines s).2], [])
      else ((splitLines s).1, (splitLines s).2 ++ [b]) := by
  have hone : splitLines [b] = if b = 13 ∨ b = 10 then ([[]], []) else ([], [b]) := by
    by_cases hcr : b = 13
    · rw [hcr]; rfl
    · by_cases hlf : b = 10
      · rw [hlf]; rfl
      · rw [if_neg (by simp [hcr, hlf]), splitLines_char hcr hlf]
        rfl
  fun_induction splitLines s with
  | case1 =>
    rw [if_neg (by simp [endsCr])]
    exact hone
  | case2 s ih =>
    rw [endsCr_cons (.inl (List.cons_ne_nil _ _)), endsCr_cons (.inr (by decide))]
    rw [List.cons_append, List.cons_append, splitLines, ih]
    split
    · rfl
    · split <;> rfl
  | case3 s hlf ih =>
    cases s with
    | nil =>
      -- the byte decides whether it belongs to the carriage return
      by_cases hb : b = 10
      · rw [hb]; rfl
      · rw [if_neg fun h => hb h.1, List.singleton_append, splitLines_cr (by simpa using hb), hone]
        split <;> rfl
    | cons c s =>
      have hc : c ≠ 10 := fun he => hlf s (by rw [he])
      rw [endsCr_cons (.inl (List.cons_ne_nil _ _)), List.cons_append,
        splitLines_cr (by simpa using hc), ih]
      split
      · rfl
      · split <;> rfl
  | case4 s ih =>
    rw [endsCr_cons (.inr (by decide)), List.cons_append, splitLines, ih]
    split
    · rfl
    · split <;> rfl
  | case5 c s _ hcr hlf ih =>
    rw [endsCr_cons (.inr hcr), List.cons_append, splitLines_char hcr hlf, ih]
    split
    · rfl
    · split
      · exact consLine_end c _
      · exact consLine_more c b _

/-- L1, of the stream. -/
theorem splitLines_endsCr {s : List UInt8} (h : endsCr s = true) : (splitLines s).2 = [] := by
  have hne : s ≠ [] := by rintro rfl; exact absurd h (by decide)
  rw [← List.dropLast_concat_getLast hne, endsCr_snoc] at h
  have hlast : s.getLast hne = 13 := of_decide_eq_true h
  rw [← List.dropLast_concat_getLast hne, splitLines_snoc, hlast,
    if_neg fun hh => absurd hh.1 (by decide), if_pos (.inl rfl)]

theorem lineText_snoc (piece : List UInt8) (b : UInt8) :
    lineText (piece ++ [b]) = editByte (lineText piece) b := by
  rw [lineText, List.foldl_append]
  rfl

theorem handedLines_snoc {pieces : List (List UInt8)} {captured : List Bool}
    (h : captured.length = pieces.length) (piece : List UInt8) (capturing : Bool) :
    handedLines (pieces ++ [piece]) (captured ++ [capturing]) = handedLines pieces captured ++
      if capturing = true ∨ lineText piece ≠ [] then [(lineText piece, capturing)] else [] := by
  have hlen : (pieces.map lineText).length = captured.length := by rw [List.length_map, h]
  rw [handedLines, List.map_append, List.zip_append hlen, List.filter_append]
  simp [handedLines, List.filter_cons]

/-! ## The calls -/

/-- What happens next. -/
inductive LineEvent where
  /-- `cli_feed` with these bytes, or `cli_feed_line` when `packet`. -/
  | call (sh : Shell) (data : List UInt8) (packet : Bool)
  /-- One of the machine's. -/
  | other (e : Event)

/-- The call that an event is. -/
def LineEvent.input : LineEvent → Option (Shell × List UInt8 × Bool)
  | .call sh data packet => some (sh, data, packet)
  | .other (.rx data) => some (.ble, data, true)
  | .other (.usb b) => some (.usb, [b], false)
  | .other _ => none

/-- One step. Input comes when nothing is in progress. -/
def Machine.lineStep (m : Machine) (e : LineEvent) : Option Machine :=
  if e.input.isSome ∧ m.stack ≠ [] then none
  else
    match e with
    | .call sh data packet => some { m with stack := [.feed sh data packet] }
    | .other e => m.step e

def Machine.lineResets (m : Machine) : LineEvent → Option Shell
  | .call _ _ _ => none
  | .other e => m.resets e

/-- A frame of line assembly. -/
def Frame.assembles : Frame → Bool
  | .feed _ _ _ => true
  | .lineDone _ => true
  | _ => false

/-- The line assembly that is in progress. -/
def assembling (fs : List Frame) : List Frame := fs.filter Frame.assembles

/-- The bytes for a shell that are still to come in the call. -/
def toCome (sh : Shell) (fs : List Frame) : List UInt8 :=
  fs.flatMap fun
    | .feed sh' data _ => if sh' = sh then data else []
    | _ => []

/-- What is written down of a shell since it was reset. -/
structure Assembly where
  /-- What the calls passed, with the line feeds that `cli_feed_line` added. -/
  stream : List UInt8
  /-- The part of it that has been read. -/
  fed : List UInt8
  /-- Whether the shell captured, at each `end_of_line`. -/
  captured : List Bool
  /-- What was passed on, and whether to the capture callback. -/
  handed : List (List UInt8 × Bool)
  /-- The last call was one of `cli_feed_line`. -/
  packet : Bool

def Assembly.fresh : Assembly :=
  { stream := [], fed := [], captured := [], handed := [], packet := false }

namespace Assembly

variable (a : Assembly)

/-- A reset, with these bytes still to come. -/
def reset (rest : List UInt8) : Assembly := { fresh with stream := rest, packet := a.packet }

def called (data : List UInt8) (packet : Bool) : Assembly :=
  { a with stream := a.stream ++ data, packet := packet }

/-- A byte is read, in this state of the shell, and this is passed on. -/
def read (b : UInt8) (c : CliCtx) (line : Option (List UInt8)) : Assembly :=
  { a with
    fed := a.fed ++ [b]
    captured := if endsLine b c then a.captured ++ [c.capturing] else a.captured
    handed := a.handed ++ (line.map fun text => (text, c.capturing)).toList }

/-- A packet has been read. If there is text in its last line a line feed is added. -/
def packetEnd : Assembly :=
  { a with stream := if lineText (splitLines a.stream).2 ≠ [] then a.stream ++ [10] else a.stream }

end Assembly

/-- The machine, and what is written down. -/
structure LineWorld where
  m : Machine
  asm : Shell → Assembly

/-- What the frame that runs writes down. -/
def Frame.notes (f : Frame) (fw : Fw) (sh : Shell) (a : Assembly) : Assembly :=
  match f with
  | .feed sh' (b :: _) _ =>
    if sh' = sh then a.read b (fw.ctx sh) ((f.handing fw).map Prod.snd) else a
  | .feed sh' [] true => if sh' = sh then a.packetEnd else a
  | _ => a

/-- What is written down in a step: of the reset, the call, and the frame that runs. -/
def LineWorld.asmNext (w : LineWorld) (e : LineEvent) (sh : Shell) : Assembly :=
  let a := if w.m.lineResets e = some sh then (w.asm sh).reset (toCome sh w.m.stack) else w.asm sh
  match e with
  | .other (.tick _) => (w.m.stack.head?.map fun f => f.notes w.m.fw sh a).getD a
  | e =>
    match e.input with
    | some (sh', data, packet) => if sh' = sh then a.called data packet else a
    | none => a

def LineWorld.next (w : LineWorld) (e : LineEvent) : Option LineWorld :=
  (w.m.lineStep e).map fun m' => { m := m', asm := w.asmNext e }

def LineWorld.boot (flash : PicoBLE.Ota.Flash) : LineWorld where
  m := Machine.boot flash
  asm := fun _ => .fresh

def lineWorlds : LTS LineWorld LineEvent :=
  LTS.ofFun (fun w => ∃ flash, w = LineWorld.boot flash) LineWorld.next

/-! ## The frames of line assembly -/

theorem assembling_append (fs gs : List Frame) :
    assembling (fs ++ gs) = assembling fs ++ assembling gs :=
  List.filter_append _ _

/-- The frames of a command, and a loop of `run`, are none. -/
theorem assembling_above {fs : List Frame} (h : ∀ f ∈ fs, f.inner = true ∨ f.run.isSome) :
    assembling fs = [] := by
  refine List.filter_eq_nil_iff.mpr fun f hf => ?_
  have hab := h f hf
  cases f <;> simp_all [Frame.assembles, Frame.inner, Frame.run]

theorem assembling_inner {fs : List Frame} (h : ∀ f ∈ fs, f.inner = true) : assembling fs = [] :=
  assembling_above fun f hf => .inl (h f hf)

theorem toCome_assembling (sh : Shell) (fs : List Frame) :
    toCome sh (assembling fs) = toCome sh fs := by
  induction fs with
  | nil => rfl
  | cons f fs ih =>
    rw [assembling] at ih ⊢
    cases f with
    | feed sh' data packet =>
      rw [List.filter_cons_of_pos rfl, toCome, List.flatMap_cons]
      exact congrArg (_ ++ ·) ih
    | lineDone sh' =>
      rw [List.filter_cons_of_pos rfl]
      exact ih
    | _ => exact ih

/-- Nothing is in progress, or a call is, or a line of it is with `end_of_line`. -/
inductive InCall : List Frame → Prop where
  | idle : InCall []
  | feeding (sh : Shell) (data : List UInt8) (packet : Bool) : InCall [.feed sh data packet]
  | ended (sh : Shell) (data : List UInt8) (packet : Bool) : InCall [.lineDone sh,
      .feed sh data packet]

theorem endOfLine_assembling (t : Tick) (sh : Shell) (fw : Fw) :
    assembling (endOfLine t sh fw).push = [.lineDone sh] := by
  unfold endOfLine
  dsimp only
  split
  · rfl
  · split
    · dsimp only
      rw [assembling_append, assembling_inner (dispatchLine_inner _ _ _)]
      rfl
    · rfl

theorem feedByte_assembling (t : Tick) (sh : Shell) (b : UInt8) (fw : Fw) :
    assembling (feedByte t sh b fw).push = if endsLine b (fw.ctx sh) = true then
    [.lineDone sh] else [] := by
  rcases feedByte_cases t sh b fw with ⟨hends, c, -, he⟩ | ⟨hends, he | he⟩
  · rw [he, if_neg (by rw [hends]; exact Bool.false_ne_true)]
    rfl
  · rw [he, if_pos hends]
    exact endOfLine_assembling t sh fw
  · rw [he, if_pos hends]
    exact endOfLine_assembling t sh _

/-! ## The invariant -/

/-- L1 to L3, of one shell, when this line assembly is in progress. -/
structure Lines (c : CliCtx) (a : Assembly) (sh : Shell) (calls : List Frame) : Prop where
  /-- L1 -/
  cr : c.lastWasCr = endsCr a.fed
  /-- L2 -/
  held : .lineDone sh ∉ calls → Holding c (lineText (splitLines a.fed).2)
  ended : .lineDone sh ∈ calls → (splitLines a.fed).2 = []
  count : a.captured.length = (splitLines a.fed).1.length
  /-- L3 -/
  handed : a.handed = handedLines (splitLines a.fed).1 a.captured
  stream : a.stream = a.fed ++ toCome sh calls
  /-- A packet that has been read leaves no text, but for the line feed that is added. -/
  packet : a.packet = true → (∃ data, .feed sh data true ∈ calls) ∨
    lineText (splitLines a.stream).2 = [] ∧ (toCome sh calls = [] ∨ toCome sh calls = [10])

structure LineInv (w : LineWorld) : Prop where
  calls : InCall (assembling w.m.stack)
  shell : ∀ sh, Lines (w.m.fw.ctx sh) (w.asm sh) sh (assembling w.m.stack)

theorem lines_fresh {c : CliCtx} (hcr : c.lastWasCr = false) (hlen : c.lineLen.1 = 0) (sh : Shell) :
    Lines c .fresh sh [] :=
  ⟨hcr, fun _ => holding_nil hlen, fun _ => rfl, rfl, rfl, rfl, fun h =>
    absurd h Bool.false_ne_true⟩

variable {c : CliCtx} {a : Assembly} {sh : Shell} {calls : List Frame}

theorem Lines.congr {c' : CliCtx} (h : Lines c a sh calls) (hs : SameLine c c') :
    Lines c' a sh calls :=
  ⟨hs.cr.trans h.cr, fun hn => (h.held hn).congr hs, h.ended, h.count, h.handed, h.stream, h.packet⟩

/-- The shell that a frame of line assembly is for. -/
def Frame.lineShell : Frame → Option Shell
  | .feed sh _ _ => some sh
  | .lineDone sh => some sh
  | _ => none

/-- The line assembly is another shell's. -/
def Elsewhere (sh : Shell) (calls : List Frame) : Prop := ∀ f ∈ calls, f.lineShell ≠ some sh

theorem Elsewhere.toCome (h : Elsewhere sh calls) : toCome sh calls = [] := by
  refine List.flatMap_eq_nil_iff.mpr fun f hf => ?_
  have hne := h f hf
  cases f with
  | feed sh' data packet => exact if_neg fun heq => hne (congrArg some heq)
  | _ => rfl

/-- It does not matter then. -/
theorem Lines.elsewhere {calls' : List Frame} (h : Lines c a sh calls) (hcalls : Elsewhere sh calls)
    (hcalls' : Elsewhere sh calls') : Lines c a sh calls' := by
  refine ⟨h.cr, fun _ => h.held fun hm => hcalls _ hm rfl, fun hm => absurd rfl (hcalls' _ hm),
    h.count, h.handed, ?_, fun hp => ?_⟩
  · rw [h.stream, hcalls.toCome, hcalls'.toCome]
  · rw [hcalls'.toCome]
    rcases h.packet hp with ⟨data, hmem⟩ | hr
    · exact absurd rfl (hcalls _ hmem)
    · exact .inr ⟨hr.1, .inl rfl⟩

/-- A reset. -/
theorem Lines.reset (h : Lines c a sh calls) :
    Lines (cliReset c) (a.reset (toCome sh calls)) sh calls := by
  refine ⟨rfl, fun _ => holding_nil rfl, fun _ => rfl, rfl, rfl, rfl, fun hp => ?_⟩
  rcases h.packet hp with hl | ⟨-, hcome⟩
  · exact .inl hl
  · refine .inr ⟨?_, hcome⟩
    show lineText (splitLines (toCome sh calls)).2 = []
    rcases hcome with hnil | hlf
    · rw [hnil]; rfl
    · rw [hlf]; rfl

/-- A call. -/
theorem Lines.called (h : Lines c a sh []) (data : List UInt8) (packet : Bool) :
    Lines c (a.called data packet) sh [.feed sh data packet] := by
  refine ⟨h.cr, fun _ => h.held List.not_mem_nil, fun hm => absurd hm (by simp), h.count, h.handed,
    ?_, fun hp => ?_⟩
  · have hcome : toCome sh [.feed sh data packet] = data := by simp [toCome]
    have hall : a.stream = a.fed := h.stream.trans (List.append_nil _)
    rw [hcome, Assembly.called, hall]
  · obtain rfl : packet = true := hp
    exact .inl ⟨data, List.mem_singleton_self _⟩

/-! ### One byte -/

/-- What has been typed in the line. -/
def Assembly.typed (a : Assembly) : Typed where
  text := lineText (splitLines a.fed).2
  lastCr := endsCr a.fed
  busy := false
  lost := false

theorem key_text {s : Typed} {b : UInt8} (h : s.ends b = false) :
    (s.key b).text = editByte s.text b := by
  rw [key_char h, editByte]
  split
  · rfl
  · split <;> rfl

theorem key_idle {s : Typed} {b : UInt8} (h : s.ends b = false) :
    (s.key b).lastCr = false ∧ (s.key b).busy = s.busy := by
  rw [key_char h]
  split
  · exact ⟨rfl, rfl⟩
  · split <;> exact ⟨rfl, rfl⟩

theorem lineText_nul (piece : List UInt8) : 0 ∉ lineText piece := by
  induction piece using List.reverseRecOn with
  | nil => exact List.not_mem_nil
  | append_singleton piece b ih =>
    rw [lineText_snoc, editByte]
    split
    · exact fun hmem => ih (List.mem_of_mem_dropLast hmem)
    · split
      · next hb =>
        intro hmem
        rcases List.mem_append.mp hmem with hmem | hmem
        · exact ih hmem
        · obtain rfl := List.mem_singleton.mp hmem
          exact absurd hb.1 (by decide)
      · exact ih

/-- A byte that ends a line ends a piece. -/
theorem splitLines_ends {b : UInt8} (h : a.typed.ends b = true) :
    splitLines (a.fed ++ [b]) = ((splitLines a.fed).1 ++ [(splitLines a.fed).2], []) := by
  simp only [Typed.ends, Assembly.typed, Bool.or_eq_true, Bool.and_eq_true, decide_eq_true_eq,
    Bool.not_eq_true'] at h
  rw [splitLines_snoc, if_neg, if_pos (h.imp_right And.left)]
  rintro ⟨rfl, hcr⟩
  rcases h with h | ⟨-, hno⟩
  · exact absurd h (by decide)
  · exact absurd (hno.symm.trans hcr) Bool.false_ne_true

/-- And another goes to the text of the last one. -/
theorem splitLines_types {b : UInt8} (h : a.typed.ends b = false) :
    (splitLines (a.fed ++ [b])).1 = (splitLines a.fed).1 ∧
      lineText (splitLines (a.fed ++ [b])).2 = editByte (lineText (splitLines a.fed).2) b := by
  simp only [Typed.ends, Assembly.typed, Bool.or_eq_false_iff, Bool.and_eq_false_iff,
    decide_eq_false_iff_not, Bool.not_eq_false'] at h
  rw [splitLines_snoc]
  split
  · next hlf =>
    rw [hlf.1]
    exact ⟨rfl, rfl⟩
  · next hlf =>
    have hb : ¬ (b = 13 ∨ b = 10) := by
      rintro (hb | hb)
      · exact h.1 hb
      · exact h.2.elim (fun hn => hn hb) fun hcr => hlf ⟨hb, hcr⟩
    rw [if_neg hb]
    exact ⟨rfl, lineText_snoc _ _⟩

theorem toCome_feed (sh : Shell) (data : List UInt8) (packet : Bool) :
    toCome sh [.feed sh data packet] = data := by
  simp [toCome]

/-- The rest of a packet is one; behind the line feed that is added there is nothing. -/
theorem Lines.packet_read {b : UInt8} {rest : List UInt8} {packet : Bool}
    (h : Lines c a sh [.feed sh (b :: rest) packet]) {calls' : List Frame}
    (hmem : .feed sh rest packet ∈ calls') (hcome : toCome sh calls' = rest)
    (hp : a.packet = true) :
    (∃ data, .feed sh data true ∈ calls') ∨
      lineText (splitLines a.stream).2 = [] ∧
      (toCome sh calls' = [] ∨ toCome sh calls' = [10]) := by
  rcases h.packet hp with ⟨data, hfeed⟩ | ⟨htext, hlf⟩
  · obtain ⟨-, -, rfl⟩ := Frame.feed.inj (List.mem_singleton.mp hfeed)
    exact .inl ⟨rest, hmem⟩
  · rw [toCome_feed] at hlf
    have hrest : rest = [] := by
      rcases hlf with hlf | hlf
      · exact absurd hlf (List.cons_ne_nil _ _)
      · exact (List.cons.inj hlf).2
    exact .inr ⟨htext, .inl (hcome.trans hrest)⟩

/-- What a byte finds while its call is in progress. -/
theorem Lines.shellInv {b : UInt8} {rest : List UInt8} {packet : Bool}
    (h : Lines c a sh [.feed sh (b :: rest) packet]) : ShellInv c a.typed :=
  ⟨h.cr, lineText_nul (splitLines a.fed).2, fun _ _ => h.held (by simp)⟩

/-- The byte is no longer to come. -/
theorem Lines.stream_read {b : UInt8} {rest : List UInt8} {packet : Bool}
    (h : Lines c a sh [.feed sh (b :: rest) packet]) :
    a.stream = (a.fed ++ [b]) ++ toCome sh [.feed sh rest packet] := by
  rw [h.stream, toCome_feed, toCome_feed, List.append_assoc]
  rfl

/-- It ends a line, and `end_of_line` hands this over. -/
theorem Lines.read_ends {fw : Fw} {b : UInt8} {rest : List UInt8} {packet : Bool}
    (h : Lines (fw.ctx sh) a sh [.feed sh (b :: rest) packet]) (t : Tick)
    (hb : a.typed.ends b = true) :
    Lines ((feedByte t sh b fw).fw.ctx sh) (a.read b (fw.ctx sh) (fw.ctx sh).handed) sh
      [.lineDone sh, .feed sh rest packet] := by
  have hheld := h.held (by simp)
  have hkey := h.shellInv.key t b
  rw [key_ends hb] at hkey
  unfold Assembly.read
  rw [h.shellInv.ends_eq b, hb, if_pos rfl, hheld.handed (lineText_nul _)]
  have hsplit := splitLines_ends hb
  refine ⟨?_, fun hn => absurd List.mem_cons_self hn, fun _ => congrArg Prod.snd hsplit, ?_,
    ?_, h.stream_read,
    h.packet_read (List.mem_cons_of_mem _ (List.mem_singleton_self _)) (toCome_feed sh rest packet)⟩
  · show _ = endsCr (a.fed ++ [b])
    rw [hkey.cr, endsCr_snoc]
  · show (a.captured ++ [(fw.ctx sh).capturing]).length = (splitLines (a.fed ++ [b])).1.length
    rw [hsplit, List.length_append, List.length_append, h.count]
    rfl
  · dsimp only
    rw [hsplit, handedLines_snoc h.count, h.handed]
    split <;> rfl

/-- It goes to the line, or it is dropped. -/
theorem Lines.read_types {fw : Fw} {b : UInt8} {rest : List UInt8} {packet : Bool}
    (h : Lines (fw.ctx sh) a sh [.feed sh (b :: rest) packet]) (t : Tick)
    (hb : a.typed.ends b = false) :
    Lines ((feedByte t sh b fw).fw.ctx sh) (a.read b (fw.ctx sh) none) sh
      [.feed sh rest packet] := by
  have hkey := h.shellInv.key t b
  unfold Assembly.read
  rw [h.shellInv.ends_eq b, hb, if_neg Bool.false_ne_true]
  obtain ⟨hpieces, htext⟩ := splitLines_types hb
  obtain ⟨hcr, hidle⟩ := key_idle hb
  have hb13 : b ≠ 13 := by
    rintro rfl
    exact absurd hb (by simp [Typed.ends])
  refine ⟨?_, fun _ => ?_, fun hm => absurd hm (by simp), ?_, ?_, h.stream_read,
    h.packet_read (List.mem_singleton_self _) (toCome_feed sh rest packet)⟩
  · show _ = endsCr (a.fed ++ [b])
    rw [hkey.cr, hcr, endsCr_snoc, decide_eq_false hb13]
  · show Holding _ (lineText (splitLines (a.fed ++ [b])).2)
    rw [htext]
    exact key_text hb ▸ hkey.held (key_lost _ b) hidle
  · exact h.count.trans (congrArg List.length hpieces).symm
  · show a.handed ++ [] = handedLines (splitLines (a.fed ++ [b])).1 a.captured
    rw [hpieces, List.append_nil, h.handed]

/-- **A byte is read.** -/
theorem Lines.read {fw : Fw} {b : UInt8} {rest : List UInt8} {packet : Bool}
    (h : Lines (fw.ctx sh) a sh [.feed sh (b :: rest) packet]) (t : Tick) :
    Lines ((feedByte t sh b fw).fw.ctx sh)
      (a.read b (fw.ctx sh) (if endsLine b (fw.ctx sh) = true then (fw.ctx sh).handed else none)) sh
      ((if endsLine b (fw.ctx sh) = true then [.lineDone sh]
        else []) ++ [.feed sh rest packet]) := by
  cases hb : a.typed.ends b with
  | true =>
    rw [h.shellInv.ends_eq b, hb, if_pos rfl, if_pos rfl]
    exact h.read_ends t hb
  | false =>
    rw [h.shellInv.ends_eq b, hb, if_neg Bool.false_ne_true, if_neg Bool.false_ne_true]
    exact h.read_types t hb

/-! ### The end of a call and of a line -/

/-- All of a call has been read. A packet goes on with a line feed if there is text left. -/
theorem Lines.callEnd {packet : Bool} (h : Lines c a sh [.feed sh [] packet]) :
    Lines c (if packet = true then a.packetEnd else a) sh
      (if packet = true ∧ 0 < c.lineLen.1 then [.feed sh [10] false] else []) := by
  have hheld := h.held (by simp)
  have hall : a.stream = a.fed := by
    rw [h.stream, toCome_feed, List.append_nil]
  have hiff : 0 < c.lineLen.1 ↔ lineText (splitLines a.stream).2 ≠ [] := by
    rw [hheld.len, hall, List.length_pos_iff]
  cases packet with
  | false =>
    rw [if_neg Bool.false_ne_true, if_neg (by simp)]
    refine ⟨h.cr, fun _ => hheld, fun hm => absurd hm List.not_mem_nil, h.count, h.handed,
      hall.trans (List.append_nil _).symm, fun hp => ?_⟩
    rcases h.packet hp with ⟨data, hfeed⟩ | ⟨htext, -⟩
    · exact absurd (Frame.feed.inj (List.mem_singleton.mp hfeed)).2.2 (by simp)
    · exact .inr ⟨htext, .inl rfl⟩
  | true =>
    rw [if_pos rfl, Assembly.packetEnd]
    by_cases hleft : lineText (splitLines a.stream).2 = []
    · rw [if_neg (fun hne => hne hleft), if_neg fun hlen => hiff.mp hlen.2 hleft]
      exact ⟨h.cr, fun _ => hheld, fun hm => absurd hm List.not_mem_nil, h.count, h.handed,
        hall.trans (List.append_nil _).symm, fun _ => .inr ⟨hleft, .inl rfl⟩⟩
    · rw [if_pos hleft, if_pos ⟨rfl, hiff.mpr hleft⟩]
      refine ⟨h.cr, fun _ => hheld, fun hm => absurd hm (by simp), h.count, h.handed, ?_, fun _ =>
        .inr ⟨?_, ?_⟩⟩
      · show a.stream ++ [10] = a.fed ++ _
        rw [toCome_feed, hall]
      · -- the line feed ends a piece, even behind a carriage return
        show lineText (splitLines (a.stream ++ [10])).2 = []
        rw [splitLines_snoc]
        split
        · next hcr => rw [splitLines_endsCr hcr.2]; rfl
        · rw [if_pos (.inr rfl)]
          rfl
      · exact .inr (toCome_feed sh [10] false)

/-- `line_len = 0`. -/
theorem Lines.lineEnd {data : List UInt8} {packet : Bool}
    (h : Lines c a sh [.lineDone sh, .feed sh data packet]) :
    Lines c.clearLine a sh [.feed sh data packet] := by
  have hnil := h.ended List.mem_cons_self
  refine ⟨h.cr, fun _ => ?_, fun hm => absurd hm (by simp), h.count, h.handed,
    h.stream, fun hp => ?_⟩
  · rw [hnil]
    exact holding_nil rfl
  · rcases h.packet hp with ⟨data', hfeed⟩ | hr
    · exact .inl ⟨data', (List.mem_cons.mp hfeed).resolve_left (by simp)⟩
    · exact .inr hr

/-! ## Every step -/

/-- The context in a step, with what is written down of a reset. -/
theorem Lines.outside {m m' : Machine} {e : Event} (hs : m.step e = some m')
    (hedit : m.edits e ≠ some sh) (h : Lines (m.fw.ctx sh) a sh (assembling m.stack)) :
    Lines (m'.fw.ctx sh) (if m.resets e = some sh then a.reset (toCome sh m.stack) else a) sh
      (assembling m.stack) := by
  by_cases hreset : m.resets e = some sh
  · rw [if_pos hreset, step_reset hs hreset, ← toCome_assembling]
    exact h.reset
  · rw [if_neg hreset]
    exact h.congr (step_line hs hreset hedit)

/-- What is not input, and no tick, leaves the line assembly in progress as it is. -/
theorem outside_assembling {m m' : Machine} {e : Event} (hs : m.step e = some m')
    (htick : ∀ t, e ≠ .tick t) (hinput : (LineEvent.other e).input = none) :
    assembling m'.stack = assembling m.stack := by
  cases step_cases hs with
  | tick _ _ => exact absurd rfl (htick _)
  | rx _ => exact absurd hinput (by simp [LineEvent.input])
  | usb _ => exact absurd hinput (by simp [LineEvent.input])
  | usbFirst _ => exact absurd hinput (by simp [LineEvent.input])
  | fire _ =>
    rw [Ran.resume, assembling_append, assembling_inner (dispatchLine_inner _ _ _), List.nil_append]
  | @httpDone t ok name below hstack hok =>
    obtain ⟨flash, rc, hdone⟩ := fetchDone_fw t ok name m.fw
    rw [hstack, hdone]
    rfl
  | leafDone hstack => rw [hstack]; rfl
  | _ => rfl

/-- A call that begins. -/
theorem LineInv.input {w : LineWorld} {m' : Machine} {sh : Shell}
    {data : List UInt8} {packet : Bool} (h : ∀ other, Lines (m'.fw.ctx other) (w.asm other) other
      []) (hstack : m'.stack = [.feed sh data packet]) :
    LineInv { m := m', asm := fun other =>
      if sh = other then (w.asm other).called data packet else w.asm other } := by
  refine ⟨?_, fun other => ?_⟩
  · dsimp only
    rw [hstack]
    exact .feeding sh data packet
  · dsimp only
    rw [hstack]
    by_cases heq : sh = other
    · subst heq
      rw [if_pos rfl]
      exact (h sh).called data packet
    · rw [if_neg heq]
      exact (h other).elsewhere (fun _ hf => absurd hf List.not_mem_nil)
        fun f hf => List.mem_singleton.mp hf ▸ fun hsome => heq (Option.some.inj hsome)

theorem handing_text {sh : Shell} {b : UInt8} {rest : List UInt8} {packet : Bool} {fw : Fw} :
    ((Frame.feed sh (b :: rest) packet).handing fw).map Prod.snd =
      if endsLine b (fw.ctx sh) = true then (fw.ctx sh).handed else none := by
  rw [Frame.handing]
  split
  · cases (fw.ctx sh).handed <;> rfl
  · rfl

/-- The line assembly that is in progress when one of its frames is innermost. -/
theorem InCall.innermost {f : Frame} {below : List Frame} (h : InCall (assembling (f :: below)))
    (hf : f.assembles = true) :
    (∃ sh data packet, f = .feed sh data packet ∧ assembling below = []) ∨
      ∃ sh data packet, f = .lineDone sh ∧ assembling below = [.feed sh data packet] := by
  rw [assembling, List.filter_cons_of_pos hf] at h
  change InCall (f :: assembling below) at h
  generalize assembling below = rest at h
  cases h with
  | feeding sh data packet => exact .inl ⟨sh, data, packet, rfl, rfl⟩
  | ended sh data packet => exact .inr ⟨sh, data, packet, rfl, rfl⟩

/-- A frame of line assembly runs: it is enough to follow its own shell. -/
theorem LineInv.assembled {w : LineWorld} {m' : Machine} {t : Tick} {f : Frame}
    {below calls' : List Frame} {sh : Shell} (h : LineInv w) (hs : w.m.step (.tick t) = some m')
    (hstack : w.m.stack = f :: below) (hnow : ∀ g ∈ assembling w.m.stack, g.lineShell = some sh)
    (hf : f.lineShell = some sh) (hafter : assembling m'.stack = calls') (hcalls' : InCall calls')
    (hall : ∀ g ∈ calls', g.lineShell = some sh)
    (hown : Lines (m'.fw.ctx sh) (f.notes w.m.fw sh (w.asm sh)) sh calls') :
    LineInv { m := m', asm := fun other => f.notes w.m.fw other (w.asm other) } := by
  subst hafter
  refine ⟨hcalls', fun other => ?_⟩
  by_cases heq : sh = other
  · exact heq ▸ hown
  · have hne : ∀ {g : Frame}, g.lineShell = some sh → g.lineShell ≠ some other :=
      fun hg hother => heq (Option.some.inj (hg.symm.trans hother))
    have hedit : w.m.edits (.tick t) ≠ some other := by
      rw [Machine.edits, hstack]
      cases f with
      | feed sh' data packet =>
        cases data with
        | nil => simp [Frame.edits]
        | cons b rest => exact hne hf
      | lineDone sh' => exact hne hf
      | _ => simp [Frame.edits]
    have hsame := step_line hs (by simp [Machine.resets]) hedit
    have hnotes : f.notes w.m.fw other (w.asm other) = w.asm other := by
      cases f with
      | feed sh' data packet =>
        have hsh : ¬ sh' = other := fun he => hne hf (congrArg some he)
        cases data with
        | nil => cases packet <;> simp [Frame.notes, hsh]
        | cons b rest => exact if_neg hsh
      | _ => rfl
    dsimp only
    rw [hnotes]
    exact ((h.shell other).congr hsame).elsewhere (fun g hg => hne (hnow g hg)) fun g hg =>
      hne (hall g hg)

theorem step_tick {m : Machine} {f : Frame} {below : List Frame} {t : Tick}
    (hstack : m.stack = f :: below) :
    m.step (.tick t) = (runFrame t f m.fw m.rc).map (·.resume below) := by
  rw [Machine.step, hstack]

/-- A call that has read everything returns, or feeds the line feed of a packet. -/
theorem cliFeed_nil {t : Tick} {sh : Shell} {packet : Bool} {fw : Fw} :
    (cliFeed t sh [] packet fw).fw = fw ∧ assembling (cliFeed t sh [] packet fw).push =
      if packet = true ∧ 0 < (fw.ctx sh).lineLen.1 then [.feed sh [10] false] else [] := by
  unfold cliFeed
  dsimp only
  split <;> exact ⟨rfl, rfl⟩

/-- A call takes its next byte. -/
theorem cliFeed_cons {t : Tick} {sh : Shell} {b : UInt8} {rest : List UInt8}
    {packet : Bool} {fw : Fw} :
    assembling (cliFeed t sh (b :: rest) packet fw).push =
      (if endsLine b (fw.ctx sh) = true then [.lineDone sh] else []) ++ [.feed sh rest packet] := by
  rw [cliFeed, assembling_append, feedByte_assembling]
  rfl

/-- `cli_feed` takes a byte, or returns. -/
theorem LineInv.feed {w : LineWorld} {m' : Machine} {t : Tick} {sh : Shell}
    {data : List UInt8} {packet : Bool} {below : List Frame} (h : LineInv w)
    (hs : w.m.step (.tick t) = some m') (hstack : w.m.stack = .feed sh data packet :: below)
    (hbelow : assembling below = []) :
    LineInv
      { m := m',
        asm := fun other => (Frame.feed sh data packet).notes w.m.fw other (w.asm other) } := by
  have hnow : assembling w.m.stack = [.feed sh data packet] := by
    rw [hstack, assembling, List.filter_cons_of_pos rfl]
    exact congrArg _ hbelow
  have hshell := h.shell sh
  rw [hnow] at hshell
  have hfor : ∀ g ∈ assembling w.m.stack, g.lineShell = some sh := by
    rw [hnow]
    exact fun g hg => List.mem_singleton.mp hg ▸ rfl
  have hm' : m' = (cliFeed t sh data packet w.m.fw).resume below := by
    rw [step_tick hstack] at hs
    exact (Option.some.inj hs).symm
  have hafter : assembling m'.stack = assembling (cliFeed t sh data packet w.m.fw).push := by
    rw [hm', Ran.resume, assembling_append, hbelow, List.append_nil]
  cases data with
  | nil =>
    obtain ⟨hfw, hpush⟩ := @cliFeed_nil t sh packet w.m.fw
    refine h.assembled hs hstack hfor rfl (hafter.trans hpush) ?_ ?_ ?_
    · split
      · exact .feeding _ _ _
      · exact .idle
    · split
      · exact fun g hg => List.mem_singleton.mp hg ▸ rfl
      · exact fun _ hg => absurd hg List.not_mem_nil
    · have hnotes : (Frame.feed sh [] packet).notes w.m.fw sh (w.asm sh) =
          if packet = true then (w.asm sh).packetEnd else w.asm sh := by
        cases packet
        · rfl
        · exact if_pos rfl
      rw [hm', Ran.resume, hfw, hnotes]
      exact hshell.callEnd
  | cons b rest =>
    refine h.assembled hs hstack hfor rfl (hafter.trans cliFeed_cons) ?_ ?_ ?_
    · split
      · exact .ended _ _ _
      · exact .feeding _ _ _
    · split <;> simp [Frame.lineShell]
    · have hnotes : (Frame.feed sh (b :: rest) packet).notes w.m.fw sh (w.asm sh) =
          (w.asm sh).read b (w.m.fw.ctx sh)
            (if endsLine b (w.m.fw.ctx sh) = true then (w.m.fw.ctx sh).handed else none) := by
        rw [Frame.notes, if_pos rfl, handing_text]
      rw [hm', hnotes]
      exact hshell.read t

/-- `end_of_line` returns. -/
theorem LineInv.lineDone {w : LineWorld} {m' : Machine} {t : Tick} {sh : Shell}
    {data : List UInt8} {packet : Bool} {below : List Frame} (h : LineInv w)
    (hs : w.m.step (.tick t) = some m') (hstack : w.m.stack = .lineDone sh :: below)
    (hbelow : assembling below = [.feed sh data packet]) :
    LineInv
      { m := m', asm := fun other => (Frame.lineDone sh).notes w.m.fw other (w.asm other) } := by
  have hnow : assembling w.m.stack = [.lineDone sh, .feed sh data packet] := by
    rw [hstack, assembling, List.filter_cons_of_pos rfl]
    exact congrArg _ hbelow
  have hshell := h.shell sh
  rw [hnow] at hshell
  have hm' : m' = ((w.m.fw.setCtx sh (w.m.fw.ctx sh).clearLine).ret w.m.rc).resume below := by
    rw [step_tick hstack] at hs
    exact (Option.some.inj hs).symm
  refine h.assembled hs hstack ?_ rfl (show assembling m'.stack = [.feed sh data packet] from ?_)
    (.feeding _ _ _)
    ?_ ?_
  · rw [hnow]
    simp [Frame.lineShell]
  · rw [hm']
    exact hbelow
  · exact fun g hg => List.mem_singleton.mp hg ▸ rfl
  · rw [hm', Ran.resume]
    dsimp only [Fw.ret]
    rw [Fw.setCtx_self]
    exact hshell.lineEnd

/-- A command runs on. -/
theorem LineInv.command {w : LineWorld} {m' : Machine} {t : Tick} {f : Frame} {below : List Frame}
    (h : LineInv w) (hs : w.m.step (.tick t) = some m') (hstack : w.m.stack = f :: below)
    (hf : f.inner = true ∨ f.run.isSome) :
    LineInv { m := m', asm := fun sh => f.notes w.m.fw sh (w.asm sh) } := by
  have hedits : f.edits = none := by
    cases f <;> first | rfl | exact absurd hf (by simp [Frame.inner, Frame.run])
  have hnotes : ∀ sh, f.notes w.m.fw sh (w.asm sh) = w.asm sh := by
    intro sh
    cases f <;> first | rfl | exact absurd hf (by simp [Frame.inner, Frame.run])
  have hnow : assembling m'.stack = assembling w.m.stack := by
    rw [step_tick hstack] at hs
    obtain ⟨r, hrun, rfl⟩ := Option.map_eq_some_iff.mp hs
    rw [Ran.resume, hstack, assembling_append, assembling_above (tick_inner hrun hf),
      show f :: below = [f] ++ below from rfl, assembling_append,
      assembling_above fun g hg => List.mem_singleton.mp hg ▸ hf]
  refine ⟨hnow ▸ h.calls, fun sh => ?_⟩
  have hedit : w.m.edits (.tick t) ≠ some sh := by
    rw [Machine.edits, hstack]
    simp [hedits]
  have hsame := step_line hs (by simp [Machine.resets]) hedit
  dsimp only
  rw [hnotes, hnow]
  exact (h.shell sh).congr hsame

theorem asmNext_tick {w : LineWorld} {t : Tick} {f : Frame} {below : List Frame}
    (hstack : w.m.stack = f :: below) (sh : Shell) :
    w.asmNext (.other (.tick t)) sh = f.notes w.m.fw sh (w.asm sh) := by
  unfold LineWorld.asmNext
  dsimp only
  rw [hstack, if_neg (by simp [Machine.lineResets, Machine.resets])]
  rfl

/-- What else a step writes down: the reset, and the call. -/
theorem asmNext_outside {w : LineWorld} {e : Event} (htick : ∀ t, e ≠ .tick t) (sh : Shell) :
    w.asmNext (.other e) sh =
      (match (LineEvent.other e).input with
        | some (sh', data, packet) =>
        fun a : Assembly => if sh' = sh then a.called data packet else a
        | none => id)
      (if w.m.resets e = some sh then (w.asm sh).reset (toCome sh w.m.stack) else w.asm sh) := by
  cases e with
  | tick t => exact absurd rfl (htick t)
  | _ => rfl

/-- A callback, a timer, or a command that was waiting. -/
theorem LineInv.outside {w : LineWorld} {m' : Machine} {e : Event} (h : LineInv w)
    (hs : w.m.step e = some m') (htick : ∀ t, e ≠ .tick t)
    (hidle : ∀ i, (LineEvent.other e).input = some i → w.m.stack = []) :
    LineInv { m := m', asm := w.asmNext (.other e) } := by
  have hedit : ∀ sh, w.m.edits e ≠ some sh := by
    intro sh
    cases e with
    | tick t => exact absurd rfl (htick t)
    | _ => simp [Machine.edits]
  have hreset : ∀ sh, Lines (m'.fw.ctx sh)
      (if w.m.resets e = some sh then (w.asm sh).reset (toCome sh w.m.stack) else w.asm sh) sh
      (assembling w.m.stack) := fun sh => (h.shell sh).outside hs (hedit sh)
  have hasm := @asmNext_outside w e htick
  cases hin : (LineEvent.other e).input with
  | none =>
    have hnow := outside_assembling hs htick hin
    refine ⟨hnow ▸ h.calls, fun sh => ?_⟩
    dsimp only
    rw [hasm, hnow, hin]
    exact hreset sh
  | some i =>
    obtain ⟨sh', data, packet⟩ := i
    have hnil := hidle _ hin
    rw [hnil] at hreset
    have hstack : m'.stack = [.feed sh' data packet] := by
      cases step_cases hs with
      | rx _ =>
        obtain ⟨rfl, rfl, rfl⟩ : _ ∧ _ ∧ _ := by simpa [LineEvent.input] using hin
        exact congrArg _ hnil
      | usb _ =>
        obtain ⟨rfl, rfl, rfl⟩ : _ ∧ _ ∧ _ := by simpa [LineEvent.input] using hin
        exact congrArg _ hnil
      | usbFirst _ =>
        obtain ⟨rfl, rfl, rfl⟩ : _ ∧ _ ∧ _ := by simpa [LineEvent.input] using hin
        exact congrArg _ hnil
      | _ => exact absurd hin (by simp [LineEvent.input])
    rw [funext hasm, hin, hnil]
    exact @LineInv.input ⟨w.m, fun sh => if w.m.resets e = some sh then
      (w.asm sh).reset (toCome sh []) else w.asm sh⟩
      m' sh' data packet hreset hstack

/-- **One step.** -/
theorem lineInv_step {w w' : LineWorld} {e : LineEvent} (h : LineInv w) (hs : w.next e = some w') :
    LineInv w' := by
  obtain ⟨m', hstep, rfl⟩ := Option.map_eq_some_iff.mp hs
  unfold Machine.lineStep at hstep
  split at hstep
  · exact absurd hstep (by simp)
  · next hidle =>
    have hempty : ∀ i, e.input = some i → w.m.stack = [] := by
      intro i hi
      by_contra hne
      exact hidle ⟨by rw [hi]; rfl, hne⟩
    cases e with
    | call sh data packet =>
      obtain rfl := Option.some.inj hstep
      have hnil := hempty _ rfl
      refine @LineInv.input w _ sh data packet (fun other => ?_) rfl
      have hsh := h.shell other
      rw [hnil] at hsh
      exact hsh
    | other e =>
      by_cases htick : ∃ t, e = .tick t
      · obtain ⟨t, rfl⟩ := htick
        cases step_cases hstep with
        | @tick t f below r hstack hrun =>
          rw [funext (asmNext_tick hstack)]
          cases hf : f.assembles with
          | false =>
            refine h.command hstep hstack ?_
            cases f <;>
              first | exact .inl rfl | exact .inr rfl | exact absurd hf (by simp [Frame.assembles])
          | true =>
            have hcalls := h.calls
            rw [hstack] at hcalls
            rcases hcalls.innermost hf with ⟨sh, data, packet, rfl, hbelow⟩
              | ⟨sh, data, packet, rfl, hbelow⟩
            · exact h.feed hstep hstack hbelow
            · exact h.lineDone hstep hstack hbelow
      · exact h.outside hstep (fun t ht => htick ⟨t, ht⟩) hempty

theorem lineInv_reachable {w : LineWorld} (h : lineWorlds.Reachable w) : LineInv w := by
  refine h.inv ?_ fun _ _ _ hinv _ hs => lineInv_step hinv hs
  rintro _ ⟨flash, rfl⟩
  exact ⟨.idle, fun sh => lines_fresh rfl rfl sh⟩

/-- `echo`, cut in two, and its line feed at the start of a packet that ends without one. -/
def echoing : List LineEvent :=
  [.call .ble (ascii "ec") false] ++ List.replicate 3 (.other (.tick calm)) ++
    [.call .ble (ascii "ho\x0d") false] ++ List.replicate 4 (.other (.tick calm)) ++
    [.other (.leafDone cliOk)] ++ List.replicate 3 (.other (.tick calm)) ++
    [.call .ble (ascii "\nx\x08y") true] ++ List.replicate 9 (.other (.tick calm))

end PicoBLE.Cli
