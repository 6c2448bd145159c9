import Mathlib.Algebra.Order.BigOperators.Group.List
import Mathlib.Data.List.Flatten
import PicoBLE.Cli.RunScript

/-!
# The lines of a script

`run` copies a line into an array of 256 bytes and stops at a newline or when
the array is full. In the second case it goes on with the rest of the same line
as if that were another one, so a line of 256 characters or more is run in
pieces, and a piece of a comment may be a command. A NUL, which a script from
the network can contain, ends the string that is dispatched early.

`commandsFrom` is first brought into the form of the text itself: line by line,
piece by piece. That gives the lines for which nothing goes wrong, and that in
a script with any other line something does: the string that goes out in place
of a whole line is one that no line, or one line less, accounts for.
-/

namespace PicoBLE.Cli

open PicoBLE.Storage

/-! ## Lines and pieces -/

/-- The lines of a text: the longest stretches without CR and LF. -/
def physicalLines (text : List UInt8) : List (List UInt8) :=
  (text.splitOnP isNewline).filter fun line => line ≠ []

/-- A line in pieces of what fits into the array of `run`. -/
def pieces (line : List UInt8) : List (List UInt8) :=
  (List.range ((line.length + (cliLineMax - 2)) / (cliLineMax - 1))).map fun k =>
    (line.drop (k * (cliLineMax - 1))).take (cliLineMax - 1)

/-- What `run` dispatches of a line. -/
def lineCommands (line : List UInt8) : List (List UInt8) :=
  (pieces line).filter fun p => !runSkips p

/-- A line that is neither blank nor a comment. -/
def isCommandLine (line : List UInt8) : Bool :=
  match skipWs line with
  | [] => false
  | c :: _ => c ≠ 35

theorem pieces_nil : pieces [] = [] := rfl

theorem pieces_cons {line : List UInt8} (h : line ≠ []) :
    pieces line = line.take (cliLineMax - 1) :: pieces (line.drop (cliLineMax - 1)) := by
  have hpos : 0 < line.length := List.length_pos_iff.mpr h
  have hcount : (line.length + (cliLineMax - 2)) / (cliLineMax - 1) =
      ((line.drop (cliLineMax - 1)).length + (cliLineMax - 2)) / (cliLineMax - 1) + 1 := by
    rw [List.length_drop]
    simp only [cliLineMax]
    omega
  unfold pieces
  rw [hcount, List.range_succ_eq_map, List.map_cons, List.map_map, Nat.zero_mul, List.drop_zero]
  refine congrArg (_ :: ·) (List.map_congr_left fun k _ => ?_)
  show (line.drop ((k + 1) * (cliLineMax - 1))).take (cliLineMax - 1) = _
  rw [List.drop_drop, Nat.succ_mul, Nat.add_comm]

/-- A short line is one piece. -/
theorem pieces_short {line : List UInt8} (h : line ≠ []) (hlen : line.length ≤ cliLineMax - 1) :
    pieces line = [line] := by
  rw [pieces_cons h, List.take_of_length_le hlen, List.drop_of_length_le hlen, pieces_nil]

theorem piece_length {line p : List UInt8} (hp : p ∈ pieces line) : p.length ≤ cliLineMax - 1 := by
  obtain ⟨k, -, rfl⟩ := List.mem_map.mp hp
  exact List.length_take_le _ _

theorem piece_length_le {line p : List UInt8} (hp : p ∈ pieces line) : p.length ≤ line.length := by
  obtain ⟨k, -, rfl⟩ := List.mem_map.mp hp
  rw [List.length_take, List.length_drop]
  omega

/-- The first piece, and the rest of the line. -/
theorem lineCommands_step (line : List UInt8) :
    lineCommands line = (if runSkips (line.take (cliLineMax - 1)) = false then
      [line.take (cliLineMax - 1)]
      else []) ++ lineCommands (line.drop (cliLineMax - 1)) := by
  by_cases h : line = []
  · subst h
    rfl
  · rw [lineCommands, pieces_cons h, List.filter_cons]
    cases runSkips (line.take (cliLineMax - 1)) <;> rfl

/-! ## Newlines between the lines -/

theorem physicalLines_newline {c : UInt8} (h : isNewline c = true) (text : List UInt8) :
    physicalLines (c :: text) = physicalLines text := by
  rw [physicalLines, List.splitOnP_cons_eq_if_modifyHead, if_pos h,
    List.filter_cons_of_neg (by simp)]
  rfl

theorem physicalLines_dropWhile (text : List UInt8) :
    physicalLines (text.dropWhile isNewline) = physicalLines text := by
  induction text with
  | nil => rfl
  | cons c text ih =>
    cases hc : isNewline c with
    | true => rw [List.dropWhile_cons_of_pos hc, ih, physicalLines_newline hc]
    | false => rw [List.dropWhile_cons_of_neg (by simp [hc])]

/-- A stretch without newlines is a line, if there is anything in it. -/
theorem physicalLines_append {line rest : List UInt8} (hline : ∀ c ∈ line, isNewline c = false)
    (hrest : ∀ c ∈ rest.head?, isNewline c = true) :
    physicalLines (line ++ rest) = (if line = [] then [] else [line]) ++ physicalLines rest := by
  have hkeep : [line].filter (fun l => decide (l ≠ [])) = if line = [] then [] else [line] := by
    by_cases h : line = []
    · rw [if_pos h, List.filter_cons_of_neg (by simp [h])]
      rfl
    · rw [if_neg h, List.filter_cons_of_pos (by simp [h])]
      rfl
  cases rest with
  | nil =>
    rw [List.append_nil, physicalLines, List.splitOnP_eq_singleton hline, hkeep]
    exact (List.append_nil _).symm
  | cons c rest =>
    rw [physicalLines_newline (hrest c rfl), physicalLines,
      List.splitOnP_append_cons_of_forall_mem hline c (hrest c rfl), ← List.singleton_append,
      List.filter_append, hkeep]
    rfl

/-- The loop takes the front of a line. -/
theorem runLine_eq {text line rest : List UInt8} {off : Nat} (hsplit : text.drop off = line ++ rest)
    (hline : ∀ c ∈ line, isNewline c = false) (hrest : ∀ c ∈ rest.head?, isNewline c = true) :
    runLine text off = line.take (cliLineMax - 1) := by
  have hpos : ∀ c ∈ line.take (cliLineMax - 1), (!isNewline c) = true := by
    intro c hc
    rw [hline c (List.mem_of_mem_take hc)]
    rfl
  rw [runLine, hsplit, List.take_append, List.takeWhile_append_of_pos hpos]
  -- a newline stops it, if there is room for one
  cases rest with
  | nil => rw [List.take_nil, List.takeWhile_nil, List.append_nil]
  | cons c rest =>
    cases cliLineMax - 1 - line.length with
    | zero => rw [List.take_zero, List.takeWhile_nil, List.append_nil]
    | succ n =>
      rw [List.take_succ_cons,
        List.takeWhile_cons_of_neg (by rw [hrest c rfl]; exact Bool.false_ne_true), List.append_nil]

/-- It goes on behind what it has taken, and behind the newlines there. -/
theorem drop_runAdvance (text : List UInt8) (off : Nat) :
    text.drop (runAdvance text off) =
      ((text.drop off).drop (runLine text off).length).dropWhile isNewline := by
  rw [List.drop_drop]
  unfold runAdvance
  dsimp only
  rw [← List.drop_drop]
  generalize text.drop (off + (runLine text off).length) = behind
  have hsplit : behind.takeWhile isNewline ++ behind.dropWhile isNewline = behind :=
    List.takeWhile_append_dropWhile
  calc behind.drop (behind.takeWhile isNewline).length
      = (behind.takeWhile isNewline ++ behind.dropWhile isNewline).drop
          (behind.takeWhile isNewline).length := by rw [hsplit]
    _ = behind.dropWhile isNewline := List.drop_left

/-- **What `run` dispatches**, from any offset on: of each line what is left of it, in pieces. -/
theorem commandsFrom_lines (text : List UInt8) (off : Nat) :
    commandsFrom text off = (physicalLines (text.drop off)).flatMap lineCommands := by
  induction hlen : text.length - off using Nat.strong_induction_on generalizing off with
  | _ k ih =>
    by_cases hoff : off < text.length
    · -- the line that the offset is in, and what stands behind it
      obtain ⟨line, rest, hsplit, hline, hrest⟩ : ∃ line rest, text.drop off = line ++ rest ∧
          (∀ c ∈ line, isNewline c = false) ∧ ∀ c ∈ rest.head?, isNewline c = true := by
        refine ⟨(text.drop off).takeWhile fun c => !isNewline c, (text.drop off).dropWhile fun c =>
          !isNewline c, List.takeWhile_append_dropWhile.symm, fun c hc => ?_, fun c hc => ?_⟩
        · simpa using List.mem_takeWhile_imp hc
        · have hhead := List.head?_dropWhile_not (fun c => !isNewline c) (text.drop off)
          rw [hc] at hhead
          simpa using hhead
      have hof : ∀ {l : List UInt8}, (∀ c ∈ l, isNewline c = false) →
          (physicalLines (l ++ rest)).flatMap lineCommands =
            lineCommands l ++ (physicalLines rest).flatMap lineCommands := by
        intro l hl
        rw [physicalLines_append hl hrest, List.flatMap_append]
        split
        · next hnil =>
          subst hnil
          rfl
        · rw [List.flatMap_singleton]
      have hrun := runLine_eq hsplit hline hrest
      have hgt := runAdvance_gt hoff
      have hdrop : (line ++ rest).drop (line.take (cliLineMax - 1)).length =
          line.drop (cliLineMax - 1) ++ rest := by
        rw [List.length_take]
        rcases Nat.le_total (cliLineMax - 1) line.length with h | h
        · rw [Nat.min_eq_left h, List.drop_append_of_le_length h]
        · rw [Nat.min_eq_right h, List.drop_left, List.drop_of_length_le h, List.nil_append]
      have hbehind : ∀ c ∈ line.drop (cliLineMax - 1), isNewline c = false :=
        fun c hc => hline c (List.mem_of_mem_drop hc)
      rw [commandsFrom_step hoff, lineSent, hrun, ih _ (by omega) (runAdvance text off) rfl,
        drop_runAdvance, hrun, hsplit, hdrop, physicalLines_dropWhile, hof hbehind, hof hline,
        lineCommands_step line, List.append_assoc]
    · rw [commandsFrom_end (Nat.le_of_not_lt hoff), List.drop_of_length_le (Nat.le_of_not_lt hoff)]
      rfl

theorem scriptCommands_lines (text : List UInt8) :
    scriptCommands text = (physicalLines text).flatMap lineCommands := by
  rw [scriptCommands, commandsFrom_lines, List.drop_zero]

/-! ## Whole lines -/

/-- The string that `cli_dispatch_line` gets. -/
def dispatched (line : List UInt8) : List UInt8 := (Buffer.ofString cliLineMax line).str 0

theorem dispatched_eq {line : List UInt8} (h : line.length ≤ cliLineMax - 1) :
    dispatched line = CString.ofBuffer line := by
  have hfit : line.length < cliLineMax := Nat.lt_of_le_of_lt h (by decide)
  rw [dispatched, Buffer.str, Buffer.ofString_bytes hfit, List.drop_zero, CString.ofBuffer_zero]

theorem skips_dispatched (line : List UInt8) :
    runSkips (CString.ofBuffer line) = runSkips line := by
  unfold runSkips
  rw [CString.ofBuffer_idem]

/-- **`run` respects the lines**: what it has dispatched are lines of the script that are neither
blank nor comments, whole, in order and no line twice. -/
def Respects (body : List UInt8) (strings : List (List UInt8)) : Prop :=
  strings.Sublist ((physicalLines body).filter isCommandLine)

/-- Either nothing of the line is dispatched, or the line is: it fits and has no NUL in it. -/
def LineWhole (line : List UInt8) : Prop :=
  ∀ p ∈ pieces line, runSkips p = true ∨ p = line ∧ 0 ∉ line

instance (line : List UInt8) : Decidable (LineWhole line) :=
  inferInstanceAs (Decidable (∀ p ∈ pieces line, _))

theorem skips_eq {line : List UInt8} (h : 0 ∉ line) : runSkips line = !isCommandLine line := by
  unfold runSkips isCommandLine
  rw [CString.ofBuffer_eq h]
  cases skipWs line with
  | nil => rfl
  | cons c _ => simp

/-- A short command line is dispatched as it is. -/
theorem lineCommands_short {line : List UInt8} (hlen : line.length ≤ cliLineMax - 1) :
    lineCommands line = if runSkips line = true then [] else [line] := by
  by_cases h : line = []
  · subst h
    rfl
  · rw [lineCommands, pieces_short h hlen, List.filter_cons]
    cases runSkips line <;> rfl

/-- A command line that can go out: it fits, and no NUL ends it early. -/
def isSendable (line : List UInt8) : Bool :=
  isCommandLine line && decide (line.length ≤ cliLineMax - 1 ∧ 0 ∉ line)

/-- Then it does. -/
theorem sendable_commands {line : List UInt8} (h : isSendable line = true) :
    (lineCommands line).map dispatched = [line] := by
  obtain ⟨hcommand, hfits⟩ := Bool.and_eq_true_iff.mp h
  obtain ⟨hshort, hnul⟩ := of_decide_eq_true hfits
  rw [lineCommands_short hshort, skips_eq hnul, hcommand, if_neg (by simp), List.map_singleton,
    dispatched_eq hshort, CString.ofBuffer_eq hnul]

/-- Of a whole line nothing else does. -/
theorem LineWhole.commands {line : List UInt8} (h : LineWhole line) :
    (lineCommands line).map dispatched = if isSendable line then [line] else [] := by
  split
  · next hsend => exact sendable_commands hsend
  · next hno =>
    refine List.map_eq_nil_iff.mpr (List.filter_eq_nil_iff.mpr fun p hp hgo => hno ?_)
    obtain ⟨rfl, hnul⟩ := (h p hp).resolve_left fun hskip => absurd (hskip ▸ hgo) (by simp)
    rw [skips_eq hnul, Bool.not_not] at hgo
    rw [isSendable, hgo, Bool.true_and]
    exact decide_eq_true ⟨piece_length hp, hnul⟩

theorem filter_flatMap (p : List UInt8 → Bool) (ls : List (List UInt8)) :
    ls.filter p = ls.flatMap fun line => if p line then [line] else [] := by
  induction ls with
  | nil => rfl
  | cons line ls ih =>
    rw [List.flatMap_cons, ← ih, List.filter_cons]
    split <;> rfl

/-- **Whole lines** are all that goes out, each that can once. -/
theorem sent_of_whole {body : List UInt8} (h : ∀ line ∈ physicalLines body, LineWhole line) :
    (scriptCommands body).map dispatched = (physicalLines body).filter isSendable := by
  rw [scriptCommands_lines, List.map_flatMap, filter_flatMap]
  exact List.flatMap_congr fun line hline => (h line hline).commands

theorem respects_of_whole {body : List UInt8} (h : ∀ line ∈ physicalLines body, LineWhole line) :
    Respects body ((scriptCommands body).map dispatched) := by
  rw [Respects, sent_of_whole h]
  exact List.monotone_filter_right _ fun line hline => (Bool.and_eq_true_iff.mp hline).1

/-- The lines that can go out do, whatever else does. -/
theorem sendable_sent (body : List UInt8) :
    ((physicalLines body).filter isSendable).Sublist ((scriptCommands body).map dispatched) := by
  rw [scriptCommands_lines, List.map_flatMap, filter_flatMap]
  refine List.Sublist.flatMap_right _ fun line _ => ?_
  split
  · next hsend => rw [sendable_commands hsend]
  · exact List.nil_sublist _

/-- What has no newline in it, fits and is no blank or comment goes out as often as it is a line. -/
theorem count_commands {s : List UInt8} (hlen : s.length ≤ cliLineMax - 1)
    (hskip : runSkips s = false) (hnul : 0 ∉ s) (line : List UInt8) :
    [line].count s ≤ ((lineCommands line).map dispatched).count s := by
  by_cases heq : line = s
  · subst heq
    rw [lineCommands_short hlen, if_neg (by rw [hskip]; exact Bool.false_ne_true),
      List.map_singleton, dispatched_eq hlen, CString.ofBuffer_eq hnul]
  · rw [List.count_singleton, if_neg (by simpa using heq)]
    exact Nat.zero_le _

/-- **Nothing else does**: a piece of a line that is not the line is one dispatch too many. -/
theorem whole_of_respects {body : List UInt8}
    (h : Respects body ((scriptCommands body).map dispatched)) :
    ∀ line ∈ physicalLines body, LineWhole line := by
  intro line hline p hp
  by_contra hbad
  obtain ⟨hskip, hpart⟩ := not_or.mp hbad
  have hskip : runSkips p = false := by simpa using hskip
  -- the string that goes out for this piece
  have hs : dispatched p = CString.ofBuffer p := dispatched_eq (piece_length hp)
  have hlen : (CString.ofBuffer p).length ≤ cliLineMax - 1 :=
    Nat.le_trans (List.takeWhile_prefix _).length_le (piece_length hp)
  have hnul : 0 ∉ CString.ofBuffer p := CString.ofBuffer_nul p
  have hne : CString.ofBuffer p ≠ line := by
    intro heq
    have hwhole : CString.ofBuffer p = p := (List.takeWhile_prefix _).eq_of_length_le
      (Nat.le_trans (piece_length_le hp) (Nat.le_of_eq (congrArg List.length heq).symm))
    exact hpart ⟨hwhole.symm.trans heq, heq ▸ hnul⟩
  have hone : 1 ≤ ((lineCommands line).map dispatched).count (CString.ofBuffer p) := by
    refine List.one_le_count_iff.mpr (List.mem_map.mpr ⟨p, ?_, hs⟩)
    exact List.mem_filter.mpr ⟨hp, by rw [hskip]; rfl⟩
  have hcount : ((physicalLines body).map fun l => [l].count (CString.ofBuffer p)).sum <
      ((physicalLines body).map fun l => ((lineCommands l).map dispatched).count
          (CString.ofBuffer p)).sum := by
    refine List.sum_lt_sum _ _ (fun l _ =>
      count_commands hlen ((skips_dispatched p).trans hskip) hnul l)
      ⟨line, hline, ?_⟩
    rw [List.count_singleton, if_neg (by simpa using hne.symm)]
    exact hone
  -- but it is not in the script more often
  have hlines : ((physicalLines body).filter isCommandLine).Sublist
      ((physicalLines body).flatMap fun l => [l]) := by
    rw [List.flatMap_singleton']
    exact List.filter_sublist
  have hle := (h.trans hlines).count_le (CString.ofBuffer p)
  rw [scriptCommands_lines, List.map_flatMap, List.count_flatMap, List.count_flatMap] at hle
  exact absurd hle (Nat.not_le.mpr hcount)

instance (body : List UInt8) (strings : List (List UInt8)) : Decidable (Respects body strings) :=
  inferInstanceAs (Decidable (List.Sublist _ _))

/-! ## Runs -/

/-- What has been sent is the beginning of what there is to send. -/
def SentPrefix (w : RunWorld) : Prop := w.sent <+: scriptCommands w.opened

theorem sentPrefix_step {w w' : RunWorld} {e : Event} (h : SentPrefix w) (hinv : RunInv w)
    (hs : w.next e = some w') : SentPrefix w' := by
  have hsame : (w.m.sending e).toList = [] →
      (w.m.fw.running = true ∨ w'.m.fw.running = w.m.fw.running) →
      SentPrefix w' := by
    intro hno hr
    obtain ⟨hopened, hsent⟩ := next_goes_on hs hr
    rw [SentPrefix, hopened, hsent, hno, List.append_nil]
    exact h
  obtain ⟨hstep, hghost⟩ := next_eq hs
  cases runStep_of_step hstep with
  | same hr _ _ hno => exact hsame (by rw [hno]; rfl) (.inr hr)
  | opened hidle hr _ _ _ _ =>
    rcases hghost with ⟨-, -, -, hsent⟩ | ⟨hno, -⟩
    · rw [SentPrefix, hsent]
      exact List.nil_prefix
    · exact absurd ⟨hidle, hr⟩ hno
  | read hstack hoff _ _ _ hsend =>
    obtain ⟨hbusy, -, -, hloop⟩ := hinv.busy hstack
    obtain ⟨hopened, hsent⟩ := next_goes_on hs (.inl hbusy)
    rw [hloop.text] at hsend
    -- the next line is one of those still to come
    rw [SentPrefix, hopened, hsent, hsend, ← hloop.lines, commandsFrom_step
      (by rw [← hloop.text, text_length]; exact hoff), ← List.append_assoc]
    exact List.prefix_append _ _
  | closed hstack _ _ _ _ hno =>
    obtain ⟨hbusy, -⟩ := hinv.busy hstack
    exact hsame (by rw [hno]; rfl) (.inl hbusy)

theorem sentPrefix_reachable {w : RunWorld}
    (h : runWorlds.ReachableWhen (fun w e => SlotKept w.m e) w) :
    SentPrefix w := by
  suffices hboth : RunInv w ∧ SentPrefix w from hboth.2
  refine h.inv (P := fun w => RunInv w ∧ SentPrefix w) ?_ ?_
  · rintro _ ⟨flash, rfl⟩
    exact ⟨.inl ⟨rfl, rfl, rfl⟩, List.nil_prefix⟩
  · rintro w e w' ⟨hinv, hprefix⟩ hk hs
    exact ⟨runInv_step hinv hk hs, sentPrefix_step hprefix hinv hs⟩

/-- One line, a comment of 267 characters. -/
def commentText : List UInt8 := 35 :: (List.replicate 254 45 ++ CString.ascii "gpio 25 high\n")

/-- A flash with that script, `note`, in its first slot. -/
def commentFlash : PicoBLE.Ota.Flash where
  image a := ((sealedHeader (CString.ascii "note") commentText).encode ++ commentText).getD
    (a - scriptStorageOffset) 0xFF
  log := []

/-- `run note` over BLE, up to the end of the loop. -/
def runNote : List Event :=
  [.linkUp, .subscribe, .rx (CString.ascii "run note")] ++ List.replicate 14 (.tick calm)

end PicoBLE.Cli
