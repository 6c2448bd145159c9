import PicoBLE.Cli.Listing

/-!
# A listing that is typed in again

`script save` takes down what its shell gets, line by line, until `.end`. While
it does so the buffer is its own: no other capture can begin, nor a fetch. So
whatever the other shells do meanwhile, and however the input is cut into
calls, the script is made of the lines that have been typed since.

* **P1.** A shell that captures has taken the buffer, and only one does.
* **P2.** What has been read since the capture began has gone into the buffer, line by line,
  as long as there was room and no line ended the capture.
-/

namespace PicoBLE.Cli

open CString (ascii)
open PicoBLE.Storage

/-! ## One capture, and nothing else at the buffer -/

/-- A shell that captures has taken the buffer, and only one does. This holds in every run. -/
structure Sole (fw : Fw) : Prop where
  taken : ∀ sh, (fw.ctx sh).capturing = true → fw.cap.ownerTaken = true
  single : ∀ sh sh', (fw.ctx sh).capturing = true → (fw.ctx sh').capturing = true → sh' = sh

theorem Sole.congr {fw fw' : Fw} (h : Sole fw) (hcap : fw'.cap.ownerTaken = fw.cap.ownerTaken)
    (hsub : ∀ sh, (fw'.ctx sh).capturing = true → (fw.ctx sh).capturing = true) : Sole fw' :=
  ⟨fun sh hsh => hcap.trans (h.taken sh (hsub sh hsh)),
    fun sh sh' hsh hsh' => h.single sh sh' (hsub sh hsh) (hsub sh' hsh')⟩

theorem sole_idle {fw : Fw} (h : fw.idle) : Sole fw :=
  ⟨fun sh hsh => absurd ((h sh).symm.trans hsh) Bool.false_ne_true,
    fun sh _ hsh => absurd ((h sh).symm.trans hsh) Bool.false_ne_true⟩

theorem Sole.captureLineCb {fw : Fw} {sh : Shell} (h : Sole fw) (hsh : (fw.ctx sh).capturing = true)
    (t : Tick) (line : List UInt8) : Sole (captureLineCb t sh line fw) := by
  have hend : ∀ fw₀ : Fw, fw₀.ctx = fw.ctx → Sole (fw₀.endCapture sh) := fun fw₀ hctx =>
    sole_idle (endCapture_idle fun other hother =>
      h.single sh other hsh (by rw [← hctx]; exact hother))
  rcases captureLineCb_cases t sh line fw with ⟨-, he⟩ | ⟨-, he⟩ | ⟨-, -, he⟩
  · rw [he]; exact hend _ rfl
  · rw [he]; exact hend fw rfl
  · rw [he]; exact h.congr rfl fun _ hother => hother

theorem sole_step {m m' : Machine} {e : Event} (h : Sole m.fw) (hs : m.step e = some m') :
    Sole m'.fw := by
  cases bufferStep_of_step hs with
  | same _ _ hcap hsub => exact h.congr (by rw [hcap]) hsub
  | captured _ hcap hq hfw =>
    rw [hfw]
    have hsole := h.congr (by rw [hq.cap]) fun sh hsh => (hq.capturing sh).symm.trans hsh
    exact hsole.captureLineCb ((hq.capturing _).trans hcap) _ _
  | @begun sh name _ hgo hfw =>
    rw [hfw]
    have hidle : m.fw.idle := by
      intro other
      cases hother : (m.fw.ctx other).capturing with
      | false => rfl
      | true =>
        exact absurd ((saveRefused_taken hgo).symm.trans (h.taken other hother)) Bool.false_ne_true
    refine ⟨fun _ _ => rfl, fun other other' hother hother' => ?_⟩
    rw [(beginCapture_only hidle _ sh other).mp hother,
      (beginCapture_only hidle _ sh other').mp hother']
  | fetching _ _ _ hfw => rw [hfw]; exact h.congr rfl fun _ hsh => hsh
  | @chunk data _ _ _ _ hfw _ =>
    obtain ⟨buf, fetches, he⟩ := fetchChunk_fw data m.fw
    rw [hfw, he]
    exact h.congr rfl fun _ hsh => hsh
  | done _ _ hcap hctx => exact h.congr (by rw [hcap]) fun sh hsh => by rw [← hctx]; exact hsh

/-- What a step of a shell's machine is. -/
theorem lineStep_cases {m m' : Machine} {e : LineEvent} (h : m.lineStep e = some m') :
    (∃ sh data packet, e = .call sh data packet ∧ m.stack = [] ∧
      m' = { m with stack := [.feed sh data packet] }) ∨ ∃ e', e = .other e' ∧
      m.step e' = some m' := by
  unfold Machine.lineStep at h
  split at h
  · exact absurd h (by simp)
  · next hidle =>
    cases e with
    | call sh data packet =>
      have hnil : m.stack = [] := by
        by_contra hne
        exact hidle ⟨rfl, hne⟩
      exact .inl ⟨sh, data, packet, rfl, hnil, (Option.some.inj h).symm⟩
    | other e' => exact .inr ⟨e', rfl, h⟩

theorem sole_reachable {w : LineWorld} (h : lineWorlds.Reachable w) : Sole w.m.fw := by
  refine h.inv (P := fun w => Sole w.m.fw) ?_ fun w e w' hinv _ hs => ?_
  · rintro _ ⟨flash, rfl⟩
    exact sole_idle fun _ => rfl
  · obtain ⟨m', hstep, rfl⟩ := Option.map_eq_some_iff.mp hs
    rcases lineStep_cases hstep with ⟨sh, data, packet, -, -, rfl⟩ | ⟨e', -, hstep⟩
    · exact hinv
    · exact sole_step hinv hstep

theorem lineCounted_reachable {w : LineWorld} (h : lineWorlds.Reachable w) : w.m.Counted := by
  refine h.inv (P := fun w => w.m.Counted) ?_ fun w e w' hinv _ hs => ?_
  · rintro _ ⟨flash, rfl⟩
    rfl
  · obtain ⟨m', hstep, rfl⟩ := Option.map_eq_some_iff.mp hs
    rcases lineStep_cases hstep with ⟨sh, data, packet, -, hidle, rfl⟩ | ⟨e', -, hstep⟩
    · rw [Machine.Counted, hidle] at hinv
      exact hinv
    · exact counted_step hinv hstep

/-- A shell goes on capturing until it is reset or its capture gets a line. -/
theorem capturing_step {m m' : Machine} {e : Event} {sh : Shell} (hs : m.step e = some m')
    (hreset : m.resets e ≠ some sh) (hdeed : ∀ line, m.deed e ≠ .captured sh line)
    (hsh : (m.fw.ctx sh).capturing = true) : (m'.fw.ctx sh).capturing = true := by
  have hother : ∀ {other : Shell} {c : CliCtx}, sh ≠ other →
      ((m.fw.setCtx other c).ctx sh).capturing = true := by
    intro other c hne
    rw [Fw.setCtx_of_ne m.fw c hne]
    exact hsh
  cases step_cases hs with
  | @tick t f below r hstack hrun =>
    cases runFrame_effect hrun with
    | quiet _ _ hq _ => exact (hq.capturing sh).trans hsh
    | @captured sh' line fw₀ _ hd _ hq he _ =>
      have hne : sh ≠ sh' := by
        rintro rfl
        exact hdeed line (by rw [deed_tick t hstack, hd])
      have hkept : (fw₀.ctx sh).capturing = true := (hq.capturing sh).trans hsh
      rw [Ran.resume, he]
      rcases captureLineCb_cases t sh' line fw₀ with ⟨-, hc⟩ | ⟨-, hc⟩ | ⟨-, -, hc⟩
      · rw [hc]
        exact (congrArg CliCtx.capturing (Fw.setCtx_of_ne _ _ hne)).trans hkept
      · rw [hc]
        exact (congrArg CliCtx.capturing (Fw.setCtx_of_ne _ _ hne)).trans hkept
      · rw [hc]
        exact hkept
    | @begun sh' name _ _ _ he _ =>
      rw [Ran.resume, he]
      by_cases heq : sh = sh'
      · rw [heq]
        exact congrArg CliCtx.capturing (Fw.setCtx_self m.fw sh' _)
      · exact hother heq
    | removed _ _ he _ => rw [Ran.resume, he]; exact hsh
    | fetching _ _ _ he _ => rw [Ran.resume, he]; exact hsh
    | opened _ _ _ _ _ he _ => rw [Ran.resume, he]; exact hsh
    | read _ _ hq _ => exact (hq.capturing sh).trans hsh
    | closed _ _ he _ => rw [Ran.resume, he]; exact hsh
  | subscribe => exact hother fun he => hreset (congrArg some he.symm)
  | linkDown => exact hother fun he => hreset (congrArg some he.symm)
  | usbFirst hgreeted =>
    exact hother fun he => hreset (by rw [Machine.resets, hgreeted, he]; rfl)
  | @fire target _ => exact ((quiet_dispatchLine _ _ _).capturing sh).trans hsh
  | @chunk data _ _ _ _ =>
    obtain ⟨buf, fetches, hfw⟩ := fetchChunk_fw data m.fw
    rw [hfw]
    exact hsh
  | @chunkBelow data _ _ _ _ _ _ =>
    obtain ⟨buf, fetches, hfw⟩ := fetchChunk_fw data m.fw
    rw [hfw]
    exact hsh
  | @httpDone t ok name _ _ _ =>
    obtain ⟨flash, rc, hdone⟩ := fetchDone_fw t ok name m.fw
    rw [hdone]
    exact hsh
  | _ => exact hsh

/-! ## The capture gets what is typed -/

/-- The byte of a shell that the step reads. -/
def Machine.reading (m : Machine) (sh : Shell) : LineEvent → Option UInt8
  | .other (.tick _) =>
    match m.stack with
    | .feed sh' (b :: _) _ :: _ => if sh' = sh then some b else none
    | _ => none
  | _ => none

theorem notes_fed (f : Frame) (fw : Fw) (sh : Shell) (a : Assembly) :
    (f.notes fw sh a).fed = a.fed ++ (match f with
      | .feed sh' (b :: _) _ => if sh' = sh then some b else none
      | _ => none).toList := by
  cases f with
  | feed sh' data packet =>
    cases data with
    | nil =>
      cases packet with
      | false => exact (List.append_nil _).symm
      | true =>
        rw [Frame.notes]
        split <;> exact (List.append_nil _).symm
    | cons b rest =>
      rw [Frame.notes]
      dsimp only
      split
      · rfl
      · exact (List.append_nil _).symm
  | _ => exact (List.append_nil _).symm

/-- What has been read is longer by that byte. -/
theorem fed_next {w w' : LineWorld} {e : LineEvent} {sh : Shell} (hs : w.next e = some w')
    (hreset : w.m.lineResets e ≠ some sh) :
    (w'.asm sh).fed = (w.asm sh).fed ++ (w.m.reading sh e).toList := by
  obtain ⟨m', hstep, rfl⟩ := Option.map_eq_some_iff.mp hs
  dsimp only
  cases e with
  | call sh' data packet =>
    unfold LineWorld.asmNext
    dsimp only [LineEvent.input, Machine.reading, Option.toList]
    rw [if_neg hreset, List.append_nil]
    split <;> rfl
  | other e =>
    by_cases htick : ∃ t, e = .tick t
    · obtain ⟨t, rfl⟩ := htick
      rcases lineStep_cases hstep with ⟨_, _, _, he, -⟩ | ⟨e', he, hstep⟩
      · exact absurd he (by simp)
      · obtain rfl := LineEvent.other.inj he
        cases step_cases hstep with
        | @tick t f below r hstack hrun =>
          rw [asmNext_tick hstack, notes_fed, Machine.reading, hstack]
          cases f with
          | feed sh' data packet => cases data <;> rfl
          | _ => rfl
    · have hne : ∀ t, e ≠ .tick t := fun t he => htick ⟨t, he⟩
      have hread : w.m.reading sh (.other e) = none := by
        cases e with
        | tick t => exact absurd rfl (hne t)
        | _ => rfl
      have hno : w.m.resets e ≠ some sh := hreset
      rw [asmNext_outside hne, if_neg hno, hread]
      dsimp only [Option.toList]
      rw [List.append_nil]
      cases (LineEvent.other e).input with
      | none => rfl
      | some i =>
        dsimp only
        split <;> rfl

/-- The shell captures, and no fetch is in progress that could write to the buffer. -/
structure Owns (sh : Shell) (m : Machine) : Prop where
  capturing : (m.fw.ctx sh).capturing = true
  free : fetches m.stack = []

/-- A byte that is read in a line, or ends it. -/
theorem feed_handing {w : LineWorld} (h : LineInv w) {sh : Shell} {b : UInt8}
    {rest : List UInt8} {packet : Bool} {below : List Frame}
    (hstack : w.m.stack = .feed sh (b :: rest) packet :: below)
    (hsh : (w.m.fw.ctx sh).capturing = true) :
    (Frame.feed sh (b :: rest) packet).handing w.m.fw =
      if endsPiece b (w.asm sh).fed = true then some (sh, lineText (splitLines (w.asm sh).fed).2)
      else none := by
  have hcalls := h.calls
  have hline := h.shell sh
  rw [hstack] at hcalls hline
  have hone : assembling (.feed sh (b :: rest) packet :: below) =
      [.feed sh (b :: rest) packet] := by
    rcases hcalls.innermost rfl with ⟨_, _, _, -, hnil⟩ | ⟨_, _, _, he, -⟩
    · rw [assembling, List.filter_cons_of_pos rfl]
      exact congrArg _ hnil
    · exact absurd he (by simp)
  rw [hone] at hline
  have hends : endsLine b (w.m.fw.ctx sh) = endsPiece b (w.asm sh).fed := hline.shellInv.ends_eq b
  rw [Frame.handing, hends, (hline.held (by simp)).handed (lineText_nul _), if_pos (Or.inl hsh)]
  rfl

/-- The step that reads a byte runs `cli_feed`. -/
theorem reading_some {m : Machine} {e : LineEvent} {sh : Shell} {b : UInt8}
    (h : m.reading sh e = some b) :
    ∃ t rest packet below, e = .other (.tick t) ∧ m.stack = .feed sh
    (b :: rest) packet :: below := by
  unfold Machine.reading at h
  split at h
  · next t =>
    split at h
    · next sh' b' rest packet below hstack =>
      split at h
      · next heq =>
        obtain rfl := Option.some.inj h
        exact ⟨t, rest, packet, below, rfl, heq ▸ hstack⟩
      · exact absurd h (by simp)
    · exact absurd h (by simp)
  · exact absurd h (by simp)

/-- **A line end gives the capture the line.** -/
theorem step_ends {w : LineWorld} {m' : Machine} {e : LineEvent} {sh : Shell}
    {b : UInt8} (h : LineInv w) (hown : Owns sh w.m) (hs : w.m.lineStep e = some m')
    (hread : w.m.reading sh e = some b) (hends : endsPiece b (w.asm sh).fed = true) :
    ∃ t fw₀, e = .other (.tick t) ∧ Quiet w.m.fw fw₀ ∧
      m'.fw = captureLineCb t sh (lineText (splitLines (w.asm sh).fed).2) fw₀ ∧
      fetches m'.stack = [] := by
  obtain ⟨t, rest, packet, below, rfl, hstack⟩ := reading_some hread
  have hhand := feed_handing h hstack hown.capturing
  rw [if_pos hends] at hhand
  have hdeed : (Frame.feed sh (b :: rest) packet).deed t w.m.fw =
      .captured sh (lineText (splitLines (w.asm sh).fed).2) := by
    rw [Frame.deed, hhand]
    exact if_pos hown.capturing
  rcases lineStep_cases hs with ⟨_, _, _, he, -⟩ | ⟨e', he, hstep⟩
  · exact absurd he (by simp)
  · obtain rfl := LineEvent.other.inj he
    have hfree : fetches m'.stack = fetches w.m.stack := by
      cases bufferStep_of_step hstep with
      | captured _ _ _ _ hf => exact hf
      | same hd =>
        rw [deed_tick t hstack, hdeed] at hd
        exact absurd hd (by simp)
      | begun hd | fetching hd | done hd =>
        rw [deed_tick t hstack, hdeed] at hd
        exact absurd hd (by simp)
      | chunk _ he => exact absurd he (by simp [Event.piece])
    cases step_cases hstep with
    | @tick _ f below' r hstack' hrun =>
      rw [hstack] at hstack'
      obtain ⟨rfl, rfl⟩ := List.cons.inj hstack'
      cases runFrame_effect hrun with
      | captured _ hd _ hq he _ =>
        obtain ⟨rfl, rfl⟩ := Deed.captured.inj (hdeed.symm.trans hd)
        exact ⟨t, _, rfl, hq, he, hfree.trans hown.free⟩
      | quiet _ hd | begun _ hd | removed _ hd | fetching _ hd | opened _ hd =>
        exact absurd (hdeed.symm.trans hd) (by simp)
      | read hf => exact absurd hf (by simp)
      | closed hf => exact absurd hf (by simp)

/-- Nothing else touches the buffer. -/
theorem step_elsewhere {w : LineWorld} {m' : Machine} {e : LineEvent} {sh : Shell} (h : LineInv w)
    (hsole : Sole w.m.fw) (hcount : w.m.Counted) (hown : Owns sh w.m)
    (hreset : w.m.lineResets e ≠ some sh) (hs : w.m.lineStep e = some m')
    (hread : ∀ b, w.m.reading sh e = some b → endsPiece b (w.asm sh).fed = false) :
    m'.fw.cap = w.m.fw.cap ∧ Owns sh m' := by
  have htaken := hsole.taken sh hown.capturing
  rcases lineStep_cases hs with ⟨sh', data, packet, rfl, hidle, rfl⟩ | ⟨e, rfl, hstep⟩
  · exact ⟨rfl, hown.capturing, rfl⟩
  · have hdeed : ∀ other line, w.m.deed e ≠ .captured other line := by
      intro other line hd
      cases e with
      | tick t =>
        cases hstack : w.m.stack with
        | nil =>
          rw [Machine.deed, hstack] at hd
          exact absurd hd (by simp)
        | cons f below =>
          rw [deed_tick t hstack] at hd
          obtain ⟨hhand, hcap⟩ := deed_captured hd
          obtain rfl := hsole.single sh other hown.capturing hcap
          unfold Frame.handing at hhand
          split at hhand
          · next sh' b rest packet =>
            have hsh : sh' = other := by
              split at hhand
              · obtain ⟨_, -, he⟩ := Option.map_eq_some_iff.mp hhand
                exact (Prod.mk.inj he).1
              · exact absurd hhand (by simp)
            subst hsh
            have hno := hread b (by rw [Machine.reading, hstack]; exact if_pos rfl)
            have hnone := feed_handing h hstack hown.capturing
            rw [hno, if_neg Bool.false_ne_true] at hnone
            have hsome := (deed_captured hd).1
            rw [hnone] at hsome
            exact absurd hsome (by simp)
          · exact absurd hhand (by simp)
      | _ => exact absurd hd (by simp [Machine.deed])
    have hcapturing := capturing_step hstep hreset (hdeed sh) hown.capturing
    cases bufferStep_of_step hstep with
    | same _ _ hcap _ _ hf => exact ⟨hcap, hcapturing, hf.trans hown.free⟩
    | captured hd => exact absurd hd (hdeed _ _)
    | begun _ hgo => exact absurd ((saveRefused_taken hgo).symm.trans htaken) Bool.false_ne_true
    | fetching _ hgo =>
      unfold fetchRefused at hgo
      rw [htaken, Bool.or_true] at hgo
      exact absurd hgo.symm Bool.false_ne_true
    | chunk _ _ hbusy =>
      rw [Machine.Counted, hown.free] at hcount
      exact absurd hbusy (not_or.mpr ⟨fun hne => hne hown.free, fun hne =>
        hne (List.length_eq_zero_iff.mp hcount)⟩)
    | done _ _ _ _ _ hf =>
      rw [hown.free] at hf
      exact absurd hf (List.cons_ne_nil _ _).symm

/-- Only the buffer and what belongs to it matters. -/
theorem Captures.congr {name : List UInt8} {lines : List (List UInt8)} {fw fw' : Fw}
    (h : Captures name lines fw) (hcap : fw'.cap = fw.cap) : Captures name lines fw' := by
  cases h with
  | begun hgo hb => exact .begun hgo (hcap.trans hb)
  | line hl hb => exact .line hl (hcap.trans hb)

/-- Behind what the shell had read, `p`, it has read this, and as long as that can go into the
buffer it has gone there. -/
def Pasted (p name : List UInt8) (sh : Shell) (w : LineWorld) : Prop :=
  ∃ s, (w.asm sh).fed = p ++ s ∧ (s.head? ≠ some 10 → (∀ line ∈ typedLines s, Typable line) →
    (textOf (typedLines s)).length ≤ scriptBodyMax →
      Captures name (typedLines s) w.m.fw ∧ Owns sh w.m)

/-- The capture goes on behind a line that can go into the buffer. -/
theorem Captures.goes_on {name : List UInt8} {lines : List (List UInt8)} {line : List UInt8}
    {fw fw₀ fw' : Fw} {t : Tick} {sh : Shell} (h : Captures name lines fw) (hq : Quiet fw fw₀)
    (hfw : fw' = captureLineCb t sh line fw₀) (hlines : ∀ l ∈ lines ++ [line], Typable l)
    (hfit : (textOf (lines ++ [line])).length ≤ scriptBodyMax) :
    Captures name (lines ++ [line]) fw' ∧ (fw'.ctx sh).capturing = (fw.ctx sh).capturing := by
  have h₀ := h.congr hq.cap
  rw [textOf_append, List.length_append, List.length_append] at hfit
  obtain ⟨-, hlen, -⟩ := h₀.text (fun l hl => hlines l (List.mem_append_left _ hl)) (by omega)
  have hroom : fw₀.cap.len + line.length + 1 ≤ scriptBodyMax := by
    rw [hlen]
    exact hfit
  refine ⟨h₀.line (congrArg Fw.cap hfw), ?_⟩
  rw [hfw, captureLineCb_append (hlines line (by simp)) hroom]
  exact hq.capturing sh

/-- **One step.** -/
theorem pasted_step {p name : List UInt8} {sh : Shell} {w w' : LineWorld} {e : LineEvent}
    (h : Pasted p name sh w) (hp : LineStart p) (hw : lineWorlds.Reachable w)
    (hreset : w.m.lineResets e ≠ some sh) (hs : w.next e = some w') : Pasted p name sh w' := by
  obtain ⟨s, hfed, hgone⟩ := h
  have hinv := lineInv_reachable hw
  have hsole := sole_reachable hw
  have hcount := lineCounted_reachable hw
  have hnext := fed_next hs hreset
  obtain ⟨m', hstep, rfl⟩ := Option.map_eq_some_iff.mp hs
  rw [hfed] at hnext
  cases hread : w.m.reading sh e with
  | none =>
    rw [hread] at hnext
    refine ⟨s, hnext.trans (List.append_nil _), fun hhead hlines hfit => ?_⟩
    obtain ⟨hcap, hown⟩ := hgone hhead hlines hfit
    obtain ⟨hsame, hown'⟩ := step_elsewhere hinv hsole hcount hown hreset hstep fun b hb => by
      rw [hread] at hb
      exact nomatch hb
    exact ⟨hcap.congr hsame, hown'⟩
  | some b =>
    rw [hread] at hnext
    refine ⟨s ++ [b], hnext.trans (List.append_assoc _ _ _), fun hhead hlines hfit => ?_⟩
    have hends := endsPiece_after p hhead
    obtain ⟨-, htext⟩ := typedLines_after hp (head_snoc hhead)
    cases hb : endsPiece b s with
    | true =>
      obtain ⟨hmore, -⟩ := typedLines_ends hb
      rw [hmore] at hlines hfit ⊢
      have hfit' : (textOf (typedLines s)).length ≤ scriptBodyMax := by
        rw [textOf_append, List.length_append] at hfit
        omega
      obtain ⟨hcap, hown⟩ :=
        hgone (head_snoc hhead) (fun l hl => hlines l (List.mem_append_left _ hl)) hfit'
      obtain ⟨t, fw₀, -, hq, hfw, hfree⟩ :=
        step_ends hinv hown hstep hread (by rw [hfed, hends, hb])
      rw [hfed, htext] at hfw
      obtain ⟨hcap', hsame⟩ := hcap.goes_on hq hfw hlines hfit
      exact ⟨hcap', hsame.trans hown.capturing, hfree⟩
    | false =>
      obtain ⟨hmore, -⟩ := typedLines_types hb
      rw [hmore] at hlines hfit ⊢
      obtain ⟨hcap, hown⟩ := hgone (head_snoc hhead) hlines hfit
      obtain ⟨hsame, hown'⟩ := step_elsewhere hinv hsole hcount hown hreset hstep fun c hc => by
        rw [hread] at hc
        obtain rfl := Option.some.inj hc
        rw [hfed, hends, hb]
      exact ⟨hcap.congr hsame, hown'⟩

/-- **Every run** in which the shell is not reset. -/
theorem pasted_run {p name : List UInt8} {sh : Shell} {w w' : LineWorld} {es : List LineEvent}
    (hrun : lineWorlds.Runs (fun w e => w.m.lineResets e ≠ some sh) w es w') (hp : LineStart p)
    (hw : lineWorlds.Reachable w) (h : Pasted p name sh w) : Pasted p name sh w' ∧
    lineWorlds.Reachable w' := by
  induction hrun with
  | nil => exact ⟨h, hw⟩
  | cons hreset hs _ ih => exact ih (hw.tail hs) (pasted_step h hp hw hreset hs)

/-! ## The round trip -/

/-- A capture that has just begun. -/
theorem captures_nil {name : List UInt8} {fw : Fw} (htaken : fw.cap.ownerTaken = true)
    (hlen : fw.cap.len = 0) (hname : fw.cap.name = name) (hfit : name.length ≤ scriptNameMax) :
    Captures name [] fw := by
  refine @Captures.begun name .usb { fw with cap := { fw.cap with ownerTaken := false } } fw ?_ ?_
  · rw [saveRefused, Bool.or_eq_false_iff]
    exact ⟨rfl, by simpa using hfit⟩
  · show fw.cap = { fw.cap with ownerTaken := true, len := 0, name := name.take scriptNameMax }
    rw [List.take_of_length_le hfit]
    generalize fw.cap = cap at htaken hlen hname
    obtain ⟨buf, len, capName, taken⟩ := cap
    dsimp only at htaken hlen hname
    rw [htaken, hlen, hname]

/-- `script save yo` on USB. -/
def savingYo : List LineEvent :=
  [.call .usb (ascii "script save yo\x0d") false] ++ List.replicate 19 (.other (.tick calm))

/-- The listing of `hi` and `.end`, cut between a carriage return and its line feed, up to the
last byte. -/
def typingYo : List LineEvent :=
  [.call .usb (ascii "# light\x0d\n\x0d") false] ++ List.replicate 13 (.other (.tick calm)) ++
    [.call .usb (ascii "\ngpio 25 high\x0d\n.end\x0d") false] ++ List.replicate 20
      (.other (.tick calm))

end PicoBLE.Cli
