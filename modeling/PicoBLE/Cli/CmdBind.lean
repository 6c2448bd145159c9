import PicoBLE.Cli.PlainLine
import PicoBLE.System.BindingEvents

/-!
# `cli/commands/cmd_bind.c`

`bind` joins its words with single blanks and stores the line; when the edge
fires, the line is tokenized again. The test for room counts a blank in front
of each word, also of the first, where none is written: a single word that
fills the target to the last character is refused.
-/

namespace PicoBLE.Cli

open CString (ascii crlf itoa strtoul ofBuffer)
open PicoBLE.System

/-! ## The command -/

/-- `bindings_parse_edge`. -/
def bindingsParseEdge (s : List UInt8) : Option UInt8 :=
  if s = ascii "high" ∨ s = ascii "rise" ∨ s = ascii "rising" then some bindEdgeHigh
  else if s = ascii "low" ∨ s = ascii "fall" ∨ s = ascii "falling" then some bindEdgeLow
  else if s = ascii "change" ∨ s = ascii "both" then some bindEdgeChange
  else none

/-- `bindings_edge_str`. -/
def bindingsEdgeStr (e : UInt8) : List UInt8 :=
  if e = bindEdgeHigh then ascii "high"
  else if e = bindEdgeLow then ascii "low"
  else if e = bindEdgeChange then ascii "change"
  else ascii "?"

/-- The loop over the words, with the first `off` characters of `target`; `none` when one is too
long. -/
def joinTarget : List (List UInt8) → List UInt8 → Option (List UInt8)
  | [], target => some target
  | word :: words, target =>
    if target.length + word.length + 1 ≥ bindTargetMax + 1 then none
    else joinTarget words ((if target.length > 0 then target ++ [32] else target) ++ word)

/-- What the handler leaves, what it returns, and what it prints. -/
structure BindRan where
  b : Bindings
  rc : Int
  out : List UInt8

/-- `handle`, behind the loop over the words. -/
def bindTarget (pin : Nat) (edge : UInt8) (target : Option (List UInt8)) (b : Bindings) : BindRan :=
  match target with
  | none =>
    let tooLong := ascii "bind: command too long (max " ++ itoa bindTargetMax ++ ascii " chars)"
    { b, rc := cliErrArg, out := cliPrintf (tooLong ++ crlf) }
  | some target =>
    let r := b.add pin edge target 20
    if ¬ r.2 then
      { b := r.1, rc := cliErrHardware, out := ascii "bind: no free slot or bad target" ++ crlf }
    else
      let bound := itoa pin ++ ascii " " ++ bindingsEdgeStr edge ++ ascii " -> " ++ target
      { b := r.1, rc := cliOk, out := cliPrintf (ascii "bind: gpio " ++ bound ++ crlf) }

/-- `handle`. -/
def handleBind (argv : List (List UInt8)) (b : Bindings) : BindRan :=
  match argv with
  | _ :: what :: pinArg :: edgeArg :: word :: words =>
    if what ≠ ascii "gpio" then { b, rc := cliErrUsage, out := [] }
    else
      let (pin, stop) := strtoul pinArg
      if stop ≠ [] ∨ pin > 29 then
        { b, rc := cliErrArg, out := cliPrintf (ascii "bind: bad pin: " ++ pinArg ++ crlf) }
      else
        match bindingsParseEdge edgeArg with
        | none =>
          let expected := ascii " (expected high|low|change / rise|fall / both)"
          { b, rc := cliErrArg,
            out := cliPrintf (ascii "bind: bad edge: " ++ edgeArg ++ expected ++ crlf) }
        | some edge => bindTarget pin edge (joinTarget (word :: words) []) b
  | _ => { b, rc := cliErrUsage, out := [] }

/-! ## The words -/

/-- Behind the first word the test is exact. -/
theorem joinTarget_behind {words : List (List UInt8)} {target : List UInt8} (hne : target ≠ [])
    (hlen : target.length ≤ bindTargetMax) :
    joinTarget words target =
      if (joined (target :: words)).length ≤ bindTargetMax then some (joined (target :: words))
      else none := by
  induction words generalizing target with
  | nil => rw [joinTarget, joined_singleton, if_pos hlen]
  | cons word words ih =>
    have hlong : (target ++ 32 :: word).length = target.length + word.length + 1 := by
      rw [List.length_append, List.length_cons, Nat.add_assoc]
    rw [joinTarget, joined_merge]
    split
    · next hfull =>
      have hle := length_le_joined (target ++ 32 :: word) words
      rw [if_neg (by omega)]
    · next hroom =>
      rw [if_pos (List.length_pos_iff.mpr hne), List.append_assoc]
      exact ih (List.append_ne_nil_of_left_ne_nil hne _) (by rw [List.singleton_append]; omega)

/-- The one line that fits and is refused. -/
def Lone (words : List (List UInt8)) : Prop := ∃ word, words = [word] ∧ word.length = bindTargetMax

/-- **What the loop takes**: what fits, but for a single word of full length. -/
theorem joinTarget_exact {word : List UInt8} (hfirst : word ≠ []) (words : List (List UInt8)) :
    (¬ Lone (word :: words) ∧ (joined (word :: words)).length ≤ bindTargetMax ∧
        joinTarget (word :: words) [] = some (joined (word :: words))) ∨
      (Lone (word :: words) ∨ bindTargetMax < (joined (word :: words)).length) ∧
        joinTarget (word :: words) [] = none := by
  rw [joinTarget, List.length_nil, Nat.zero_add, if_neg (Nat.lt_irrefl 0), List.nil_append]
  by_cases hfull : word.length + 1 ≥ bindTargetMax + 1
  · rw [if_pos hfull]
    refine .inr ⟨?_, rfl⟩
    cases words with
    | nil =>
      rw [joined_singleton]
      rcases Nat.lt_or_eq_of_le (Nat.le_of_succ_le_succ hfull) with hlt | heq
      · exact .inr hlt
      · exact .inl ⟨word, rfl, heq.symm⟩
    | cons word' words =>
      rw [joined_cons (List.cons_ne_nil word' words), List.length_append, List.length_cons]
      exact .inr (by omega)
  · rw [if_neg hfull, joinTarget_behind hfirst (by omega)]
    have hlone : ¬ Lone (word :: words) := by
      rintro ⟨word', heq, hlen⟩
      rw [(List.cons.inj heq).1] at hfull
      omega
    split
    · next hfit => exact .inl ⟨hlone, hfit, rfl⟩
    · next hlong => exact .inr ⟨.inr (Nat.lt_of_not_le hlong), rfl⟩

/-! ## The binding -/

/-- The binding of a pin. -/
structure BoundTo (pin : Nat) (edge : UInt8) (target : List UInt8) (s : BindSlot) : Prop where
  used : s.used = true
  pin : s.pin.toNat = pin
  edge : s.edge = edge
  target : s.target = targetBuffer target

/-- The turn does not take the binding of the pin out of its slot, nor replace it. -/
def Spares (pin : Nat) (i : Fin bindSlotCount) : Turn → Prop
  | .add pin' _ _ _ => pin' ≠ pin
  | .remove pin' => pin' ≠ pin
  | .clear j => j ≠ i
  | .drop j => j ≠ i
  | .irq _ _ _ => True
  | .visit _ => True

variable {pin : Nat} {edge : UInt8} {target : List UInt8} {i : Fin bindSlotCount}

theorem BoundTo.drop {b : Bindings} (h : BoundTo pin edge target (b.slots i))
    {j : Fin bindSlotCount} (hne : j ≠ i) :
    BoundTo pin edge target ((b.drop j).slots i) := by
  have hsame : (b.drop j).slots i = b.slots i := Function.update_of_ne (Ne.symm hne) _ _
  rwa [hsame]

/-- **The binding stays** as it is. -/
theorem BoundTo.turn {b : Bindings} (h : BoundTo pin edge target (b.slots i)) {a : Turn}
    (ha : Spares pin i a) :
    BoundTo pin edge target ((b.turn a).slots i) := by
  cases a with
  | irq gpio events now =>
    show BoundTo pin edge target (if (b.slots i).accepts gpio events now then _ else _)
    split
    · exact ⟨h.used, h.pin, h.edge, h.target⟩
    · exact h
  | add pin' edge' buf debounceMs =>
    rw [Bindings.turn]
    rcases b.add_cases pin' edge' (ofBuffer buf) debounceMs with ⟨he, -⟩ | ⟨j, -, -, hslot, -, he⟩
    · rw [he]
      exact h
    · have hne : i ≠ j := by
        rintro rfl
        rcases hslot with ⟨-, hpin⟩ | ⟨hfree, -⟩
        · exact ha (hpin.symm.trans h.pin)
        · exact absurd (hfree.symm.trans h.used) Bool.false_ne_true
      rw [he, Bindings.refreshPinIrq_slots]
      dsimp only
      rw [Function.update_of_ne hne]
      exact h
  | remove pin' =>
    rw [Bindings.turn]
    rcases b.remove_cases pin' with ⟨he, -⟩ | ⟨j, -, hpin, he⟩
    · rw [he]
      exact h
    · have hne : j ≠ i := by
        rintro rfl
        exact ha (hpin.symm.trans h.pin)
      rw [he, Bindings.refreshPinIrq_slots]
      exact h.drop hne
  | clear j =>
    rw [Bindings.turn, Bindings.clear]
    split
    · rw [Bindings.refreshPinIrq_slots]
      exact h.drop ha
    · exact h
  | drop j => exact h.drop ha
  | visit j =>
    rw [Bindings.turn, Bindings.visit]
    split
    · show BoundTo pin edge target (Function.update b.slots j _ i)
      by_cases hij : i = j
      · subst hij
        rw [Function.update_self]
        exact ⟨h.used, h.pin, h.edge, h.target⟩
      · rw [Function.update_of_ne hij]
        exact h
    · exact h

theorem BoundTo.turns {b : Bindings} (h : BoundTo pin edge target (b.slots i)) {turns : List Turn}
    (hspare : ∀ a ∈ turns, Spares pin i a) :
    BoundTo pin edge target ((turns.foldl Bindings.turn b).slots i) := by
  induction turns generalizing b with
  | nil => exact h
  | cons a turns ih =>
    obtain ⟨ha, hturns⟩ := List.forall_mem_cons.mp hspare
    exact ih (h.turn ha) hturns

theorem BoundTo.line {s : BindSlot} (h : BoundTo pin edge target s) (hnul : 0 ∉ target)
    (hlen : target.length ≤ bindTargetMax) : s.line = target := by
  rw [BindSlot.line, h.target, ofBuffer_targetBuffer hnul hlen, ofBuffer_targetBuffer hnul hlen]

/-- An edge that is accepted is dispatched at the next visit. -/
theorem visit_accepted {b : Bindings} {events : Finset Edge} {now : UInt32}
    (h : (b.slots i).accepts pin events now = true) :
    ((b.gpioIrqCb pin events now).visit i).2 = some (b.slots i).line := by
  have hused := BindSlot.accepts_used h
  have hslot : (b.gpioIrqCb pin events now).slots i =
      { b.slots i with lastFiredMs := now, pending := true } := if_pos h
  unfold Bindings.visit
  rw [hslot, if_pos (by rw [Bool.and_true]; exact hused)]
  rfl

/-! ## What is bound, and what is dispatched -/

/-- Whatever comes between, short of another binding for the pin: an accepted edge is dispatched,
and what is dispatched from the slot comes to these words. -/
def Replays (pin : Nat) (i : Fin bindSlotCount) (words : List (List UInt8)) (b : Bindings) : Prop :=
  ∀ turns : List Turn, (∀ a ∈ turns, Spares pin i a) →
    (∀ events now, ((turns.foldl Bindings.turn b).slots i).accepts pin events now = true →
      (((turns.foldl Bindings.turn b).gpioIrqCb pin events now).visit i).2 = some (joined words)) ∧
    ∀ line, ((turns.foldl Bindings.turn b).visit i).2 = some line →
      ∀ fw, ∃ buf argv, cliDispatchLine .bg (Buffer.ofString (bindTargetMax + 1) line) fw =
          Fw.goto { fw with expandBuf := buf } (.dispatch .bg argv) cliOk ∧
        argv.map (Fw.str { fw with expandBuf := buf }) = words

/-- What `bind` is for: it takes what fits, stores it as it is, and it comes back as the words it
was. -/
structure Kept (pin : Nat) (edge : UInt8) (words : List (List UInt8)) (r : BindRan) : Prop where
  accepted : r.rc = cliOk ↔ (joined words).length ≤ bindTargetMax
  stored : r.rc = cliOk → ∃ i, (r.b.slots i).used = true ∧ (r.b.slots i).pin.toNat = pin ∧
    (∀ j, (r.b.slots j).used = true → (r.b.slots j).pin.toNat = pin → j = i) ∧
    (r.b.slots i).edge = edge ∧ ofBuffer (r.b.slots i).target.1 = joined words ∧
    ((∀ word ∈ words, ∀ c ∈ word, isPlain c = true) → Replays pin i words r.b)

theorem replays {b : Bindings} {words : List (List UInt8)}
    (h : BoundTo pin edge (joined words) (b.slots i)) (hne : words ≠ [])
    (hwords : ∀ word ∈ words, PlainWord word) (hargs : words.length ≤ cliMaxArgs)
    (hlen : (joined words).length ≤ bindTargetMax) : Replays pin i words b := by
  intro turns hspare
  have hbound := h.turns hspare
  have hline := hbound.line (joined_nul fun word hword => (hwords word hword).nul) hlen
  refine ⟨fun events now hacc => ?_, fun line hvisit fw => ?_⟩
  · rw [visit_accepted hacc, hline]
  · have heq : line = joined words := by
      unfold Bindings.visit at hvisit
      split at hvisit
      · rw [← hline]
        exact (Option.some.inj hvisit).symm
      · exact absurd hvisit (by simp)
    rw [heq]
    exact dispatchLine_plain hne hargs hwords (Nat.lt_succ_of_le hlen) (by decide) .bg fw

/-- There is a slot for the pin: a free one, or the one it has. -/
def Room (pin : Nat) (t : BindTable) : Prop := ∃ i, (t i).used = false ∨ (t i).pin.toNat = pin

/-- With a pin and an edge that are good the words are joined. -/
theorem handleBind_target {prog pinArg edgeArg : List UInt8}
    {words : List (List UInt8)} {b : Bindings} (hpin : strtoul pinArg = (pin, []))
    (hrange : pin ≤ 29) (hedge : bindingsParseEdge edgeArg = some edge) (hne : words ≠ []) :
    handleBind (prog :: ascii "gpio" :: pinArg :: edgeArg :: words) b =
      bindTarget pin edge (joinTarget words []) b := by
  obtain ⟨word, words, rfl⟩ := List.exists_cons_of_ne_nil hne
  have hgood : ¬ (([] : List UInt8) ≠ [] ∨ pin > 29) := by
    rintro (h | h)
    · exact h rfl
    · exact Nat.not_lt_of_le hrange h
  unfold handleBind
  simp only [hpin, hedge]
  rw [if_neg (fun h => h rfl), if_neg hgood]

/-- **What the command comes to**, with a pin and an edge that are good and a slot to put it. -/
theorem handleBind_cases {prog pinArg edgeArg : List UInt8}
    {words : List (List UInt8)} {b : Bindings} (hpin : strtoul pinArg = (pin, []))
    (hrange : pin ≤ 29) (hedge : bindingsParseEdge edgeArg = some edge) (hroom : Room pin b.slots)
    (hne : words ≠ []) (hword : ∀ word ∈ words, word ≠ []) :
    (¬ Lone words ∧ (joined words).length ≤ bindTargetMax ∧ ∃ i out,
      (((b.slots i).used = true ∧ (b.slots i).pin.toNat = pin) ∨
        (b.slots i).used = false ∧ ∀ j, (b.slots j).used = true → (b.slots j).pin.toNat ≠ pin) ∧
      handleBind (prog :: ascii "gpio" :: pinArg :: edgeArg :: words) b =
        { b := Bindings.refreshPinIrq pin
            { b with slots := Function.update b.slots i (boundSlot pin edge (joined words) 20) }
          rc := cliOk
          out }) ∨
      (Lone words ∨ bindTargetMax < (joined words).length) ∧ ∃ out,
        handleBind (prog :: ascii "gpio" :: pinArg :: edgeArg :: words) b =
            { b, rc := cliErrArg, out } := by
  rw [handleBind_target hpin hrange hedge hne]
  obtain ⟨word, words, rfl⟩ := List.exists_cons_of_ne_nil hne
  rcases joinTarget_exact (hword word List.mem_cons_self) words with
    ⟨hlone, hlen, hjoin⟩ | ⟨hwhy, hjoin⟩
  · rw [hjoin]
    refine .inl ⟨hlone, hlen, ?_⟩
    rcases b.add_cases pin edge (joined (word :: words)) 20 with ⟨-, hno⟩ | ⟨i, -, -, hslot, -, he⟩
    · obtain ⟨j, hj⟩ := hroom
      rcases hno with hlt | hlt | hfull
      · exact absurd hrange (Nat.not_le_of_lt hlt)
      · exact absurd hlen (Nat.not_le_of_lt hlt)
      · rcases hj with hfree | hpin'
        · exact absurd (hfree.symm.trans (hfull j).1) Bool.false_ne_true
        · exact absurd hpin' (hfull j).2
    · rw [bindTarget]
      dsimp only
      rw [he, if_neg (fun h => h rfl)]
      exact ⟨i, _, hslot, rfl⟩
  · rw [hjoin]
    exact .inr ⟨hwhy, _, rfl⟩

/-- **When `bind` keeps its command**: always, but for a single word as long as a target may be. -/
theorem bind_exact {w : EventWorld} (h : eventWorlds.Reachable w) {prog pinArg edgeArg : List UInt8}
    {words : List (List UInt8)} {r : BindRan} (hpin : strtoul pinArg = (pin, []))
    (hrange : pin ≤ 29) (hedge : bindingsParseEdge edgeArg = some edge) (hroom : Room pin w.b.slots)
    (hne : words ≠ []) (hword : ∀ word ∈ words, word ≠ [] ∧ 0 ∉ word)
    (hargs : (prog :: ascii "gpio" :: pinArg :: edgeArg :: words).length ≤ cliMaxArgs)
    (hr : handleBind (prog :: ascii "gpio" :: pinArg :: edgeArg :: words) w.b = r) :
    Kept pin edge words r ↔ ¬ ∃ word, words = [word] ∧ word.length = bindTargetMax := by
  have ht := (eventInv_reachable h).1
  rcases handleBind_cases hpin hrange hedge hroom hne (fun word hmem => (hword word hmem).1) with
    ⟨hlone, hlen, i, out, hslot, he⟩ | ⟨hwhy, out, he⟩
  · obtain rfl := he.symm.trans hr
    refine ⟨fun _ => hlone, fun _ => ⟨⟨fun _ => hlen, fun _ => rfl⟩, fun _ => ⟨i, ?_⟩⟩⟩
    have hnul := joined_nul fun word hmem => (hword word hmem).2
    have hslots : (Bindings.refreshPinIrq pin { w.b with
          slots := Function.update w.b.slots i (boundSlot pin edge (joined words) 20) }).slots =
        Function.update w.b.slots i (boundSlot pin edge (joined words) 20) :=
      Bindings.refreshPinIrq_slots pin _
    have hself := (congrFun hslots i).trans (Function.update_self i _ _)
    refine ⟨congrArg BindSlot.used hself, ?_, fun j hused heq => ?_,
      congrArg BindSlot.edge hself, ?_, fun hplain => ?_⟩
    · rw [hself, boundSlot_pin hrange]
    · by_contra hji
      rw [hslots, Function.update_of_ne hji] at hused heq
      exact ht.pin_other hslot hji hused heq
    · rw [hself]
      exact ofBuffer_targetBuffer hnul hlen
    · have hplainWord : ∀ word ∈ words, PlainWord word := fun word hmem =>
        ⟨(hword word hmem).1, (hword word hmem).2, hplain word hmem⟩
      have hbound : BoundTo pin edge (joined words) (boundSlot pin edge (joined words) 20) :=
        ⟨rfl, boundSlot_pin hrange, rfl, rfl⟩
      have hargc : words.length + 4 ≤ cliMaxArgs := hargs
      exact replays (hself ▸ hbound) hne hplainWord (by omega) hlen
  · obtain rfl := he.symm.trans hr
    have hrefused : cliErrArg ≠ cliOk := by decide
    refine ⟨fun hkept => ?_, fun hlone => ?_⟩
    · have hlen : ¬ (joined words).length ≤ bindTargetMax :=
        fun hle => hrefused (hkept.accepted.mpr hle)
      rintro ⟨word, rfl, hfull⟩
      rw [joined_singleton] at hlen
      exact hlen (Nat.le_of_eq hfull)
    · have hlong := hwhy.resolve_left hlone
      exact ⟨⟨fun hok => absurd hok hrefused, fun hle => absurd hle (Nat.not_le_of_lt hlong)⟩,
        fun hok => absurd hok hrefused⟩

/-- `bind gpio 2 rise` with these words, on a board that has just started. -/
def bindRise (words : List (List UInt8)) : BindRan :=
  handleBind (ascii "bind" :: ascii "gpio" :: ascii "2" :: ascii "rise" :: words) Bindings.zero

/-- `gpio 5 toggle`. -/
def toggleWords : List (List UInt8) := [ascii "gpio", ascii "5", ascii "toggle"]

/-- A short line is taken, and comes back as its words. -/
theorem toggle_kept : (bindRise toggleWords).rc = cliOk ∧
    ∃ i, Replays 2 i toggleWords (bindRise toggleWords).b := by
  have hreach : eventWorlds.Reachable { b := .zero, history := [] } := .init rfl
  have hroom : Room 2 Bindings.zero.slots := ⟨firstSlot, .inl rfl⟩
  have hkept : Kept 2 bindEdgeHigh toggleWords (bindRise toggleWords) :=
    (bind_exact hreach (by decide) (by decide) (by decide) hroom (by decide) (by decide)
      (by decide) rfl).mpr
      (by rintro ⟨word, heq, -⟩; exact absurd heq (by simp [toggleWords]))
  have hok := hkept.accepted.mpr (by decide)
  obtain ⟨i, -, -, -, -, -, hplain⟩ := hkept.stored hok
  have hall : toggleWords.all (fun word => word.all isPlain) = true := rfl
  exact ⟨hok, i, hplain fun word hword => List.all_eq_true.mp (List.all_eq_true.mp hall word hword)⟩

/-- A word of 96 characters. -/
def fullWord : List UInt8 := List.replicate 96 0x61

/-- On its own it would fit, and is refused. -/
theorem fullWord_refused : (joined [fullWord]).length ≤ bindTargetMax ∧
    (bindRise [fullWord]).rc = cliErrArg := by
  decide +kernel

end PicoBLE.Cli
