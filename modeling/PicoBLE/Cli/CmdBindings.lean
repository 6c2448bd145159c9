import PicoBLE.Cli.CmdBind
import PicoBLE.System.BindingMap

/-!
# `cli/commands/cmd_unbind.c` and `cli/commands/cmd_bindings.c`

`unbind` takes bindings out of the table and `bindings` lists it, saves it and
loads it. What they do is said of the map that the table stands for.
-/

namespace PicoBLE.Cli

open CString (ascii crlf itoa strtoul ofBuffer)
open PicoBLE.System
open PicoBLE.Ota (Flash)
open SlotTable

/-! ## The commands -/

/-- What `%2d`, `%2u` print: blanks in front. -/
def padLeft (width : Nat) (s : List UInt8) : List UInt8 := List.replicate (width - s.length) 32 ++ s

/-- What `%-6s` prints: blanks behind. -/
def padRight (width : Nat) (s : List UInt8) : List UInt8 :=
  s ++ List.replicate (width - s.length) 32

/-- The text of `list_one`, before `cli_printf` cuts it. -/
def bindingLine (slot : Nat) (v : Binding) : List UInt8 :=
  ascii "  [" ++ (padLeft 2 (itoa slot) ++ (ascii "] gpio " ++ (padLeft 2 (itoa v.pin.toNat) ++
    (ascii " " ++ (padRight 6 (bindingsEdgeStr v.edge) ++ (ascii " (debounce=" ++
      (itoa v.debounceMs.toNat ++ (ascii "ms) -> " ++ (v.target ++ crlf)))))))))

/-- `list_one`. -/
def listOne (slot : Fin bindSlotCount) (s : BindSnapshot) : List UInt8 :=
  cliPrintf (bindingLine slot.1 s.binding)

/-- `handle`, of `cmd_unbind.c`. -/
def handleUnbind (argv : List (List UInt8)) (b : Bindings) : BindRan :=
  match argv with
  | _ :: what :: args =>
    if what = ascii "all" then
      { b := b.clearAll, rc := cliOk,
        out := ascii
          "unbind: all bindings cleared (not yet persisted; run \x60bindings save\x60)" ++ crlf }
    else if what ≠ ascii "gpio" then { b, rc := cliErrUsage, out := [] }
    else
      match args with
      | [] => { b, rc := cliErrUsage, out := [] }
      | pinArg :: _ =>
        let (pin, stop) := strtoul pinArg
        if stop ≠ [] ∨ pin > 29 then
          { b, rc := cliErrArg, out := cliPrintf (ascii "unbind: bad pin: " ++ pinArg ++ crlf) }
        else
          let r := b.remove pin
          if ¬ r.2 then
            { b := r.1, rc := cliErrArg,
              out := cliPrintf (ascii "unbind: no binding on gpio " ++ itoa pin ++ crlf) }
          else
            { b := r.1, rc := cliOk,
              out := cliPrintf (ascii "unbind: removed binding on gpio " ++ itoa pin ++ crlf) }
  | _ => { b, rc := cliErrUsage, out := [] }

/-- What `bindings` leaves, with the flash. -/
structure BindingsRan extends BindRan where
  flash : Flash

/-- `handle`, of `cmd_bindings.c`. -/
def handleBindings (ok : Nat → Bool) (argv : List (List UInt8)) (b : Bindings) (f : Flash) :
    BindingsRan :=
  match argv with
  | _ :: what :: _ =>
    if what = ascii "save" then
      let (flash, saved) := bindingsSave ok b.slots f
      { b, rc := if saved then cliOk else cliErrHardware, out := [], flash }
    else if what = ascii "load" then
      let r := b.load f.image
      { b := r.1, rc := if r.2 then cliOk else cliErrHardware, out := [], flash := f }
    else
      { b, rc := cliErrUsage,
        out := cliPrintf (ascii "bindings: unknown subcommand: " ++ what ++ crlf), flash := f }
  | _ =>
    if bindingsCount b.slots = 0 then
      { b, rc := cliOk, out := ascii "(no bindings)" ++ crlf, flash := f }
    else
      { b, rc := cliOk, out := (bindingsIter b.slots).flatMap fun p => listOne p.1 p.2, flash := f }

/-! ## What is listed -/

theorem itoa_length_le {n k : Nat} (hk : 0 < k) (h : n < 10 ^ k) : (itoa n).length ≤ k := by
  have hprint : itoa n = (Nat.toDigits 10 n).map fun c => UInt8.ofNat c.toNat := by
    rw [itoa, if_neg (Int.not_lt.mpr (Int.natCast_nonneg n)), List.nil_append, Int.natAbs_natCast]
  rw [hprint, List.length_map]
  exact (Nat.length_toDigits_le_iff (by decide) hk).mpr h

theorem padLeft_length (width : Nat) (s : List UInt8) :
    (padLeft width s).length = max width s.length := by
  rw [padLeft, List.length_append, List.length_replicate]
  omega

theorem padRight_length (width : Nat) (s : List UInt8) :
    (padRight width s).length = max width s.length := by
  rw [padRight, List.length_append, List.length_replicate]
  omega

theorem bindingsEdgeStr_length (e : UInt8) : (bindingsEdgeStr e).length ≤ 6 := by
  unfold bindingsEdgeStr
  split
  · decide
  · split
    · decide
    · split <;> decide

/-- **No line of the listing is cut.** -/
theorem bindingLine_fits (slot : Fin bindSlotCount) {v : Binding}
    (h : v.target.length ≤ bindTargetMax) :
    cliPrintf (bindingLine slot.1 v) = bindingLine slot.1 v := by
  have hcount : bindSlotCount = 16 := rfl
  have hslot : (itoa slot.1).length ≤ 2 := itoa_length_le (by decide) (by have := slot.2; omega)
  have hpin : (itoa v.pin.toNat).length ≤ 3 :=
    itoa_length_le (by decide) (by have := v.pin.toNat_lt; omega)
  have hms : (itoa v.debounceMs.toNat).length ≤ 10 :=
    itoa_length_le (by decide) (by have := v.debounceMs.toNat_lt; omega)
  have hedge := bindingsEdgeStr_length v.edge
  have hmax : bindTargetMax = 96 := rfl
  have htexts : (ascii "  [").length = 3 ∧ (ascii "] gpio ").length = 7 ∧ (ascii " ").length = 1 ∧
      (ascii " (debounce=").length = 11 ∧ (ascii "ms) -> ").length = 7 ∧
      crlf.length = 2 := by decide
  refine List.take_of_length_le ?_
  unfold bindingLine
  simp only [List.length_append, padLeft_length, padRight_length]
  omega

/-- What the table shows is what the map has. -/
theorem listed_binding {s : BindStore} (h : BindingsRefine s) {p : Fin bindSlotCount × BindSnapshot}
    (hp : p ∈ bindingsIter s.b.slots) : p.2.binding.target.length ≤ bindTargetMax := by
  obtain ⟨i, hi, rfl⟩ := List.mem_map.mp hp
  obtain ⟨target, hnul, hlen, htarget⟩ := h.table.targets i (List.mem_filter.mp hi).2
  show (ofBuffer (targetBuffer (ofBuffer (s.b.slots i).target.1)).1).length ≤ bindTargetMax
  rw [htarget, ofBuffer_targetBuffer hnul hlen, ofBuffer_targetBuffer hnul hlen]
  exact hlen

/-- `bindings` lists the table. -/
theorem handleBindings_list {s : BindStore} (h : BindingsRefine s) (ok : Nat → Bool)
    (c : List UInt8) (f : Flash) :
    (handleBindings ok [c] s.b f).out = if s.map.keys.card = 0 then ascii "(no bindings)" ++ crlf
      else (bindingsIter s.b.slots).flatMap fun p => bindingLine p.1.1 p.2.binding := by
  unfold handleBindings
  dsimp only
  rw [bindingsCount_eq h]
  split
  · rfl
  · refine List.flatMap_congr fun p hp => ?_
    exact bindingLine_fits p.1 (listed_binding h hp)

/-! ## What is put in -/

/-- The names of the edges, and their aliases. -/
def edgeNames : List (List UInt8 × UInt8) :=
  [(ascii "high", bindEdgeHigh), (ascii "rise", bindEdgeHigh), (ascii "rising", bindEdgeHigh),
    (ascii "low", bindEdgeLow), (ascii "fall", bindEdgeLow), (ascii "falling", bindEdgeLow),
    (ascii "change", bindEdgeChange), (ascii "both", bindEdgeChange)]

theorem parseEdge_names (s : List UInt8) : bindingsParseEdge s = edgeNames.lookup s := by
  unfold bindingsParseEdge edgeNames
  simp only [List.lookup_cons, List.lookup_nil, beq_eq_decide]
  split
  · next h => rcases h with rfl | rfl | rfl <;> rfl
  · next hhigh =>
    split
    · next h => rcases h with rfl | rfl | rfl <;> rfl
    · next hlow =>
      split
      · next h => rcases h with rfl | rfl <;> rfl
      · next hchange =>
        simp only [not_or] at hhigh hlow hchange
        simp [hhigh, hlow, hchange]

/-- The words of the target, from the first that is not empty on. -/
def said (words : List (List UInt8)) : List (List UInt8) := words.dropWhile List.isEmpty

/-- The pin, the edge and the line that a `bind` asks for. -/
def askedBinding (pinArg edgeArg : List UInt8) (words : List (List UInt8)) :
    Option (Nat × UInt8 × List UInt8) :=
  if (strtoul pinArg).2 = [] then
    (edgeNames.lookup edgeArg).map fun edge => ((strtoul pinArg).1, edge, joined (said words))
  else none

/-- **What the loop takes**, of any words. It writes no blank in front of the first that is not
empty. -/
theorem joinTarget_said (words : List (List UInt8)) :
    (¬ Lone (said words) ∧ (joined (said words)).length ≤ bindTargetMax ∧
        joinTarget words [] = some (joined (said words))) ∨
      (Lone (said words) ∨ bindTargetMax < (joined (said words)).length) ∧
      joinTarget words [] = none := by
  induction words with
  | nil =>
    refine .inl ⟨?_, Nat.zero_le _, rfl⟩
    rintro ⟨word, hword, -⟩
    exact absurd hword.symm (List.cons_ne_nil word [])
  | cons word words ih =>
    cases word with
    | nil => exact ih
    | cons c word => exact joinTarget_exact (List.cons_ne_nil c word) words

theorem said_nul {words : List (List UInt8)} (hwords : ∀ word ∈ words, 0 ∉ word) :
    0 ∉ joined (said words) :=
  joined_nul fun word hword => hwords word ((List.dropWhile_suffix _).subset hword)

/-- The binding is made, or refused as the map refuses it; then the table stays as it is. -/
theorem bindTarget_refines {s : BindStore} (h : BindingsRefine s) (pin : Nat) (edge : UInt8)
    {target : List UInt8} (hnul : 0 ∉ target) :
    (∃ m, s.map.bind pin edge target 20 = some m ∧
      (bindTarget pin edge (some target) s.b).rc = cliOk ∧
      Represents (BindTable.entries (bindTarget pin edge (some target) s.b).b.slots) m) ∨
    s.map.bind pin edge target 20 = none ∧ (bindTarget pin edge (some target) s.b).rc ≠ cliOk ∧
      (bindTarget pin edge (some target) s.b).b = s.b := by
  have hfails : cliErrHardware ≠ cliOk := by decide
  obtain ⟨hmap, hdone⟩ := @refines_add s.map pin s.b h.map edge target hnul 20
  unfold bindTarget
  dsimp only
  cases hbind : s.map.bind pin edge target 20 with
  | some m =>
    rw [hbind] at hdone hmap
    rw [hdone]
    exact .inl ⟨m, rfl, rfl, hmap⟩
  | none =>
    rw [hbind] at hdone
    rw [hdone]
    refine .inr ⟨rfl, hfails, ?_⟩
    show (s.b.add pin edge target 20).1 = s.b
    rcases s.b.add_cases pin edge target 20 with ⟨he, -⟩ | ⟨i, -, -, -, -, he⟩
    · rw [he]
    · rw [he] at hdone
      exact absurd hdone.symm Bool.false_ne_true

theorem bind_long {m : BindMap} {pin : Nat} {edge : UInt8} {target : List UInt8}
    {debounceMs : UInt32} (h : bindTargetMax < target.length) :
    m.bind pin edge target debounceMs = none :=
  if_neg fun hin => Nat.not_le_of_lt h hin.2.1

/-- **`bind`** does to the map what it asks for, but for the one target that its loop refuses. -/
theorem handleBind_refines {s : BindStore} (h : BindingsRefine s) (c pinArg edgeArg : List UInt8)
    {words : List (List UInt8)} (hne : words ≠ []) (hwords : ∀ word ∈ words, 0 ∉ word) :
    (∃ pin edge target m, askedBinding pinArg edgeArg words = some (pin, edge, target) ∧
      s.map.bind pin edge target 20 = some m ∧ ¬ Lone (said words) ∧
      (handleBind (c :: ascii "gpio" :: pinArg :: edgeArg :: words) s.b).rc = cliOk ∧
      Represents (BindTable.entries (handleBind (c :: ascii "gpio" :: pinArg :: edgeArg :: words)
        s.b).b.slots) m) ∨
    ((∀ pin edge target, askedBinding pinArg edgeArg words = some (pin, edge, target) →
        s.map.bind pin edge target 20 = none) ∨ Lone (said words)) ∧
      (handleBind (c :: ascii "gpio" :: pinArg :: edgeArg :: words) s.b).rc ≠ cliOk ∧
      (handleBind (c :: ascii "gpio" :: pinArg :: edgeArg :: words) s.b).b = s.b := by
  have hfails : cliErrArg ≠ cliOk := by decide
  obtain ⟨word, words, rfl⟩ := List.exists_cons_of_ne_nil hne
  unfold handleBind askedBinding
  dsimp only
  rw [if_neg (not_not_intro rfl), parseEdge_names]
  generalize strtoul pinArg = parsed
  obtain ⟨pin, stop⟩ := parsed
  dsimp only
  by_cases hbad : stop ≠ [] ∨ pin > 29
  · rw [if_pos hbad]
    refine .inr ⟨.inl fun k edge target hasked => ?_, hfails, rfl⟩
    split at hasked
    · next hstop =>
      obtain ⟨e, -, ht⟩ := Option.map_eq_some_iff.mp hasked
      obtain ⟨rfl, -, -⟩ := Prod.mk.injEq .. ▸ ht
      exact if_neg fun hin =>
        absurd hin.1 (Nat.not_le.mpr (hbad.resolve_left (not_not_intro hstop)))
    · exact absurd hasked (Option.some_ne_none _).symm
  · obtain ⟨hstop, -⟩ := not_or.mp hbad
    rw [if_neg hbad, if_pos (not_not.mp hstop)]
    cases edgeNames.lookup edgeArg with
    | none =>
      exact .inr ⟨.inl fun _ _ _ hasked => absurd hasked (Option.some_ne_none _).symm, hfails, rfl⟩
    | some edge =>
      dsimp only [Option.map_some]
      rcases joinTarget_said (word :: words) with ⟨hlone, -, hjoin⟩ | ⟨hwhy, hjoin⟩
      · rw [hjoin]
        rcases bindTarget_refines h pin edge (said_nul hwords) with ⟨m, hbind, hrc, hmap⟩
          | ⟨hno, hrc, hsame⟩
        · exact .inl ⟨pin, edge, _, m, rfl, hbind, hlone, hrc, hmap⟩
        · refine .inr ⟨.inl fun k e t hasked => ?_, hrc, hsame⟩
          obtain ⟨⟩ := Option.some.inj hasked
          exact hno
      · rw [hjoin]
        refine .inr ⟨hwhy.symm.imp_left fun hlong k e t hasked => ?_, hfails, rfl⟩
        obtain ⟨⟩ := Option.some.inj hasked
        exact bind_long hlong

/-! ## What is taken out -/

/-- `unbind gpio` takes out the binding of the pin it is given, if it is given one that is bound. -/
theorem handleUnbind_gpio {s : BindStore} (h : BindingsRefine s) (c pinArg : List UInt8)
    (args : List (List UInt8)) :
    ((handleUnbind (c :: ascii "gpio" :: pinArg :: args) s.b).rc = cliOk ↔
      (strtoul pinArg).2 = [] ∧ (s.map.lookup (strtoul pinArg).1).isSome = true) ∧
    Represents (BindTable.entries (handleUnbind (c :: ascii "gpio" :: pinArg :: args) s.b).b.slots)
      (if (strtoul pinArg).2 = [] then s.map.erase (strtoul pinArg).1 else s.map) := by
  have hword : ascii "gpio" ≠ ascii "all" := by decide
  have hfails : cliErrArg ≠ cliOk := by decide
  have hbound : ∀ k, 29 < k → s.map.lookup k = none := by
    refine fun k hk => (lookup_none h.map).mpr fun j hused hpin => ?_
    exact absurd (h.table.range j hused) (Nat.not_le.mpr (hpin ▸ hk))
  unfold handleUnbind
  dsimp only
  rw [if_neg hword, if_neg (not_not_intro rfl)]
  generalize strtoul pinArg = parsed
  obtain ⟨pin, stop⟩ := parsed
  dsimp only
  by_cases hbad : stop ≠ [] ∨ pin > 29
  · rw [if_pos hbad]
    refine ⟨⟨fun h => absurd h hfails, fun ⟨hstop, hsome⟩ => ?_⟩, ?_⟩
    · rw [hbound pin (hbad.resolve_left (not_not_intro hstop))] at hsome
      exact absurd hsome Bool.false_ne_true
    · split
      · next hstop =>
        -- no pin that is out of range is bound
        have hno := hbound pin (hbad.resolve_left (not_not_intro hstop))
        rw [erase_none hno]
        exact h.map
      · exact h.map
  · obtain ⟨hstop, -⟩ := not_or.mp hbad
    obtain ⟨hmap, hfound⟩ := refines_remove h.map pin
    rw [if_neg hbad, if_pos (not_not.mp hstop), hfound]
    cases s.map.lookup pin with
    | none => exact ⟨⟨fun h => absurd h hfails, fun h => absurd h.2 Bool.false_ne_true⟩, hmap⟩
    | some v => exact ⟨⟨fun _ => ⟨not_not.mp hstop, rfl⟩, fun _ => rfl⟩, hmap⟩

/-- `unbind all` leaves nothing. -/
theorem handleUnbind_all (c : List UInt8) (args : List (List UInt8)) (b : Bindings) :
    Represents (BindTable.entries (handleUnbind (c :: ascii "all" :: args) b).b.slots) ∅ := by
  unfold handleUnbind
  dsimp only
  rw [if_pos rfl]
  exact refines_free (clearAll_free b)

/-! ## All three -/

/-- **The commands work on a map.** Whatever was called before and whichever
interrupts came between, `bind` and `unbind` do to the table what they do to a
map with room for sixteen pins, and say whether they could, and `bindings` lists
what the map has, each pin once and no line cut. One `bind` that the map could do
is refused: of a target that is a single word of full length. -/
theorem bindings_refine {s : BindStore} (h : bindStores.Reachable s) (c : List UInt8) :
    Represents (BindTable.entries s.b.slots) s.map ∧
    (∀ pinArg edgeArg words, words ≠ [] → (∀ word ∈ words, 0 ∉ word) →
      let r := handleBind (c :: ascii "gpio" :: pinArg :: edgeArg :: words) s.b
      (∃ pin edge target m, askedBinding pinArg edgeArg words = some (pin, edge, target) ∧
        s.map.bind pin edge target 20 = some m ∧ ¬ Lone (said words) ∧ r.rc = cliOk ∧
        Represents (BindTable.entries r.b.slots) m) ∨
      ((∀ pin edge target, askedBinding pinArg edgeArg words = some (pin, edge, target) →
        s.map.bind pin edge target 20 = none) ∨ Lone (said words)) ∧ r.rc ≠ cliOk ∧ r.b = s.b) ∧
    (∀ pinArg args,
      let r := handleUnbind (c :: ascii "gpio" :: pinArg :: args) s.b
      (r.rc = cliOk ↔ (strtoul pinArg).2 = [] ∧ (s.map.lookup (strtoul pinArg).1).isSome = true) ∧
      Represents (BindTable.entries r.b.slots)
        (if (strtoul pinArg).2 = [] then s.map.erase (strtoul pinArg).1 else s.map)) ∧
    (∀ args,
      Represents (BindTable.entries (handleUnbind (c :: ascii "all" :: args) s.b).b.slots) ∅) ∧
    (∀ ok f, (handleBindings ok [c] s.b f).out =
      if s.map.keys.card = 0 then ascii "(no bindings)" ++ crlf
      else (bindingsIter s.b.slots).flatMap fun p => bindingLine p.1.1 p.2.binding) ∧
    ((bindingsIter s.b.slots).map fun p => (p.2.pin.toNat, p.2.binding)).Nodup ∧
    ∀ pin v, (pin, v) ∈ (bindingsIter s.b.slots).map (fun p => (p.2.pin.toNat, p.2.binding)) ↔
      s.map.lookup pin = some v := by
  have hr := bindingsRefine_reachable h
  obtain ⟨hnodup, hall⟩ := hr.map.visits (List.nodup_finRange _) mem_bindSlots
  rw [bindingsIter_eq hr.table]
  refine ⟨hr.map, fun pinArg edgeArg words hne hwords => ?_, fun pinArg args => ?_, fun args =>
    ?_, fun ok f => ?_, hnodup, hall⟩
  · exact handleBind_refines hr c pinArg edgeArg hne hwords
  · exact handleUnbind_gpio hr c pinArg args
  · exact handleUnbind_all c args s.b
  · exact handleBindings_list hr ok c f

/-- Two pins are bound, one of them again after an interrupt, and the other is taken out. -/
def boundStore : BindStore :=
  [.add 2 bindEdgeHigh (ascii "led on") 20, .add 7 bindEdgeLow (ascii "led off") 20,
    .irq 2 {.rise} 50,
    .add 7 bindEdgeChange (ascii "adc 0") 20, .remove 2].foldl BindStore.step ⟨.zero, ∅⟩

/-- They leave one line to list, and the pin of that line can be taken out. -/
theorem boundStore_refine :
    (handleBindings (fun _ => true) [ascii "bindings"] boundStore.b ⟨fun _ => 0xFF, []⟩).out =
      ascii "  [ 1] gpio  7 change (debounce=20ms) -> adc 0" ++ crlf ∧
    (handleUnbind [ascii "unbind", ascii "gpio", ascii "7"] boundStore.b).rc = cliOk ∧
    (boundStore.map.lookup 7).isSome = true := by
  have hr : bindStores.Reachable boundStore := reachable_foldl (.init rfl) _
  obtain ⟨-, -, hunbind, -, -, -, -⟩ := bindings_refine hr (ascii "unbind")
  have hlisted :
      (handleBindings (fun _ => true) [ascii "bindings"] boundStore.b ⟨fun _ => 0xFF, []⟩).out =
      ascii "  [ 1] gpio  7 change (debounce=20ms) -> adc 0" ++ crlf := by decide +kernel
  have hok : (handleUnbind [ascii "unbind", ascii "gpio", ascii "7"] boundStore.b).rc = cliOk := by
    decide +kernel
  refine ⟨hlisted, hok, ?_⟩
  exact ((hunbind (ascii "7") []).1.mp hok).2

end PicoBLE.Cli
