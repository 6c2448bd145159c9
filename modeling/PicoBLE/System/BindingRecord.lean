import PicoBLE.System.BindingOps

/-!
# Bindings survive saving and loading

`bindings_save` packs the used bindings to the front of the record, and
`bindings_load` adds them one by one to an empty table. `bindings_add` takes
them all: their pins are distinct and in range, and their targets fit. And it
gives them the slots from the first on, whatever was in the table before.
-/

namespace PicoBLE.System

open NorFlash Bytes
open PicoBLE.Ota (Flash flashSectorSize picoOtaCrc32)
open PicoBLE.Storage (rewriteSector_front)

/-! ## The record and its bytes -/

theorem DiskBind.encode_length (d : DiskBind) : d.encode.length = diskBindSize := by
  simp [DiskBind.encode, d.target.2, diskBindSize]

/-- **An entry survives its bytes.** -/
theorem DiskBind.decode_encode (d : DiskBind) (h : d.encode.length = diskBindSize) :
    DiskBind.decode d.encode h = d := by
  have hhead : [d.used, d.pin, d.edge, d.reserved].length = 4 := rfl
  have hdebounce : field 4 4 d.encode = leBytes 4 d.debounceMs.toNat := by
    rw [DiskBind.encode, field_skip hhead (Nat.le_refl 4)]
    exact field_here (leBytes_length 4 _)
  have htarget : field 8 97 d.encode = d.target.1 := by
    rw [DiskBind.encode, field_skip hhead (by decide), field_skip (leBytes_length 4 _) (by decide)]
    exact field_last d.target.2
  unfold DiskBind.decode
  simp only [hdebounce, htarget, ofNat_leBytes32]
  rfl

/-- A field behind the header. -/
theorem DiskRecord.field_entries (r : DiskRecord) {off n : Nat} (h : 8 ≤ off) :
    field off n r.encode = field (off - 8) n
      ((bindSlots.flatMap fun i => (r.entries i).encode) ++ leBytes 4 r.crc32.toNat) := by
  have hassoc : r.encode = leBytes 4 r.magic.toNat ++
      (leBytes 2 r.version.toNat ++ (leBytes 2 r.count.toNat ++
      ((bindSlots.flatMap fun i => (r.entries i).encode) ++ leBytes 4 r.crc32.toNat))) := by
    simp only [DiskRecord.encode, DiskRecord.covered, List.append_assoc]
  rw [hassoc, field_skip (leBytes_length 4 _) (by omega),
    field_skip (leBytes_length 2 _) (by omega),
    field_skip (leBytes_length 2 _) (by omega), Nat.sub_sub, Nat.sub_sub]

theorem entries_length (entries : Fin bindSlotCount → DiskBind) :
    (bindSlots.flatMap fun i => (entries i).encode).length = bindSlotCount * diskBindSize := by
  rw [flatMap_length fun i => (entries i).encode_length, bindSlots, List.length_finRange]

theorem DiskRecord.encode_length (r : DiskRecord) : r.encode.length = diskRecordSize := by
  simp only [DiskRecord.encode, DiskRecord.covered, List.length_append, leBytes_length,
    entries_length, diskRecordSize]
  omega

/-- **A record survives its bytes.** -/
theorem DiskRecord.decode_encode (r : DiskRecord) (h : r.encode.length = diskRecordSize) :
    DiskRecord.decode r.encode h = r := by
  have hmagic : field 0 4 r.encode = leBytes 4 r.magic.toNat := by
    rw [DiskRecord.encode, DiskRecord.covered, List.append_assoc]
    exact field_here (leBytes_length 4 _)
  have hversion : field 4 2 r.encode = leBytes 2 r.version.toNat := by
    rw [DiskRecord.encode, DiskRecord.covered, List.append_assoc,
      field_skip (leBytes_length 4 _) (Nat.le_refl 4), List.append_assoc]
    exact field_here (leBytes_length 2 _)
  have hcount : field 6 2 r.encode = leBytes 2 r.count.toNat := by
    rw [DiskRecord.encode, DiskRecord.covered, List.append_assoc,
      field_skip (leBytes_length 4 _) (by decide),
      List.append_assoc, field_skip (leBytes_length 2 _) (by decide), List.append_assoc]
    exact field_here (leBytes_length 2 _)
  have hentry : ∀ i : Fin bindSlotCount,
      field (8 + i.1 * diskBindSize) diskBindSize r.encode = (r.entries i).encode := by
    intro i
    have hlen : i.1 < bindSlots.length := by
      rw [bindSlots, List.length_finRange]
      exact i.2
    have hget : bindSlots[i.1] = i := by simp [bindSlots]
    rw [r.field_entries (Nat.le_add_right 8 _), Nat.add_sub_cancel_left,
      field_flatMap (fun j => (r.entries j).encode_length) hlen, hget]
  have hcrc : field (diskRecordSize - 4) 4 r.encode = leBytes 4 r.crc32.toNat := by
    have hcovered : r.covered.length = diskRecordSize - 4 := by
      have hall := r.encode_length
      rw [DiskRecord.encode, List.length_append, leBytes_length] at hall
      omega
    rw [DiskRecord.encode, field_skip hcovered (Nat.le_refl _), Nat.sub_self]
    exact field_last (leBytes_length 4 _)
  unfold DiskRecord.decode
  simp only [hmagic, hversion, hcount, hcrc, hentry, ofNat_leBytes32, ofNat_leBytes16,
    DiskBind.decode_encode]

/-! ## What is stored -/

/-- Going through the first slots is going through a list. -/
theorem map_firstSlots {α : Type} {n : Nat} {l : List α} (hlen : l.length ≤ n) {g : Fin n → α}
    (hg : ∀ i a, l[i.1]? = some a → g i = a) :
    ((List.finRange n).filter fun i => i.1 < l.length).map g = l := by
  induction l generalizing n with
  | nil => simp
  | cons a l ih =>
    cases n with
    | zero => exact absurd hlen (Nat.not_succ_le_zero _)
    | succ n =>
      have htail := @ih n (Nat.le_of_succ_le_succ hlen) (fun i => g i.succ) fun i b hb =>
        hg i.succ b hb
      rw [List.finRange_succ, List.filter_cons_of_pos (by simp), List.filter_map,
        List.map_cons, List.map_map, hg 0 a rfl]
      refine congrArg (a :: ·) (Eq.trans ?_ htail)
      simp only [Function.comp_def, Fin.val_succ, List.length_cons, Nat.add_lt_add_iff_right]

theorem usedBindings_length (t : BindTable) : (usedBindings t).length ≤ bindSlotCount := by
  rw [usedBindings, List.length_map]
  exact Nat.le_trans (List.length_filter_le _ _) (Nat.le_of_eq List.length_finRange)

theorem DiskRecord.sector_length (r : DiskRecord) : r.sector.length = flashSectorSize := by
  rw [sector, List.length_append, r.encode_length, List.length_replicate]
  decide

/-- **What has been saved is what is stored.** -/
theorem storedEntries_saved {ok : Nat → Bool} {t : BindTable} {f : Flash}
    (hsave : (bindingsSave ok t f).2 = true) {g : Image}
    (hsame : read bindStorageOffset flashSectorSize g =
      read bindStorageOffset flashSectorSize (bindingsSave ok t f).1.image) :
    Bindings.storedEntries g = some (usedBindings t) := by
  have hsector := (diskRecord t).sector_length
  have hread : read bindStorageOffset diskRecordSize g = (diskRecord t).encode := by
    have hfront := rewriteSector_front hsave (Nat.le_of_eq hsector) hsame
      (show diskRecordSize ≤ (diskRecord t).sector.length by rw [hsector]; decide)
    exact hfront.trans (List.take_left' (diskRecord t).encode_length)
  have hdecode : DiskRecord.decode (read bindStorageOffset diskRecordSize g) (read_length _ _ _) =
      diskRecord t := by
    simp only [hread, DiskRecord.decode_encode]
  have hlen := usedBindings_length t
  have hcount : (diskRecord t).count.toNat = (usedBindings t).length := by
    show (UInt16.ofNat (usedBindings t).length).toNat = _
    have h16 : bindSlotCount = 16 := rfl
    rw [UInt16.toNat_ofNat', Nat.mod_eq_of_lt (by omega)]
  unfold Bindings.storedEntries
  simp only [hdecode]
  rw [if_neg (by rintro (h | h) <;> exact h rfl), if_neg (fun h => h rfl),
    if_neg (by rw [hcount]; omega), hcount]
  refine congrArg some (map_firstSlots hlen fun i d hd => ?_)
  show (usedBindings t).getD i.1 .zero = d
  rw [List.getD_eq_getElem?_getD, hd]
  rfl

/-! ## Loading into a table -/

/-- The slot that an entry fills. -/
def DiskBind.slot (d : DiskBind) : BindSlot :=
  boundSlot d.pin.toNat d.edge (CString.ofBuffer d.target.1) d.debounceMs

/-- The entries are in the first slots, and the others are free. -/
structure Filled (ds : List DiskBind) (t : BindTable) : Prop where
  slot : ∀ i d, ds[i.1]? = some d → t i = d.slot
  free : ∀ i, ds.length ≤ i.1 → (t i).used = false

/-- Entries that `bindings_add` takes one after the other. -/
structure Installable (ds : List DiskBind) : Prop where
  used : ∀ d ∈ ds, d.used ≠ 0
  pin : ∀ d ∈ ds, d.pin.toNat ≤ 29
  target : ∀ d ∈ ds, (CString.ofBuffer d.target.1).length ≤ bindTargetMax
  pins : (ds.map DiskBind.pin).Nodup

/-- **One entry more** goes to the next slot. -/
theorem Filled.loadEntry {ds : List DiskBind} {d : DiskBind} {b : Bindings} (h : Filled ds b.slots)
    (hds : Installable (ds ++ [d])) (hroom : ds.length < bindSlotCount) :
    Filled (ds ++ [d]) (b.loadEntry d).slots := by
  have hd : d ∈ ds ++ [d] := List.mem_append_right _ (List.mem_singleton_self d)
  -- the pin is not bound yet
  have hpins : ∀ i, (b.slots i).used = true → ∃ e ∈ ds, (b.slots i).pin = e.pin ∧
      i.1 < ds.length := by
    intro i hi
    by_cases hlt : i.1 < ds.length
    · refine ⟨ds[i.1], List.getElem_mem hlt, ?_, hlt⟩
      rw [h.slot i ds[i.1] (List.getElem?_eq_getElem hlt)]
      exact UInt8.ofNat_toNat
    · exact absurd ((h.free i (Nat.le_of_not_lt hlt)).symm.trans hi) Bool.false_ne_true
  have hnew : ∀ i, (b.slots i).used = true → (b.slots i).pin.toNat ≠ d.pin.toNat := by
    intro i hi heq
    obtain ⟨e, he, hpin, -⟩ := hpins i hi
    have hnodup := hds.pins
    rw [List.map_append, List.map_singleton] at hnodup
    refine (List.nodup_append.mp hnodup).2.2 e.pin (List.mem_map_of_mem he) d.pin
      (List.mem_singleton_self _) ?_
    rw [← hpin]
    exact UInt8.toNat_inj.mp heq
  unfold Bindings.loadEntry
  rw [if_neg (hds.used d hd)]
  rcases b.add_cases d.pin.toNat d.edge (CString.ofBuffer d.target.1) d.debounceMs with
    ⟨-, hwhy⟩ | ⟨i, -, -, hslot, hadd, he⟩
  · rcases hwhy with hpin | hlen | hfull
    · exact absurd (hds.pin d hd) (Nat.not_le_of_lt hpin)
    · exact absurd (hds.target d hd) (Nat.not_le_of_lt hlen)
    · have hfree := h.free ⟨ds.length, hroom⟩ (Nat.le_refl _)
      exact absurd (hfree.symm.trans (hfull ⟨ds.length, hroom⟩).1) Bool.false_ne_true
  · have hnot : (b.slots i).used = false := by
      rcases hslot with ⟨hused, hpin⟩ | ⟨hnot, -⟩
      · exact absurd hpin (hnew i hused)
      · exact hnot
    -- the first free slot is behind the others
    have hi : i.1 = ds.length := by
      refine Nat.le_antisymm (Nat.le_of_not_lt fun hlt => ?_) (Nat.le_of_not_lt fun hlt => ?_)
      · have hbelow := addSlot_first hadd hnot ⟨ds.length, hroom⟩ hlt
        exact absurd ((h.free ⟨ds.length, hroom⟩ (Nat.le_refl _)).symm.trans hbelow)
          Bool.false_ne_true
      · have hfilled : (b.slots i).used = true := by
          rw [h.slot i ds[i.1] (List.getElem?_eq_getElem hlt)]
          rfl
        exact absurd (hnot.symm.trans hfilled) Bool.false_ne_true
    rw [he, Bindings.refreshPinIrq_slots]
    dsimp only
    refine ⟨fun j e hj => ?_, fun j hj => ?_⟩
    · by_cases hji : j = i
      · rw [hji, hi, List.getElem?_concat_length] at hj
        rw [hji, Function.update_self, ← Option.some.inj hj]
        rfl
      · have hne : j.1 ≠ ds.length := fun heq => hji (Fin.ext (heq.trans hi.symm))
        have hlt : j.1 < ds.length := by
          have hle := (List.getElem?_eq_some_iff.mp hj).1
          rw [List.length_append, List.length_singleton] at hle
          omega
        rw [List.getElem?_append_left hlt] at hj
        rw [Function.update_of_ne hji]
        exact h.slot j e hj
    · rw [List.length_append, List.length_singleton] at hj
      have hji : j ≠ i := by
        rintro rfl
        omega
      rw [Function.update_of_ne hji]
      exact h.free j (by omega)

theorem Installable.init {ds : List DiskBind} {d : DiskBind} (h : Installable (ds ++ [d])) :
    Installable ds := by
  have hsub : ∀ {e : DiskBind}, e ∈ ds → e ∈ ds ++ [d] := fun he => List.mem_append_left _ he
  refine ⟨fun e he => h.used e (hsub he), fun e he => h.pin e (hsub he), fun e he =>
    h.target e (hsub he), ?_⟩
  have hpins := h.pins
  rw [List.map_append] at hpins
  exact (List.nodup_append.mp hpins).1

/-- **All of them.** -/
theorem filled_install {ds : List DiskBind} (hds : Installable ds)
    (hlen : ds.length ≤ bindSlotCount) (b : Bindings) :
    Filled ds (b.install ds).slots := by
  unfold Bindings.install
  induction ds using List.reverseRecOn with
  | nil => exact ⟨fun i d hd => absurd hd (by simp), fun i _ =>
    congrArg BindSlot.used (congrFun b.foldl_drop.1 i)⟩
  | append_singleton ds d ih =>
    rw [List.length_append, List.length_singleton] at hlen
    rw [List.foldl_append]
    exact (ih hds.init (Nat.le_of_succ_le hlen)).loadEntry hds hlen

/-! ## Saving and loading -/

/-- What a binding is, whatever slot it is in. -/
structure Binding where
  pin : UInt8
  edge : UInt8
  debounceMs : UInt32
  target : List UInt8
deriving DecidableEq

def BindSlot.binding (s : BindSlot) : Binding :=
  { pin := s.pin, edge := s.edge, debounceMs := s.debounceMs,
    target := CString.ofBuffer s.target.1 }

/-- The bindings in the table, in slot order. -/
def bound (t : BindTable) : List Binding :=
  (bindSlots.filter fun i => (t i).used).map fun i => (t i).binding

/-- An entry comes back as the binding it was made from. -/
theorem binding_toDisk {t : BindTable} (ht : TableInv t) {i : Fin bindSlotCount}
    (hused : (t i).used = true) :
    (t i).toDisk.slot.binding = (t i).binding ∧
      (CString.ofBuffer (t i).toDisk.target.1).length ≤ bindTargetMax := by
  obtain ⟨target, hnul, hlen, htarget⟩ := ht.targets i hused
  have hstr : CString.ofBuffer (t i).target.1 = target := by
    rw [htarget, ofBuffer_targetBuffer hnul hlen]
  have hdisk : CString.ofBuffer (t i).toDisk.target.1 = target := by
    show CString.ofBuffer (targetBuffer (CString.ofBuffer (t i).target.1)).1 = target
    rw [hstr, ofBuffer_targetBuffer hnul hlen]
  refine ⟨?_, by rw [hdisk]; exact hlen⟩
  have hslot : CString.ofBuffer (targetBuffer (CString.ofBuffer (t i).toDisk.target.1)).1 =
      target := by
    rw [hdisk, ofBuffer_targetBuffer hnul hlen]
  show Binding.mk (UInt8.ofNat (t i).pin.toNat) (t i).edge (t i).debounceMs
    (CString.ofBuffer (targetBuffer (CString.ofBuffer (t i).toDisk.target.1)).1) = _
  rw [hslot, UInt8.ofNat_toNat, ← hstr]
  rfl

/-- What is saved can be installed. -/
theorem installable_usedBindings {t : BindTable} (ht : TableInv t) :
    Installable (usedBindings t) := by
  have hmem : ∀ d ∈ usedBindings t, ∃ i, (t i).used = true ∧ (t i).toDisk = d := by
    intro d hd
    obtain ⟨i, hi, hd⟩ := List.mem_map.mp hd
    exact ⟨i, (List.mem_filter.mp hi).2, hd⟩
  refine ⟨fun d hd => ?_, fun d hd => ?_, fun d hd => ?_, ?_⟩
  · obtain ⟨i, -, rfl⟩ := hmem d hd
    show (1 : UInt8) ≠ 0
    decide
  · obtain ⟨i, hused, rfl⟩ := hmem d hd
    exact ht.range i hused
  · obtain ⟨i, hused, rfl⟩ := hmem d hd
    exact (binding_toDisk ht hused).2
  · rw [usedBindings, List.map_map]
    refine List.Nodup.map_on (fun i hi j hj heq => ?_) ((List.nodup_finRange _).filter _)
    exact ht.pins i j (List.mem_filter.mp hi).2 (List.mem_filter.mp hj).2 heq

/-- The table that a record leaves has the bindings of the record, and nothing pending. -/
theorem Filled.bound {ds : List DiskBind} {t : BindTable} (h : Filled ds t)
    (hlen : ds.length ≤ bindSlotCount) :
    bound t = ds.map (fun d => d.slot.binding) ∧ ∀ i, (t i).used = true →
    (t i).pending = false := by
  have hslot : ∀ i : Fin bindSlotCount, i.1 < ds.length → ∃ d, ds[i.1]? = some d ∧ t i = d.slot :=
    fun i hi => ⟨ds[i.1], List.getElem?_eq_getElem hi, h.slot i _ (List.getElem?_eq_getElem hi)⟩
  have hused : ∀ i, (t i).used = decide (i.1 < ds.length) := by
    intro i
    by_cases hi : i.1 < ds.length
    · obtain ⟨d, -, hd⟩ := hslot i hi
      rw [hd, decide_eq_true hi]
      rfl
    · rw [h.free i (Nat.le_of_not_lt hi), decide_eq_false hi]
  refine ⟨?_, fun i hi => ?_⟩
  · have hfilter : bindSlots.filter (fun i => (t i).used) =
        bindSlots.filter fun i => i.1 < (ds.map fun d => d.slot.binding).length :=
      List.filter_congr fun i _ => by rw [List.length_map, hused]
    rw [PicoBLE.System.bound, hfilter]
    refine map_firstSlots (by rw [List.length_map]; exact hlen) fun i a ha => ?_
    rw [List.getElem?_map] at ha
    obtain ⟨d, hd, rfl⟩ := Option.map_eq_some_iff.mp ha
    rw [h.slot i d hd]
  · obtain ⟨d, -, hd⟩ := hslot i (of_decide_eq_true ((hused i).symm.trans hi))
    rw [hd]
    rfl

/-- **Bindings survive saving and loading.** Whatever happens to the table in between, loading
what has been saved brings the same bindings back in the same order, each pin once, with no
event pending; and a load that is refused changes nothing. -/
theorem bindings_survive {b : Bindings} (h : bindings.Reachable b) :
    (∀ ok f, (bindingsSave ok b.slots f).2 = true → ∀ (b' : Bindings) (g : Image),
      read bindStorageOffset flashSectorSize g =
        read bindStorageOffset flashSectorSize (bindingsSave ok b.slots f).1.image →
      (b'.load g).2 = true ∧ bound (b'.load g).1.slots = bound b.slots ∧
        ((bound b.slots).map Binding.pin).Nodup ∧
        ∀ i, ((b'.load g).1.slots i).used = true → ((b'.load g).1.slots i).pending = false) ∧
    ∀ g, (b.load g).2 = false → (b.load g).1 = b := by
  have ht := tableInv_reachable h
  have hds := installable_usedBindings ht
  have hlen := usedBindings_length b.slots
  have hbound : (usedBindings b.slots).map (fun d => d.slot.binding) = bound b.slots := by
    rw [usedBindings, List.map_map, bound]
    exact List.map_congr_left fun i hi => (binding_toDisk ht (List.mem_filter.mp hi).2).1
  refine ⟨fun ok f hsave b' g hsame => ?_, fun g hfalse => ?_⟩
  · obtain ⟨hsaved, hpending⟩ := (filled_install hds hlen b').bound hlen
    rw [Bindings.load_some (storedEntries_saved hsave hsame)]
    refine ⟨rfl, hsaved.trans hbound, ?_, hpending⟩
    have hpins : (bound b.slots).map Binding.pin = (usedBindings b.slots).map DiskBind.pin := by
      rw [bound, usedBindings, List.map_map, List.map_map]
      rfl
    rw [hpins]
    exact hds.pins
  · cases hstored : Bindings.storedEntries g with
    | none => rw [Bindings.load_none hstored]
    | some ds =>
      rw [Bindings.load_some hstored] at hfalse
      exact absurd hfalse (by simp)

/-- Two pins are bound, and the first is free again. -/
def oneBound : Bindings :=
  ((Bindings.zero.next (.add 2 bindEdgeHigh (CString.ascii "led on") 0)).next
    (.add 7 bindEdgeChange (CString.ascii "adc 0") 20)).next (.remove 2)

/-- The binding in the second slot comes back, after the table has been cleared. -/
theorem oneBound_survives :
    bound (oneBound.clearAll.load (bindingsSave (fun _ => true) oneBound.slots
      { image := fun _ => 0xFF, log := [] }).1.image).1.slots
    = [{ pin := 7, edge := bindEdgeChange, debounceMs := 20, target := CString.ascii "adc 0" }] :=
  by
  have hreach : bindings.Reachable oneBound := .tail (.tail (.tail (.init rfl) rfl) rfl) rfl
  have hsave : (bindingsSave (fun _ => true) oneBound.slots
      { image := fun _ => 0xFF, log := [] }).2 = true := rfl
  obtain ⟨-, hbound, -⟩ := (bindings_survive hreach).1 _ _ hsave oneBound.clearAll _ rfl
  rw [hbound]
  decide +kernel

end PicoBLE.System
