import PicoBLE.Cli.CmdOta
import PicoBLE.Network.HttpTaken
import PicoBLE.Ota.Footprint
import PicoBLE.Ota.HexDigest

/-!
# An update, from the server to the slot

`ota download` lets `http_get` hand what it takes off the connection to `ota_write`.
`ota apply` puts the slot on record, and the bootloader enters it. Each of the three
has its own account of the image: a prefix of a stream, a counter with a page buffer
and a hash, a slot. The accounts meet in the digest that the user has typed.

Nothing is assumed of the network, of the flash or of the power, but that the call
of `http_get` has the context to itself; and the image is the body that a
well-formed head announces.
-/

namespace PicoBLE.Firmware

open NorFlash
open PicoBLE.Ota
open PicoBLE.Bootloader
open PicoBLE.Cli
open PicoBLE.Network
open PicoBLE.Sha256

/-! ## The callback -/

/-- What `on_chunk` works on, and what it has been called with. -/
structure Sink where
  app : App
  st : DlState
  calls : List (Chunk × (Nat → Bool))

/-- `on_chunk` as `http_get` calls it; `flash k` are the page programs under its `k`-th call. -/
def onChunkCb (flash : Nat → Nat → Bool) (_ : Unit) (bytes : List UInt8) (u : Sink) : Bool × Sink :=
  if hlen : bytes.length < 2 ^ 31 then
    let c := onChunk ⟨bytes, hlen⟩ (flash u.calls.length) u.st u.app
    (c.2.2, ⟨c.1, c.2.1, u.calls ++ [(⟨bytes, hlen⟩, flash u.calls.length)]⟩)
  -- no C object is so long
  else (false, u)

/-- What `on_chunk` starts from. -/
def Sink.start (s : App) : Sink := ⟨s, ⟨0, false⟩, []⟩

/-- The sink has taken `b`, and everything it has been called with has been taken. -/
structure Took (s : App) (b : List UInt8) (u : Sink) : Prop where
  receiving : Receiving u.app b b
  counted : u.st = ⟨b.length, false⟩
  fetched : fetchChunks u.calls ⟨0, false⟩ s = (u.app, u.st)
  staging : u.app.ota.status.stagingSlot = s.ota.status.stagingSlot
  outside : SameOutside s.base otaSlotSize s.flash.image u.app.flash.image

/-- One more call of `on_chunk`. -/
theorem fetchChunks_snoc {chunks : List (Chunk × (Nat → Bool))} {st st' : DlState} {s s' : App}
    (h : fetchChunks chunks st s = (s', st')) (he : st'.error = false) (data : Chunk)
    (ok : Nat → Bool) :
    fetchChunks (chunks ++ [(data, ok)]) st s = ((onChunk data ok st' s').1,
      (onChunk data ok st' s').2.1) := by
  induction chunks generalizing st s with
  | nil =>
    obtain ⟨rfl, rfl⟩ := Prod.mk.inj h
    rw [List.nil_append, fetchChunks]
    rcases onChunk data ok st s with ⟨s₁, st₁, _ | _⟩ <;> rfl
  | cons c chunks ih =>
    obtain ⟨data', ok'⟩ := c
    rw [fetchChunks] at h
    rw [List.cons_append, fetchChunks]
    rcases hc : onChunk data' ok' st s with ⟨s₁, st₁, _ | _⟩
    · -- a call that was refused has set the error
      rw [hc] at h
      obtain ⟨rfl, rfl⟩ := Prod.mk.inj h
      have herr : (onChunk data' ok' st s).2.1.error = true := by
        unfold onChunk at hc ⊢
        dsimp only at hc ⊢
        split at hc
        · next hw => rw [if_pos hw]
        · exact absurd (congrArg (fun c => c.2.2) hc) (by simp)
      rw [hc] at herr
      exact absurd (he.symm.trans herr) Bool.false_ne_true
    · rw [hc] at h
      exact ih h

/-- An accepted chunk is staged in full. -/
theorem onChunk_accepted {s : App} {b : List UInt8} (h : Receiving s b b) {data : Chunk}
    {ok : Nat → Bool} (hacc : (onChunk data ok ⟨b.length, false⟩ s).2.2 = true) :
    Receiving (onChunk data ok ⟨b.length, false⟩ s).1 (b ++ data.1) (b ++ data.1) ∧
      (onChunk data ok ⟨b.length, false⟩ s).2.1 = ⟨(b ++ data.1).length, false⟩ := by
  have hres : (otaWrite ok b.length (some data.1) s).2 = .ok := by
    by_contra hne
    unfold onChunk at hacc
    dsimp only at hacc
    rw [if_pos hne] at hacc
    exact absurd hacc Bool.false_ne_true
  have haccepts : s.ota.status.Accepts b.length data.1 := by
    by_contra hno
    obtain ⟨r, hr, he⟩ := otaWrite_rejected hno ok
    rw [he] at hres
    rcases hr with rfl | rfl <;> exact absurd hres (by simp)
  rw [otaWrite_accepted haccepts] at hres
  obtain ⟨done, -, hall, hrec⟩ := h.wrote haccepts data.2 ok
  rw [hall hres] at hrec
  have hon : onChunk data ok ⟨b.length, false⟩ s
      = ((s.wrote ok data.1).1, ⟨(b.length + data.1.length) % 2 ^ 32, false⟩, true) := by
    unfold onChunk
    dsimp only
    rw [otaWrite_accepted haccepts, hres, if_neg (not_not_intro rfl)]
  -- the slot is far shorter than the range of the counter
  have hS : otaSlotSize = 786432 := rfl
  have hfits := hrec.fits
  rw [List.length_append] at hfits
  rw [hon, List.length_append, Nat.mod_eq_of_lt (by omega)]
  exact ⟨hrec, rfl⟩

/-- **`on_chunk` keeps account.** -/
theorem onChunkCb_keepsAccount (flash : Nat → Nat → Bool) (s : App) :
    KeepsAccount (onChunkCb flash) () (Took s) := by
  intro b u piece h _ hacc
  unfold onChunkCb at hacc ⊢
  by_cases hlen : piece.length < 2 ^ 31
  · rw [dif_pos hlen] at hacc ⊢
    obtain ⟨app, st, calls⟩ := u
    obtain ⟨hrec, rfl, hfetched, hstaging, hout⟩ := h
    dsimp only at hrec hfetched hstaging hout hacc ⊢
    obtain ⟨hrec', hst'⟩ := onChunk_accepted hrec hacc
    have hbase : app.base = s.base := congrArg Slot.offset hstaging
    have hwrite := run_sameOutside (s := app) (fun _ => ⟨b, b, hrec⟩)
      (.write b.length (some ⟨piece, hlen⟩) (flash calls.length))
    rw [hbase] at hwrite
    have happ := onChunk_app ⟨piece, hlen⟩ (flash calls.length) ⟨b.length, false⟩ app
    refine ⟨hrec', hst', fetchChunks_snoc hfetched rfl _ _, ?_, hout.trans ?_⟩
    · rw [happ]
      exact (run_stagingSlot (.write b.length (some ⟨piece, hlen⟩) (flash calls.length)) app).trans
        hstaging
    · rw [happ]
      exact hwrite
  · rw [dif_neg hlen] at hacc
    exact absurd hacc Bool.false_ne_true

/-! ## The download -/

/-- The outcomes of a download whose call to `http_get` receives `received`, while nobody else
calls `http_get`. -/
def Served (flash : Nat → Nat → Bool) (s : App) (e : Outcomes) (received : List UInt8) : Prop :=
  ∃ r start events q code out, start.chunkCb = some () ∧
    (LTS.ofFun (fun _ => True) (Request.step (onChunkCb flash) r)).Runs (fun _ _ => True)
      (Request.start r start (Sink.start s)) events q ∧
    q.returned = some (code, out) ∧ received = events.flatMap Event.bytes ∧
    e.chunks = q.http.user.calls ∧ e.httpOk = decide (code = .ok)

/-- The staging slot of `s` holds a body, and the status has its digest. -/
structure Holds (s s' : App) (body : List UInt8) : Prop where
  ready : s'.ota.status.imageReady = true
  staging : s'.ota.status.stagingSlot = s.ota.status.stagingSlot
  digest : s'.ota.status.computedSha256.1 = Fips180.sha256 body
  slot : SlotHolds s.base body s'.flash.image
  outside : SameOutside s.base otaSlotSize s.flash.image s'.flash.image

/-- What a call to `http_get` with a good end has taken. -/
theorem Served.took {flash : Nat → Nat → Bool} {s : App} {e : Outcomes} {hd : ResponseHead}
    {b : List UInt8} (h : Served flash s e (hd.bytes ++ b)) (hrec : Receiving s [] [])
    (hok : e.httpOk = true) :
    hd.Success ∧ hd.Whole b ∧
      ∃ u, fetchChunks e.chunks ⟨0, false⟩ s = (u.app, u.st) ∧ Took s (hd.body b) u := by
  obtain ⟨r, start, events, q, code, out, hcb, hrun, hret, hsent, hchunks, hhttp⟩ := h
  obtain rfl : code = .ok := of_decide_eq_true (hhttp.symm.trans hok)
  have hstart : Took s [] (Sink.start s) := ⟨hrec, rfl, rfl, rfl, SameOutside.refl _ _ _⟩
  obtain ⟨hst, hwhole, -, htook⟩ :=
    taken_of_head (onChunkCb_keepsAccount flash s) hcb hstart hrun hret hsent.symm
  exact ⟨hst, hwhole, q.http.user, hchunks ▸ htook.fetched, htook⟩

/-- What `ota_finalize` makes of it. -/
theorem Took.finalize {s s' : App} {b : List UInt8} {u : Sink} (h : Took s b u) {ok : Nat → Bool}
    (hfin : otaFinalize ok u.app = (s', .ok)) : Holds s s' b := by
  have hbase : u.app.base = s.base := congrArg Slot.offset h.staging
  have hout := run_sameOutside (s := u.app) (fun _ => ⟨b, b, h.receiving⟩) (.finalize ok)
  rw [hbase] at hout
  change SameOutside _ _ _ (otaFinalize ok u.app).1.flash.image at hout
  rcases h.receiving.finalize ok with he | ⟨p, he, hslot, hsha⟩
  · exact absurd (congrArg Prod.snd (he.symm.trans hfin)) (by simp)
  · obtain rfl := congrArg Prod.fst (he.symm.trans hfin)
    rw [hfin] at hout
    rw [hbase] at hslot
    exact ⟨rfl, h.staging, hsha, hslot, h.outside.trans hout⟩

/-- The way to a good end: nothing on it has failed. -/
theorem cmdDownload_staged {shaHex : Option (List UInt8)} {e : Outcomes} {s s' : App}
    (h : cmdDownload shaHex e s = (s', .staged)) :
    ∃ expected, parseExpected shaHex = some expected ∧ (otaBegin e.flashOk 0 s).2 = .ok ∧
      e.httpOk = true ∧
      otaFinalize e.flushOk (fetchChunks e.chunks ⟨0, false⟩ (otaBegin e.flashOk 0 s).1).1 =
        (s', .ok) ∧
      verdict expected s' = .staged := by
  unfold cmdDownload at h
  cases hx : parseExpected shaHex with
  | none =>
    rw [hx] at h
    exact absurd (congrArg Prod.snd h) (by simp)
  | some expected =>
    rw [hx] at h
    dsimp only at h
    -- one refusal after the other
    split at h
    · exact absurd (congrArg Prod.snd h) (by simp)
    split at h
    · exact absurd (congrArg Prod.snd h) (by simp)
    next hbegin =>
    split at h
    · exact absurd (congrArg Prod.snd h) (by simp)
    split at h
    · exact absurd (congrArg Prod.snd h) (by simp)
    next hfetch =>
    split at h
    · exact absurd (congrArg Prod.snd h) (by simp)
    next hfin =>
    obtain ⟨rfl, hverdict⟩ := Prod.mk.inj h
    exact ⟨expected, rfl, not_not.mp hbegin, not_not.mp (not_or.mp hfetch).1,
      Prod.ext rfl (not_not.mp hfin), hverdict⟩

theorem otaBegin_idle {ok : Nat → Bool} {n : Nat} {s : App} (h : (otaBegin ok n s).2 = .ok) :
    s.ota.status.updateInProgress = false := by
  rcases otaBegin_cases ok n s with ⟨r, hr, he, -⟩ | ⟨hidle, -⟩ | ⟨hidle, -⟩
  · rw [he] at h
    exact absurd h hr
  · exact hidle
  · exact hidle

/-- **A download that ends well** has put the body of a complete response into the slot, and its
digest is the one that was asked for. -/
theorem staged_holds {flash : Nat → Nat → Bool} {s s' : App}
    {shaHex : Option (List UInt8)} {e : Outcomes} {hd : ResponseHead} {b : List UInt8}
    (hserved : Served flash (otaBegin e.flashOk 0 s).1 e (hd.bytes ++ b))
    (h : cmdDownload shaHex e s = (s', .staged)) :
    ∃ expected, parseExpected shaHex = some expected ∧ hd.Success ∧ hd.Whole b ∧
      Holds s s' (hd.body b) ∧ ∀ d ∈ expected, d.1 = Fips180.sha256 (hd.body b) := by
  obtain ⟨expected, hx, hbegin, hhttp, hfin, hverdict⟩ := cmdDownload_staged h
  obtain ⟨f, hb, hrec⟩ := otaBegin_receiving hbegin
  have hout := run_sameOutside (tracked_idle (otaBegin_idle hbegin)) (.begin 0 e.flashOk)
  change SameOutside _ _ _ (otaBegin e.flashOk 0 s).1.flash.image at hout
  rw [hb] at hserved hfin hout
  obtain ⟨hst, hwhole, u, hchunks, htook⟩ := hserved.took hrec hhttp
  rw [hchunks] at hfin
  have hholds := htook.finalize hfin
  refine ⟨expected, hx, hst, hwhole, ⟨hholds.ready, hholds.staging, hholds.digest, hholds.slot,
    hout.trans hholds.outside⟩, fun d hd => ?_⟩
  rw [verdict_ready hholds.ready] at hverdict
  split at hverdict
  · next hall => rw [hall d hd, hholds.digest]
  · exact absurd hverdict (by simp)

/-! ## The boots -/

/-- Neither slot is written: everything but the calls of a transfer. -/
def LeavesSlots : Ota.Event → Prop
  | .call _ => False
  | _ => True

/-- What is left is work on the metadata sector, whatever flash and power do. -/
theorem sameSlots_step {b b' : Board} {e : Ota.Event} (hl : LeavesSlots e)
    (hs : b.step e = some b') :
    SameSlots b.flash.image b'.flash.image := by
  rcases Board.step_cases hs with ⟨-, rfl⟩ | ⟨power, -, -, rfl⟩ | ⟨ok, slot, -, -, rfl⟩ |
      ⟨c, slot, ota, rfl, -, -⟩ | ⟨ok, slot, ota, a, r, -, -, ha, rfl⟩ |
      ⟨ok, slot, ota, a, -, -, ha, rfl⟩ | ⟨ok, slot, ota, -, -, rfl⟩
  · exact SameOutside.refl _ _ _
  · exact (performs_main power b.flash).sameOutside
  · exact (performs_otaInit slot ok _).sameOutside
  · exact hl.elim
  · have h := (performs_otaApply slot ok ⟨b.flash, ota⟩).sameOutside
    rwa [ha] at h
  · have h := (performs_otaApply slot ok ⟨b.flash, ota⟩).sameOutside
    rwa [ha] at h
  · exact (performs_otaConfirm slot ok ⟨b.flash, ota⟩).sameOutside

theorem sameSlots_run {b b' : Board} {es : List Ota.Event}
    (h : boards.Runs (fun _ e => LeavesSlots e) b es b') :
    SameSlots b.flash.image b'.flash.image := by
  induction h with
  | nil => exact SameOutside.refl _ _ _
  | cons hl hs _ ih => exact (sameSlots_step hl hs).trans ih

/-- `ota apply` puts the staged slot on probation. -/
theorem cmdApply_probation {slot : Slot} {ok : Nat → Bool} {s a : App}
    (h : cmdApply slot ok s = (a, .rebooted)) :
    SameSlots s.flash.image a.flash.image ∧ ∃ m, readMetadata a.flash.image = some m ∧
      m.activeSlot = s.ota.status.stagingSlot.byte ∧ m.pendingVerify = 1 ∧ m.bootAttempts = 0 := by
  unfold cmdApply at h
  by_cases hready : ¬ s.ota.status.imageReady = true
  · rw [if_pos hready] at h
    exact absurd (congrArg Prod.snd h) (by simp)
  rw [if_neg hready] at h
  rcases ha : otaApply slot ok s with ⟨a', r | _⟩
  · rw [ha] at h
    exact absurd (congrArg Prod.snd h) (by simp)
  · rw [ha] at h
    obtain rfl : a' = a := congrArg Prod.fst h
    obtain ⟨-, -, -, f', rfl, hr, hs⟩ := otaApply_rebooted ha
    exact ⟨hs, _, hr, rfl, rfl, rfl⟩

/-- A server that has the image. -/
def imageStart : Start Unit := ⟨some (CString.ascii "http://h/i"), some (), .found 1, ⟨true, errOk⟩⟩

def imageHead : ResponseHead :=
  lengthHead (CString.ascii "200") (CString.ascii " OK") (CString.ascii "264") 264 code200_ok
    reasonOk_ok (by decide) (by decide)

def imageResponse : List UInt8 := imageHead.bytes ++ bootable.1

theorem imageHead_body : imageHead.body bootable.1 = bootable.1 :=
  List.take_of_length_le (by rw [bootable_length])

theorem imageResponse_full : Full imageResponse ∧ ¬ TooLong imageResponse ∧
    wanted imageResponse = bootable.1 := by
  refine ⟨⟨_, _, splitHead_bytes imageHead bootable.1, by decide +kernel, by decide +kernel, ?_⟩,
    not_tooLong imageHead bootable.1 (by decide), ?_⟩
  · rw [bootable_length]
    decide +kernel
  · rw [imageResponse, wanted_bytes, imageHead_body]

/-- It is fetched, and `on_chunk` takes the image in one piece. -/
theorem imageStart_served {s : App} (hrec : Receiving s [] [])
    (hlimit : bootable.1.length ≤ s.ota.status.limit) {e : Outcomes}
    (hchunks : e.chunks = [(bootable, allOk)]) (hhttp : e.httpOk = true) :
    Served (fun _ => allOk) s e imageResponse := by
  obtain ⟨hfull, hl, hwanted⟩ := imageResponse_full
  have hlen := bootable_length
  have hne : bootable.1 ≠ [] := List.length_pos_iff.mp (by omega)
  obtain ⟨hw, -⟩ := hrec.chunk (c := bootable) hne (by rwa [List.length_nil, Nat.zero_add])
  have hcall : onChunkCb (fun _ => allOk) () (wanted imageResponse) (Sink.start s) =
      (true, ⟨(s.wrote allOk bootable.1).1, ⟨bootable.1.length % 2 ^ 32, false⟩,
          [(bootable, allOk)]⟩) := by
    have hon : onChunk bootable allOk ⟨0, false⟩ s =
        ((s.wrote allOk bootable.1).1, ⟨bootable.1.length % 2 ^ 32, false⟩, true) := by
      unfold onChunk
      rw [List.length_nil] at hw
      rw [hw, if_neg (not_not_intro rfl), Nat.zero_add]
    rw [hwanted, onChunkCb, dif_pos bootable.2]
    dsimp only [Sink.start]
    rw [hon]
    rfl
  obtain ⟨q, hrun, hret, huser⟩ :=
    run_whole (onChunkCb fun _ => allOk) (s := imageStart) rfl (by decide +kernel)
    hfull hl (by rwa [hwanted]) (congrArg Prod.fst hcall) 0 fun _ => True
  refine ⟨0, imageStart, _, q, .ok, _, rfl, hrun, hret, ?_, ?_, ?_⟩
  · have hbytes : (Event.callback (.received [imageResponse] errOk)).bytes = imageResponse := by
      rw [Event.bytes, if_pos rfl, List.flatten_singleton]
    rw [List.flatMap_cons, List.flatMap_cons, hbytes]
    exact (List.append_nil _).symm
  · rw [huser, hcall, hchunks]
  · rw [hhttp]
    rfl

/-- What is printed can be typed. -/
theorem parseExpected_printed (d : Digest) : parseExpected (some (d.1.flatMap hexPair)) =
    some (some d) := by
  have hpairs := hexPairs_digits d.1
  have hlen : (d.1.flatMap hexPair).length = 64 := by rw [hexPairs_length, d.2]
  obtain ⟨d', hd'⟩ := sha256ParseHex_digits hlen fun c hc => (hpairs c hc).1
  obtain ⟨-, -, hback⟩ := sha256ParseHex_some (fun h => (hpairs 0 h).2.2 rfl) hd'
  have hlower : (d.1.flatMap hexPair).map CString.toLower = d.1.flatMap hexPair :=
    (List.map_congr_left fun c hc => (hpairs c hc).2.1).trans (List.map_id _)
  rw [hlower] at hback
  obtain rfl : d' = d := Subtype.ext (hexPairs_injective hback)
  unfold parseExpected
  split
  · next h => exact absurd h (by simp)
  · next h =>
    rw [Option.some.inj h] at hlen
    exact absurd hlen (by simp)
  · next hex _ h =>
    rw [← Option.some.inj h, hd']
    rfl

/-- Everything works. -/
def imageOutcomes : Outcomes where
  wifi _ := true
  flashOk := allOk
  chunks := [(bootable, allOk)]
  httpOk := true
  flushOk := allOk

theorem imageOutcomes_unfailing : imageOutcomes.Unfailing := by
  have hbody : imageOutcomes.body = bootable.1 := List.append_nil _
  have hne : bootable.1 ≠ [] := List.length_pos_iff.mp (by rw [bootable_length]; omega)
  refine ⟨fun _ => rfl, rfl, fun c hc => ?_, ?_, rfl, rfl⟩
  · obtain rfl := List.mem_singleton.mp hc
    exact ⟨hne, rfl⟩
  · rw [hbody, bootable_length]
    decide

end PicoBLE.Firmware
