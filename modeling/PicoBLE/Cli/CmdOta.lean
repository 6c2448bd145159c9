import PicoBLE.Cli.CmdScript
import PicoBLE.Ota.Rollback

/-!
# `cli/commands/cmd_ota.c`

`ota download` stages an image, and compares its digest when it was given one.
What it makes of the comparison is its exit code and a line of output: "DIGEST
MISMATCH, will not apply". `ota.c` is not told. The image stays ready, and
`ota apply` asks for nothing else.

The commands come one after the other, from whichever shell. Everything the
network and the flash decide during a command is in its `Outcomes`.
-/

namespace PicoBLE.Cli

open CString (ascii)
open PicoBLE.Ota
open PicoBLE.Bootloader
open PicoBLE.Sha256

/-! ## The commands -/

/-- What happens around a command. -/
structure Outcomes where
  /-- `wifi_is_connected`, each time it is asked. -/
  wifi : Nat → Bool
  /-- The erases of `ota_begin`, or the two operations of a metadata write. -/
  flashOk : Nat → Bool
  /-- What `http_get` hands to its callback, with the page programs under each chunk. -/
  chunks : List (Chunk × (Nat → Bool))
  /-- `http_get` returns `HTTP_OK`, unless the callback stops it. -/
  httpOk : Bool
  /-- The last page. -/
  flushOk : Nat → Bool

/-- `dl_state_t`, less the progress report. -/
structure DlState where
  bytes : Nat
  error : Bool

/-- `on_chunk`. -/
def onChunk (data : Chunk) (ok : Nat → Bool) (st : DlState) (s : App) : App × DlState × Bool :=
  let w := otaWrite ok st.bytes (some data.1) s
  if w.2 ≠ .ok then (w.1, { st with error := true }, false)
  else (w.1, { st with bytes := (st.bytes + data.1.length) % 2 ^ 32 }, true)

/-- The callbacks of `http_get`, until one returns `false`. -/
def fetchChunks : List (Chunk × (Nat → Bool)) → DlState → App → App × DlState
  | [], st, s => (s, st)
  | (data, ok) :: chunks, st, s =>
    match onChunk data ok st s with
    | (s, st, true) => fetchChunks chunks st s
    | (s, st, false) => (s, st)

/-- The ways out of `cmd_download`. -/
inductive DownloadEnd where
  | badDigest
  | offline
  | beginFailed
  | wifiLost
  | downloadFailed
  | finalizeFailed
  | mismatch
  | staged
deriving DecidableEq, Repr

/-- What each of them returns. -/
def DownloadEnd.rc : DownloadEnd → Int
  | .badDigest => cliErrArg
  | .staged => cliOk
  | _ => cliErrHardware

/-- The ones behind `ota_begin`. -/
def DownloadEnd.begun : DownloadEnd → Bool
  | .badDigest | .offline | .beginFailed => false
  | _ => true

/-- `expected` and `have_expected`, unless the argument is refused. -/
def parseExpected (shaHex : Option (List UInt8)) : Option (Option Digest) :=
  match shaHex with
  | none => some none
  | some [] => some none
  | some hex => (sha256ParseHex hex).map some

/-- The comparison, on what `ota_finalize` has left. -/
def verdict (expected : Option Digest) (s : App) : DownloadEnd :=
  match expected with
  | none => .staged
  | some d => if otaVerify (some d) s = .ok then .staged else .mismatch

/-- `cmd_download`. -/
def cmdDownload (shaHex : Option (List UInt8)) (e : Outcomes) (s : App) : App × DownloadEnd :=
  match parseExpected shaHex with
  | none => (s, .badDigest)
  | some expected =>
    if ¬ e.wifi 0 then (s, .offline)
    else
      let b := otaBegin e.flashOk 0 s
      if b.2 ≠ .ok then (b.1, .beginFailed)
      -- a dropped link is given one `wifi_connect` to come back
      else if ¬ e.wifi 1 ∧ ¬ e.wifi 2 then ((otaAbort b.1).1, .wifiLost)
      else
        let g := fetchChunks e.chunks ⟨0, false⟩ b.1
        if ¬ e.httpOk ∨ g.2.error then ((otaAbort g.1).1, .downloadFailed)
        else
          let r := otaFinalize e.flushOk g.1
          if r.2 ≠ .ok then (r.1, .finalizeFailed)
          else (r.1, verdict expected r.1)

/-- How a command ends. -/
inductive OtaEnd where
  | returned (rc : Int)
  | rebooted
deriving DecidableEq, Repr

/-- `cmd_apply`. -/
def cmdApply (slot : Slot) (ok : Nat → Bool) (s : App) : App × OtaEnd :=
  if ¬ s.ota.status.imageReady then (s, .returned cliErrArg)
  else
    match otaApply slot ok s with
    | (s, .returned _) => (s, .returned cliErrHardware)
    | (s, .rebooted) => (s, .rebooted)

/-- `cmd_confirm`. -/
def cmdConfirm (slot : Slot) (ok : Nat → Bool) (s : App) : App × OtaEnd :=
  if ¬ s.ota.status.pendingVerify ∧ s.ota.status.bootAttempts = 0 then (s, .returned cliOk)
  else (otaConfirm slot ok s, .returned cliOk)

/-- `ota status`, `abort`, `confirm`, `apply` or `download`. -/
inductive OtaSub where
  | status
  | abort
  | confirm
  | apply
  | download (shaHex : Option (List UInt8))
  | usage
deriving DecidableEq, Repr

/-- The comparisons in `handle`. -/
def otaSub (argv : List (List UInt8)) : OtaSub :=
  match argv with
  | _ :: sub :: rest =>
    if sub = ascii "status" then .status
    else if sub = ascii "abort" then .abort
    else if sub = ascii "confirm" then .confirm
    else if sub = ascii "apply" ∨ sub = ascii "update" then .apply
    else if sub = ascii "download" then
      match rest with
      | _ :: rest => .download rest.head?
      | [] => .usage
    else .usage
  | _ => .usage

/-- `handle`. -/
def handleOta (slot : Slot) (argv : List (List UInt8)) (e : Outcomes) (s : App) : App × OtaEnd :=
  match otaSub argv with
  | .status => (s, .returned cliOk)
  | .abort => ((otaAbort s).1, .returned cliOk)
  | .confirm => cmdConfirm slot e.flashOk s
  | .apply => cmdApply slot e.flashOk s
  | .download shaHex =>
    let d := cmdDownload shaHex e s
    (d.1, .returned d.2.rc)
  | .usage => (s, .returned cliErrUsage)

/-! ## What a download leaves -/

/-- The state between `ota_begin` and `ota_finalize`. -/
def Underway (s : App) : Prop :=
  s.ota.status.updateInProgress = true ∧ s.ota.status.imageReady = false

/-- A write is none of the flags' business. -/
theorem Underway.write {s : App} (h : Underway s) (ok : Nat → Bool) (offset : Nat)
    (data : List UInt8) : Underway (otaWrite ok offset (some data) s).1 := by
  by_cases hacc : s.ota.status.Accepts offset data
  · rw [otaWrite_accepted hacc]; exact h
  · obtain ⟨r, -, he⟩ := otaWrite_rejected hacc ok
    rw [he]; exact h

theorem onChunk_app (data : Chunk) (ok : Nat → Bool) (st : DlState) (s : App) :
    (onChunk data ok st s).1 = (otaWrite ok st.bytes (some data.1) s).1 := by
  unfold onChunk
  dsimp only
  split <;> rfl

theorem Underway.fetchChunks {s : App} (h : Underway s) (chunks : List (Chunk × (Nat → Bool)))
    (st : DlState) : Underway (fetchChunks chunks st s).1 := by
  induction chunks generalizing s st with
  | nil => exact h
  | cons c chunks ih =>
    obtain ⟨data, ok⟩ := c
    have hw := h.write ok st.bytes data.1
    rw [← onChunk_app data ok st s] at hw
    unfold Cli.fetchChunks
    rcases hc : onChunk data ok st s with ⟨s', st', _ | _⟩
    · rw [hc] at hw; exact hw
    · rw [hc] at hw; exact ih hw st'

/-- **The ways out of a download**: it does not get past `ota_begin` and the status is as it
was, no image is ready, or one is and the end tells whether it has the digest asked for. -/
theorem cmdDownload_cases (shaHex : Option (List UInt8)) (e : Outcomes) (s : App) :
    ((cmdDownload shaHex e s).2.begun = false ∧
      (cmdDownload shaHex e s).1.ota = s.ota) ∨
    ((cmdDownload shaHex e s).2.begun = true ∧ (cmdDownload shaHex e s).2 ≠ .mismatch ∧
      (cmdDownload shaHex e s).1.ota.status.imageReady = false) ∨
    (∃ expected, parseExpected shaHex = some expected ∧
      (cmdDownload shaHex e s).2 = verdict expected (cmdDownload shaHex e s).1 ∧
      (cmdDownload shaHex e s).1.ota.status.imageReady = true ∧
      (cmdDownload shaHex e s).1.ota.status.updateInProgress = false) := by
  unfold cmdDownload
  cases parseExpected shaHex with
  | none => exact .inl ⟨rfl, rfl⟩
  | some expected =>
    dsimp only
    cases e.wifi 0 with
    | false => rw [if_pos Bool.false_ne_true]; exact .inl ⟨rfl, rfl⟩
    | true =>
      rw [if_neg (not_not.mpr rfl)]
      rcases otaBegin_cases e.flashOk 0 s with ⟨r, hr, he, -⟩ | ⟨-, -, f, -, he⟩ | ⟨-, -, f, -, he⟩
      · rw [he, if_pos hr]; exact .inl ⟨rfl, rfl⟩
      -- an erase failed: the image that was ready before still is
      · rw [he, if_pos (by simp)]; exact .inl ⟨rfl, rfl⟩
      · rw [he, if_neg (not_not.mpr rfl)]
        have hs : Underway (s.begun 0 f) := ⟨rfl, rfl⟩
        have hg := hs.fetchChunks e.chunks ⟨0, false⟩
        generalize s.begun 0 f = a at hs hg
        by_cases hw : ¬ e.wifi 1 = true ∧ ¬ e.wifi 2 = true
        · rw [if_pos hw]; exact .inr (.inl ⟨rfl, by simp, (otaAbort_idle a hs.1).2⟩)
        · rw [if_neg hw]
          generalize Cli.fetchChunks e.chunks ⟨0, false⟩ a = g at hg
          by_cases hfail : ¬ e.httpOk = true ∨ g.2.error = true
          · rw [if_pos hfail]; exact .inr (.inl ⟨rfl, by simp, (otaAbort_idle g.1 hg.1).2⟩)
          · rw [if_neg hfail]
            rcases hf : flushPage (e.flushOk 0) g.1.base g.1.pages with ⟨p, _ | _⟩
            · -- the last page could not be programmed: the update stays in progress
              rw [otaFinalize_io hg.1 hf, if_pos (by simp)]
              exact .inr (.inl ⟨rfl, by simp, hg.2⟩)
            · rw [otaFinalize_ok hg.1 hf, if_neg (not_not.mpr rfl)]
              exact .inr (.inr ⟨expected, rfl, rfl, rfl, rfl⟩)

/-- The verdict on a ready image. -/
theorem verdict_ready {s : App} (h : s.ota.status.imageReady = true) (expected : Option Digest) :
    verdict expected s
      = if ∀ d ∈ expected, d = s.ota.status.computedSha256 then .staged else .mismatch := by
  cases expected with
  | none => rw [if_pos (by simp)]; rfl
  | some d =>
    unfold verdict otaVerify
    dsimp only
    rw [if_neg (not_not.mpr h)]
    by_cases hd : s.ota.status.computedSha256 = d
    · rw [if_pos ((sha256Equal_iff _ _).mpr hd), if_pos rfl, if_pos]
      intro d' hd'
      rw [hd, ← Option.mem_some_iff.mp hd']
    · rw [if_neg (fun h => hd ((sha256Equal_iff _ _).mp h)), if_neg (by simp), if_neg]
      exact fun hall => hd (hall d rfl).symm

/-! ## A download on which nothing fails -/

/-- What the chunks add up to. -/
def Outcomes.body (e : Outcomes) : List UInt8 := (e.chunks.map fun c => c.1.1).flatten

/-- The link stays up, the flash works, and the server sends an image that fits. -/
structure Outcomes.Unfailing (e : Outcomes) : Prop where
  wifi : ∀ k, e.wifi k = true
  flash : e.flashOk = allOk
  chunks : ∀ c ∈ e.chunks, c.1.1 ≠ [] ∧ c.2 = allOk
  fits : e.body.length ≤ otaSlotSize
  http : e.httpOk = true
  flush : e.flushOk 0 = true

/-- Chunks that fit are received one by one. -/
theorem fetchChunks_receiving {chunks : List (Chunk × (Nat → Bool))}
    (hc : ∀ c ∈ chunks, c.1.1 ≠ [] ∧ c.2 = allOk) {s : App} {acc : List UInt8}
    (h : Receiving s acc acc)
    (hfit : acc.length + (chunks.map fun c => c.1.1).flatten.length ≤ s.ota.status.limit) :
    ∃ s' n, fetchChunks chunks ⟨acc.length, false⟩ s = (s', ⟨n, false⟩) ∧
      Receiving s' (acc ++ (chunks.map fun c => c.1.1).flatten)
        (acc ++ (chunks.map fun c => c.1.1).flatten) := by
  induction chunks generalizing s acc with
  | nil =>
    exact ⟨s, acc.length, rfl, by rw [List.map_nil, List.flatten_nil, List.append_nil]; exact h⟩
  | cons c chunks ih =>
    obtain ⟨data, ok⟩ := c
    obtain ⟨hne, rfl⟩ := hc _ (List.mem_cons_self ..)
    rw [List.map_cons, List.flatten_cons, List.length_append] at hfit
    obtain ⟨hw, hrec⟩ := h.chunk hne (by omega)
    -- `dl_state_t.bytes` and the counter of `ota.c` agree
    have hS : otaSlotSize = 786432 := rfl
    have hfits := hrec.fits
    rw [List.length_append] at hfits
    have hon : onChunk data allOk ⟨acc.length, false⟩ s
        = ((s.wrote allOk data.1).1, ⟨(acc ++ data.1).length, false⟩, true) := by
      unfold onChunk
      rw [hw, List.length_append]
      dsimp only
      rw [if_neg (not_not.mpr rfl), Nat.mod_eq_of_lt (by omega)]
    obtain ⟨s', n, hs', hrec'⟩ := ih (fun c hmem => hc c (List.mem_cons_of_mem _ hmem)) hrec (by
      show _ ≤ s.ota.status.limit
      rw [List.length_append]; omega)
    rw [List.append_assoc] at hrec'
    refine ⟨s', n, ?_, by rw [List.map_cons, List.flatten_cons]; exact hrec'⟩
    unfold Cli.fetchChunks
    rw [hon]
    exact hs'

/-- **The verdict is on the body**: the image is ready with the digest of what the server sent,
and the download ends well exactly if that is the digest it was given, or it was given none. -/
theorem cmdDownload_unfailing {shaHex : Option (List UInt8)} {expected : Option Digest}
    (hx : parseExpected shaHex = some expected) {e : Outcomes} (he : e.Unfailing) {s : App}
    (hidle : s.ota.status.updateInProgress = false) :
    ∃ s' : App, cmdDownload shaHex e s = (s', verdict expected s') ∧
      s'.ota.status.imageReady = true ∧ s'.ota.status.computedSha256.1 = Fips180.sha256 e.body := by
  have hbegin := otaBegin_succeeds hidle (Nat.zero_le otaSlotSize)
  obtain ⟨f, hb, hrec⟩ := otaBegin_receiving hbegin
  obtain ⟨s₁, n, hg, hrec₁⟩ := fetchChunks_receiving he.chunks hrec (by
    rw [List.length_nil, Nat.zero_add]; exact he.fits)
  rw [List.nil_append] at hrec₁
  obtain ⟨p, hfin, -, hsha⟩ := hrec₁.finalize_ok e.flushOk he.flush
  refine ⟨s₁.finalized p, ?_, rfl, hsha⟩
  unfold cmdDownload
  rw [hx]
  dsimp only
  rw [he.wifi 0, he.wifi 1, he.flash, if_neg (not_not.mpr rfl), hbegin, if_neg (not_not.mpr rfl),
    if_neg (fun h => h.1 rfl), hb]
  rw [List.length_nil] at hg
  rw [hg, he.http, if_neg (by simp)]
  dsimp only
  rw [hfin, if_neg (not_not.mpr rfl)]

/-! ## The commands on a board -/

/-- What can happen. -/
inductive UpdateEvent where
  | reset
  | boot (power : Nat → Bool)
  | init (ok : Nat → Bool)
  /-- `ota_auto_confirm`, the timer of `main.c`. -/
  | autoConfirm (ok : Nat → Bool)
  | command (argv : List (List UInt8)) (e : Outcomes)

/-- A board after an event. -/
def boardAfter (b : Board) : UpdateEvent → Option Board
  | .reset => b.step .reset
  | .boot power => b.step (.boot power)
  | .init ok => b.step (.init ok)
  | .autoConfirm ok => b.step (.confirm ok)
  | .command argv e =>
    match b.cpu with
    | .app slot ota =>
      match handleOta slot argv e ⟨b.flash, ota⟩ with
      | (a, .returned _) => some ⟨a.flash, .app slot a.ota⟩
      | (a, .rebooted) => some ⟨a.flash, .bootloader⟩
    | _ => none

/-- The download behind the last `ota_begin` since `ota_init`. -/
structure Origin where
  /-- The digest it was given. -/
  given : Option Digest
  /-- It ended in `DIGEST MISMATCH`. -/
  refused : Bool

/-- An image `ota_apply` has selected. -/
structure Applied where
  computed : Digest
  given : Option Digest

/-- It has the digest its download was given, if it was given one. -/
def Applied.Verified (a : Applied) : Prop := ∀ d ∈ a.given, d = a.computed

/-- A board, and what its history has to say about images. -/
structure Updates where
  board : Board
  origin : Origin
  applied : List Applied

/-- The origin of what is in the staging slot after an event. -/
def originAfter (w : Updates) : UpdateEvent → Origin
  | .init _ => ⟨none, false⟩
  | .command argv e =>
    match w.board.cpu, otaSub argv with
    | .app _ ota, .download shaHex =>
      let d := (cmdDownload shaHex e ⟨w.board.flash, ota⟩).2
      if d.begun then ⟨(parseExpected shaHex).join, d = .mismatch⟩ else w.origin
    | _, _ => w.origin
  | _ => w.origin

/-- The images applied after an event. -/
def appliedAfter (w : Updates) : UpdateEvent → List Applied
  | .command argv e =>
    match w.board.cpu, otaSub argv with
    | .app slot ota, .apply =>
      if (cmdApply slot e.flashOk ⟨w.board.flash, ota⟩).2 = .rebooted then
        ⟨ota.status.computedSha256, w.origin.given⟩ :: w.applied
      else w.applied
    | _, _ => w.applied
  | _ => w.applied

def Updates.step (w : Updates) (e : UpdateEvent) : Option Updates :=
  (boardAfter w.board e).map fun b => ⟨b, originAfter w e, appliedAfter w e⟩

/-- Runs start in the bootloader. -/
def updates : LTS Updates UpdateEvent :=
  LTS.ofFun (fun w => w.board.cpu = .bootloader ∧ w.applied = []) Updates.step

/-- A mismatch is heeded: no image is applied behind it. -/
def Heeded (w : Updates) : UpdateEvent → Prop
  | .command argv e =>
    otaSub argv = .apply → e.flashOk 0 = true → e.flashOk 1 = true → w.origin.refused = false
  | _ => True

/-! ## The invariant -/

/-- What the status has to do with the origin. -/
structure Originates (o : Origin) (st : OtaStatus) : Prop where
  idle : st.imageReady = true → st.updateInProgress = false
  /-- After a mismatch the wrong image stays ready. -/
  wrong : o.refused = true → st.imageReady = true ∧ ∃ d ∈ o.given, d ≠ st.computedSha256
  /-- Any other ready image is right. -/
  right : st.imageReady = true → o.refused = false → ∀ d ∈ o.given, d = st.computedSha256

/-- Whatever leaves these three fields alone leaves the relation. -/
theorem Originates.congr {o : Origin} {st st' : OtaStatus} (h : Originates o st)
    (hr : st'.imageReady = st.imageReady) (hp : st'.updateInProgress = st.updateInProgress)
    (hc : st'.computedSha256 = st.computedSha256) : Originates o st' := by
  obtain ⟨h1, h2, h3⟩ := h
  constructor
  · rw [hr, hp]; exact h1
  · rw [hr, hc]; exact h2
  · rw [hr, hc]; exact h3

/-- Nothing is ready, and nothing was refused. -/
theorem originates_notReady {given : Option Digest} {st : OtaStatus} (h : st.imageReady = false) :
    Originates ⟨given, false⟩ st where
  idle hr := absurd (h.symm.trans hr) Bool.false_ne_true
  wrong hr := absurd hr Bool.false_ne_true
  right hr := absurd (h.symm.trans hr) Bool.false_ne_true

/-- `ota abort` does nothing to a ready image. -/
theorem Originates.abort {o : Origin} {s : App} (h : Originates o s.ota.status) :
    Originates o (otaAbort s).1.ota.status := by
  cases hp : s.ota.status.updateInProgress with
  | false => rw [otaAbort_nothing hp]; exact h
  | true =>
    obtain ⟨-, hn⟩ := otaAbort_idle s hp
    have hready : s.ota.status.imageReady = false := by
      refine Bool.eq_false_of_not_eq_true fun hr => ?_
      rw [h.idle hr] at hp
      exact Bool.false_ne_true hp
    constructor
    · exact fun hr => absurd (hn.symm.trans hr) Bool.false_ne_true
    · exact fun hr => absurd (hready.symm.trans (h.wrong hr).1) Bool.false_ne_true
    · exact fun hr => absurd (hn.symm.trans hr) Bool.false_ne_true

/-- A download either changes nothing or is the origin of what it leaves. -/
theorem Originates.download {o : Origin} {s : App} (h : Originates o s.ota.status)
    (shaHex : Option (List UInt8)) (e : Outcomes) :
    Originates
      (if (cmdDownload shaHex e s).2.begun then
        ⟨(parseExpected shaHex).join, (cmdDownload shaHex e s).2 = .mismatch⟩ else o)
      (cmdDownload shaHex e s).1.ota.status := by
  rcases cmdDownload_cases shaHex e s with ⟨hb, ho⟩ | ⟨hb, hm, hr⟩ | ⟨expected, hx, hv, hr, hp⟩
  · rw [hb, if_neg Bool.false_ne_true, ho]; exact h
  · rw [hb, if_pos rfl, decide_eq_false hm]; exact originates_notReady hr
  · rw [hx, hv, verdict_ready hr]
    generalize (cmdDownload shaHex e s).1.ota.status = st at hr hp
    by_cases hall : ∀ d ∈ expected, d = st.computedSha256
    · rw [if_pos hall]
      show Originates ⟨expected, false⟩ st
      exact ⟨fun _ => hp, fun hr => absurd hr (by simp), fun _ _ => hall⟩
    · rw [if_neg hall]
      show Originates ⟨expected, true⟩ st
      refine ⟨fun _ => hp, fun _ => ⟨hr, ?_⟩, fun _ hr => absurd hr (by simp)⟩
      obtain ⟨d, hd⟩ := not_forall.mp hall
      obtain ⟨hmem, hne⟩ := Classical.not_imp.mp hd
      exact ⟨d, hmem, hne⟩

/-- `ota confirm` and the timer change the probation only. -/
theorem Originates.confirm {o : Origin} {s : App} (h : Originates o s.ota.status) (slot : Slot)
    (ok : Nat → Bool) : Originates o (otaConfirm slot ok s).ota.status := by
  by_cases hu : s.ota.status.Unconfirmed
  · rcases otaConfirm_cases slot ok hu with ⟨he, -⟩ | ⟨f, he, -⟩ | ⟨f, he, -⟩
    · rw [he]; exact h
    · rw [he]; exact h
    · rw [he]; exact h.congr rfl rfl rfl
  · rw [otaConfirm_nothing hu]; exact h

/-- **When `ota apply` reboots**, and what it has written then: a record that selects the
staging slot, with the digest in the status. -/
theorem cmdApply_cases (slot : Slot) (ok : Nat → Bool) (s : App) :
    (∃ rc f, cmdApply slot ok s = ({ s with flash := f }, .returned rc) ∧
      ¬ (s.ota.status.imageReady = true ∧ ok 0 = true ∧ ok 1 = true)) ∨
    (∃ f, cmdApply slot ok s = ({ s with flash := f }, .rebooted) ∧
      s.ota.status.imageReady = true ∧ ok 0 = true ∧ ok 1 = true ∧
      ∃ m, readMetadata f.image = some m ∧ m.activeSlot = s.ota.status.stagingSlot.byte ∧
        m.imageSha256.get s.ota.status.stagingSlot = s.ota.status.computedSha256) := by
  cases hr : s.ota.status.imageReady with
  | false =>
    unfold cmdApply
    rw [hr, if_pos Bool.false_ne_true]
    exact .inl ⟨_, s.flash, rfl, fun h => Bool.false_ne_true h.1⟩
  | true =>
    have hcmd : cmdApply slot ok s = match otaApply slot ok s with
        | (s, .returned _) => (s, .returned cliErrHardware)
        | (s, .rebooted) => (s, .rebooted) := by
      unfold cmdApply
      rw [if_neg (not_not.mpr hr)]
    rcases otaApply_cases slot ok hr with ⟨he, h0⟩ | ⟨f, he, h0, h1, -⟩ | ⟨f, he, h0, h1, hm, -⟩
    · rw [he] at hcmd
      exact .inl ⟨_, s.flash, hcmd, fun h => Bool.false_ne_true (h0.symm.trans h.2.1)⟩
    · rw [he] at hcmd
      exact .inl ⟨_, f, hcmd, fun h => Bool.false_ne_true (h1.symm.trans h.2.2)⟩
    · rw [he] at hcmd
      exact .inr ⟨f, hcmd, rfl, h0, h1, _, hm, rfl, PerSlot.get_set_self _ _ _⟩

/-! ## Runs -/

/-- The image of a running application comes from where its origin says. -/
def OriginInv (w : Updates) : Prop :=
  ∀ slot ota, w.board.cpu = .app slot ota → Originates w.origin ota.status

theorem Updates.step_eq {w w' : Updates} {e : UpdateEvent} (h : w.step e = some w') :
    boardAfter w.board e = some w'.board ∧ w'.origin = originAfter w e ∧
      w'.applied = appliedAfter w e := by
  obtain ⟨b, hb, rfl⟩ := Option.map_eq_some_iff.mp h
  exact ⟨hb, rfl, rfl⟩

/-- **What an event can leave on the processor**: no application, or one that has just come up,
or the one from before with what `ota_confirm` or a command has made of it. -/
theorem boardAfter_cases {b b' : Board} {e : UpdateEvent} (h : boardAfter b e = some b') :
    (∀ slot ota, b'.cpu ≠ .app slot ota) ∨
    (∃ ok slot, e = .init ok ∧
      b'.cpu = .app slot (otaInit slot ok ⟨b.flash, OtaState.zero⟩).ota) ∨
    (∃ ok slot ota, e = .autoConfirm ok ∧ b.cpu = .app slot ota ∧
      b'.cpu = .app slot (otaConfirm slot ok ⟨b.flash, ota⟩).ota) ∨
    (∃ argv out slot ota, e = .command argv out ∧ b.cpu = .app slot ota ∧
      b'.cpu = .app slot (handleOta slot argv out ⟨b.flash, ota⟩).1.ota) := by
  obtain ⟨f, cpu⟩ := b
  cases e with
  | reset =>
    obtain rfl := Option.some.inj h
    exact .inl fun slot ota => Cpu.noConfusion
  | boot power =>
    cases cpu with
    | started _ | app _ _ | bootsel => exact absurd h (by simp [boardAfter, Board.step])
    | bootloader =>
      -- an image that has been entered is not an application before `ota_init`
      obtain rfl := Option.some.inj h
      refine .inl fun slot ota hcpu => ?_
      dsimp only at hcpu
      cases hb : (main power f).2 with
      | jumped _ | bootsel | rebooted | powerLost =>
        rw [hb] at hcpu
        exact absurd hcpu (by simp [Cpu.afterBoot])
  | init ok =>
    cases cpu with
    | bootloader | app _ _ | bootsel => exact absurd h (by simp [boardAfter, Board.step])
    | started slot =>
      obtain rfl := Option.some.inj h
      exact .inr (.inl ⟨ok, slot, rfl, rfl⟩)
  | autoConfirm ok =>
    cases cpu with
    | bootloader | started _ | bootsel => exact absurd h (by simp [boardAfter, Board.step])
    | app slot ota =>
      obtain rfl := Option.some.inj h
      exact .inr (.inr (.inl ⟨ok, slot, ota, rfl, rfl, rfl⟩))
  | command argv out =>
    cases cpu with
    | bootloader | started _ | bootsel => exact absurd h (by simp [boardAfter])
    | app slot ota =>
      rcases ha : handleOta slot argv out ⟨f, ota⟩ with ⟨a, rc | _⟩
      · simp only [boardAfter, ha] at h
        obtain rfl := Option.some.inj h
        exact .inr (.inr (.inr ⟨argv, out, slot, ota, rfl, rfl, by rw [ha]⟩))
      · simp only [boardAfter, ha] at h
        obtain rfl := Option.some.inj h
        exact .inl fun slot ota => Cpu.noConfusion

/-- What a command leaves the application with. -/
theorem Originates.handle {w : Updates} {slot : Slot} {ota : OtaState}
    (hcpu : w.board.cpu = .app slot ota) (h : Originates w.origin ota.status)
    (argv : List (List UInt8)) (e : Outcomes) :
    Originates (originAfter w (.command argv e))
      (handleOta slot argv e ⟨w.board.flash, ota⟩).1.ota.status := by
  unfold originAfter handleOta
  dsimp only
  rw [hcpu]
  cases otaSub argv with
  | status | usage => exact h
  | abort => exact Originates.abort (s := ⟨w.board.flash, ota⟩) h
  | download shaHex => exact Originates.download (s := ⟨w.board.flash, ota⟩) h shaHex e
  | confirm =>
    show Originates _ (cmdConfirm _ _ _).1.ota.status
    unfold cmdConfirm
    by_cases hn : ¬ ota.status.pendingVerify = true ∧ ota.status.bootAttempts = 0
    · rw [if_pos hn]; exact h
    · rw [if_neg hn]
      exact Originates.confirm (s := ⟨w.board.flash, ota⟩) h slot e.flashOk
  -- `ota_apply` reads the status and leaves it alone
  | apply =>
    show Originates _ (cmdApply _ _ _).1.ota.status
    rcases cmdApply_cases slot e.flashOk ⟨w.board.flash, ota⟩ with ⟨rc, f, he, -⟩ | ⟨f, he, -⟩
    · rw [he]; exact h
    · rw [he]; exact h

theorem originInv_step {w w' : Updates} {e : UpdateEvent} (h : OriginInv w)
    (hs : w.step e = some w') : OriginInv w' := by
  obtain ⟨b', o', as'⟩ := w'
  obtain ⟨hb, rfl, -⟩ := Updates.step_eq hs
  intro slot ota hcpu
  dsimp only at hb hcpu ⊢
  rcases boardAfter_cases hb with hno | ⟨ok, slot', rfl, hc⟩ | ⟨ok, slot', ota', rfl, hold, hc⟩ |
    ⟨argv, out, slot', ota', rfl, hold, hc⟩
  · exact absurd hcpu (hno slot ota)
  all_goals obtain ⟨rfl, rfl⟩ := Cpu.app.inj (hc.symm.trans hcpu)
  -- nothing is staged when the application comes up
  · exact originates_notReady (otaInit_idle _ _ _).2
  · exact Originates.confirm (s := ⟨w.board.flash, ota'⟩) (h _ _ hold) slot' ok
  · exact (h _ _ hold).handle hold argv out

/-- It holds in every run, whatever is applied. -/
theorem originInv_reachable {ok : Updates → UpdateEvent → Prop} {w : Updates}
    (h : updates.ReachableWhen ok w) : OriginInv w :=
  h.inv (fun _ hi _ _ hcpu => absurd (hi.1.symm.trans hcpu) (by simp))
    (fun _ _ _ hw _ hs => originInv_step hw hs)

/-- An image that is ready to be applied is verified unless it was refused. -/
theorem Originates.verified_iff {o : Origin} {st : OtaStatus} (h : Originates o st)
    (hr : st.imageReady = true) : Applied.Verified ⟨st.computedSha256, o.given⟩ ↔
    o.refused = false := by
  constructor
  · intro hv
    refine Bool.eq_false_of_not_eq_true fun href => ?_
    obtain ⟨-, d, hd, hne⟩ := h.wrong href
    exact hne (hv d hd)
  · exact h.right hr

/-- **One step.** What has been applied stays verified exactly when the mismatch is heeded. -/
theorem applied_step {w w' : Updates} {e : UpdateEvent} (hw : OriginInv w)
    (h : ∀ a ∈ w.applied, a.Verified) (hs : w.step e = some w') :
    (∀ a ∈ w'.applied, a.Verified) ↔ Heeded w e := by
  obtain ⟨b', o', as'⟩ := w'
  obtain ⟨hb, -, rfl⟩ := Updates.step_eq hs
  dsimp only at hb ⊢
  cases e with
  | reset | boot _ | init _ | autoConfirm _ => exact ⟨fun _ => trivial, fun _ => h⟩
  | command argv out =>
    cases hc : w.board.cpu with
    | bootloader | started _ | bootsel => exact absurd hb (by simp [boardAfter, hc])
    | app slot ota =>
      unfold appliedAfter Heeded
      dsimp only
      rw [hc]
      cases hsub : otaSub argv with
      | status | abort | confirm | usage | download _ =>
        exact ⟨fun _ hno => absurd hno (by simp), fun _ => h⟩
      | apply =>
        dsimp only
        have ho := hw slot ota hc
        rcases cmdApply_cases slot out.flashOk ⟨w.board.flash, ota⟩ with
          ⟨rc, f, he, hno⟩ | ⟨f, he, hready, h0, h1, -⟩
        · -- nothing was written; if the flash is not to blame, nothing was ready
          rw [he, if_neg (by simp)]
          refine ⟨fun _ _ h0 h1 => Bool.eq_false_of_not_eq_true fun href => ?_, fun _ => h⟩
          exact hno ⟨(ho.wrong href).1, h0, h1⟩
        · rw [he, if_pos rfl]
          have hiff := ho.verified_iff hready
          constructor
          · exact fun hall _ _ _ => hiff.mp (hall _ (List.mem_cons_self ..))
          · intro hheed a ha
            rcases List.mem_cons.mp ha with rfl | ha
            · exact hiff.mpr (hheed rfl h0 h1)
            · exact h a ha

/-- **No image is applied whose digest was not the one asked for**, as long as the mismatch is
heeded, and the first `ota apply` that does not heed it applies one. -/
theorem mismatch_not_applied {w : Updates} (h : updates.ReachableWhen Heeded w) :
    (∀ a ∈ w.applied, a.Verified) ∧
    ∀ e w', updates.step w e w' → ((∀ a ∈ w'.applied, a.Verified) ↔ Heeded w e) := by
  have hall : ∀ a ∈ w.applied, a.Verified := by
    induction h with
    | init hi =>
      intro a ha
      rw [hi.2] at ha
      exact absurd ha List.not_mem_nil
    | tail hw hok hs ih => exact (applied_step (originInv_reachable hw) ih hs).mpr hok
  exact ⟨hall, fun e w' hs => applied_step (originInv_reachable h) hall hs⟩

/-! ## Downloads from the factory -/

/-- A board from the factory. -/
def factoryUpdates : Updates := ⟨factory.board, ⟨none, false⟩, []⟩

/-- `ota download <url> [sha256]`. -/
def downloadLine (shaHex : List (List UInt8)) : List (List UInt8) :=
  ascii "ota" :: ascii "download" :: ascii "http://h/i" :: shaHex

/-- `ota apply`. -/
def applyLine : List (List UInt8) := [ascii "ota", ascii "apply"]

theorem otaSub_downloadLine (shaHex : List (List UInt8)) :
    otaSub (downloadLine shaHex) = .download shaHex.head? := rfl

theorem otaSub_applyLine : otaSub applyLine = .apply := by decide +kernel

/-- The factory image comes up, and a download gets through: what `ota apply` would make of it. -/
theorem run_download {shaHex : List (List UInt8)} {expected : Option Digest}
    (hx : parseExpected shaHex.head? = some expected) {e : Outcomes} (he : e.Unfailing) :
    ∃ w w' c, updates.Runs Heeded factoryUpdates
        [.boot allOk, .init allOk, .command (downloadLine shaHex) e] w ∧
      c.1 = Fips180.sha256 e.body ∧
      w.origin.refused = decide (¬ ∀ d ∈ expected, d = c) ∧
      updates.step w (.command applyLine e) w' ∧ w'.applied = [⟨c, expected⟩] := by
  obtain ⟨-, hr₀, -⟩ := factory_init
  obtain ⟨f₁, he₁, hr₁, -⟩ := boot_noRecord hr₀ (bootable_programmed .a)
  -- the application comes up
  have hboot : updates.step factoryUpdates (.boot allOk) ⟨⟨f₁, .started .a⟩,
      ⟨none, false⟩, []⟩ := by
    show some (Updates.mk ⟨(main allOk factory.board.flash).1,
      .afterBoot (main allOk factory.board.flash).2⟩ _ _) = _
    rw [he₁]
    rfl
  obtain ⟨ota, hup, -, hidle, -⟩ := otaInit_up .a hr₁
  have hinit : updates.step ⟨⟨f₁, .started .a⟩, ⟨none, false⟩, []⟩ (.init allOk)
      ⟨⟨f₁, .app .a ota⟩, ⟨none, false⟩, []⟩ := by
    show (boardAfter _ _).map _ = _
    simp only [boardAfter, Board.step, hup, Option.map_some]
    rfl
  -- the download
  obtain ⟨s, hs, hready, hsha⟩ := cmdDownload_unfailing hx he (s := ⟨f₁, ota⟩) hidle
  have hget : updates.step ⟨⟨f₁, .app .a ota⟩, ⟨none, false⟩, []⟩ (.command (downloadLine shaHex) e)
      ⟨⟨s.flash, .app .a s.ota⟩, ⟨expected, verdict expected s = .mismatch⟩, []⟩ := by
    have hbegun : (verdict expected s).begun = true := by
      rw [verdict_ready hready]
      split <;> rfl
    show (boardAfter _ _).map _ = _
    simp only [boardAfter, handleOta, originAfter, appliedAfter,
      otaSub_downloadLine, hs, hx, hbegun, Option.map_some, if_true, Option.join_some]
  -- and what applying it would do
  rcases cmdApply_cases .a allOk s with ⟨rc, f, -, hno⟩ | ⟨f, ha, -⟩
  · exact absurd ⟨hready, rfl, rfl⟩ hno
  · have happly :
        updates.step ⟨⟨s.flash, .app .a s.ota⟩, ⟨expected, verdict expected s = .mismatch⟩, []⟩
        (.command applyLine e) ⟨⟨f, .bootloader⟩, ⟨expected, verdict expected s = .mismatch⟩,
          [⟨s.ota.status.computedSha256, expected⟩]⟩ := by
      show (boardAfter _ _).map _ = _
      simp only [boardAfter, handleOta, originAfter, appliedAfter, otaSub_applyLine, he.flash, ha,
        Option.map_some, if_true]
    refine ⟨_, _, _, .cons trivial hboot (.cons trivial hinit (.cons ?_ hget (.nil _))), hsha, ?_,
      happly, rfl⟩
    · intro hsub
      rw [otaSub_downloadLine] at hsub
      exact OtaSub.noConfusion hsub
    · dsimp only
      rw [verdict_ready hready]
      by_cases hall : ∀ d ∈ expected, d = s.ota.status.computedSha256
      · rw [if_pos hall, decide_eq_false (not_not.mpr hall)]; rfl
      · rw [if_neg hall, decide_eq_true hall]; rfl

/-- The image of the two runs. -/
def sentAbc : Outcomes where
  wifi := allOk
  flashOk := allOk
  chunks := [(⟨ascii "abc", by decide +kernel⟩, allOk)]
  httpOk := true
  flushOk := allOk

theorem sentAbc_body : sentAbc.body = [97, 98, 99] := by decide +kernel

theorem sentAbc_unfailing : sentAbc.Unfailing where
  wifi _ := rfl
  flash := rfl
  chunks c hc := by
    rw [List.mem_singleton.mp hc]
    exact ⟨by decide +kernel, rfl⟩
  fits := by rw [sentAbc_body]; exact Nat.le_of_ble_eq_true rfl
  http := rfl
  flush := rfl

/-- The digest of `abc`. -/
def abcDigest : Digest :=
  ⟨[0xba, 0x78, 0x16, 0xbf, 0x8f, 0x01, 0xcf, 0xea, 0x41, 0x41, 0x40, 0xde, 0x5d, 0xae, 0x22, 0x23,
    0xb0, 0x03, 0x61, 0xa3, 0x96, 0x17, 0x7a, 0x9c, 0xb4, 0x10, 0xff, 0x61, 0xf2, 0x00,
    0x15, 0xad], rfl⟩

theorem sentAbc_digest : Fips180.sha256 sentAbc.body = abcDigest.1 := by
  rw [sentAbc_body]; decide +kernel

def abcHex : List UInt8 := ascii "ba7816bf8f01cfea414140de5dae2223b00361a396177a9cb410ff61f20015ad"

theorem abcHex_digest : parseExpected (some abcHex) = some (some abcDigest) := by decide +kernel

/-- With its digest, the image is applied. -/
theorem abc_applied : ∃ w, updates.ReachableWhen Heeded w ∧ w.applied ≠ [] ∧
    ∀ a ∈ w.applied, a.Verified := by
  obtain ⟨w, w', c, hrun, hc, href, hs, happ⟩ :=
    @run_download [abcHex] _ abcHex_digest _ sentAbc_unfailing
  have hdc : abcDigest = c := Subtype.ext (sentAbc_digest.symm.trans hc.symm)
  have hreach := hrun.reachableWhen (.init ⟨rfl, rfl⟩)
  have hnot : w.origin.refused = false := by
    rw [href]
    refine decide_eq_false (not_not.mpr ?_)
    rintro d' ⟨⟩
    exact hdc
  have hheed : Heeded w (.command applyLine sentAbc) := fun _ _ _ => hnot
  have hreach' : updates.ReachableWhen Heeded w' := .tail hreach hheed hs
  exact ⟨w', hreach', by rw [happ]; simp, (mismatch_not_applied hreach').1⟩

/-- Sixty-four zeros. -/
def zeroHex : List UInt8 := List.replicate 64 48

theorem zeroHex_digest : parseExpected (some zeroHex) = some (some zeroDigest) := by decide +kernel

/-- Bring the board up, download `abc` asking for another digest, apply it. -/
def refusedRun : List UpdateEvent :=
  [.boot allOk, .init allOk, .command (downloadLine [zeroHex]) sentAbc, .command applyLine sentAbc]

/-- The image is applied all the same. -/
theorem abc_refused_applied : ∃ w, updates.Runs (fun _ _ => True) factoryUpdates refusedRun w ∧
    updates.Reachable w ∧ ¬ ∀ a ∈ w.applied, a.Verified := by
  obtain ⟨w, w', c, hrun, hc, -, hs, happ⟩ :=
    @run_download [zeroHex] _ zeroHex_digest _ sentAbc_unfailing
  have hall := (hrun.mono fun _ _ _ => trivial).append (.cons trivial hs (.nil _))
  refine ⟨w', hall, hall.reachableWhen (.init ⟨rfl, rfl⟩), fun hver => ?_⟩
  rw [happ] at hver
  have hzero : zeroDigest = c := hver _ (List.mem_singleton_self _) _ rfl
  have hne : abcDigest.1 ≠ zeroDigest.1 := by decide +kernel
  rw [hzero, hc, sentAbc_digest] at hne
  exact hne rfl

end PicoBLE.Cli
