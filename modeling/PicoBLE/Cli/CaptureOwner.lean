import PicoBLE.Cli.Effects

/-!
# Who owns the capture buffer

That a capture is in progress is written down twice: `g_cap_owner_taken` is the
global record and `capture_cb` the one in the shell that captures. The three
ways out of a capture that `capture_line_cb` has clear both. `cli_reset`, which
`cli_greet` calls, clears the second only, and a `script save` on a shell that
is never fed sets both for good.

* **O1.** If the buffer is taken, some shell captures.
* **O2.** A shell that captures has taken the buffer, and it still gets input.
* **O3.** Only one shell captures.

These hold in every run without those two kinds of step, and each such step
breaks them.
-/

namespace PicoBLE.Cli

open PicoBLE.Storage (scriptNameMax)

/-- The shell still receives input: BLE while a central is connected, USB always, and the one
for the bindings never. -/
def Fw.hears (fw : Fw) : Shell → Bool
  | .ble => fw.linkUp
  | .usb => true
  | .bg => false

/-- The two records agree. -/
def CaptureOwned (fw : Fw) : Prop :=
  fw.cap.ownerTaken = true ↔ ∃! sh, fw.hears sh = true ∧ (fw.ctx sh).capturing = true

/-- The shell in which a capture begins. -/
def Deed.begins : Deed → Option Shell
  | .begun sh _ => some sh
  | _ => none

/-- No shell is reset while it captures, and no capture begins in a shell without input. -/
def CaptureKept (m : Machine) (e : Event) : Prop :=
  (∀ sh ∈ m.resets e, (m.fw.ctx sh).capturing = false) ∧
    ∀ sh ∈ (m.deed e).begins, m.fw.hears sh = true

instance (m : Machine) (e : Event) : Decidable (CaptureKept m e) :=
  inferInstanceAs (Decidable (_ ∧ _))

/-! ## The invariant -/

structure OwnerInv (fw : Fw) : Prop where
  /-- O1 -/
  taken : fw.cap.ownerTaken = true → ∃ sh, (fw.ctx sh).capturing = true
  /-- O2 -/
  owner : ∀ sh, (fw.ctx sh).capturing = true → fw.cap.ownerTaken = true ∧ fw.hears sh = true
  /-- O3 -/
  single : ∀ sh sh', (fw.ctx sh).capturing = true → (fw.ctx sh').capturing = true → sh = sh'

theorem OwnerInv.owned {fw : Fw} (h : OwnerInv fw) : CaptureOwned fw := by
  constructor
  · intro ht
    obtain ⟨sh, hsh⟩ := h.taken ht
    exact ⟨sh, ⟨(h.owner sh hsh).2, hsh⟩, fun sh' hsh' => h.single sh' sh hsh'.2 hsh⟩
  · rintro ⟨sh, ⟨-, hsh⟩, -⟩
    exact (h.owner sh hsh).1

/-- The same shells capture, and they can be heard as before. -/
structure SameOwner (fw fw' : Fw) : Prop where
  linkUp : fw'.linkUp = fw.linkUp
  taken : fw'.cap.ownerTaken = fw.cap.ownerTaken
  capturing : ∀ sh, (fw'.ctx sh).capturing = (fw.ctx sh).capturing

theorem SameOwner.refl (fw : Fw) : SameOwner fw fw := ⟨rfl, rfl, fun _ => rfl⟩

theorem Quiet.sameOwner {fw fw' : Fw} (h : Quiet fw fw') : SameOwner fw fw' :=
  ⟨h.linkUp, by rw [h.cap], h.capturing⟩

theorem hears_congr {fw fw' : Fw} (h : fw'.linkUp = fw.linkUp) (sh : Shell) :
    fw'.hears sh = fw.hears sh := by
  cases sh with
  | ble => exact h
  | usb => rfl
  | bg => rfl

theorem OwnerInv.congr {fw fw' : Fw} (h : OwnerInv fw) (hs : SameOwner fw fw') : OwnerInv fw' := by
  refine ⟨fun ht => ?_, fun sh hsh => ?_, fun sh sh' hsh hsh' => ?_⟩
  · rw [hs.taken] at ht
    obtain ⟨sh, hsh⟩ := h.taken ht
    exact ⟨sh, (hs.capturing sh).trans hsh⟩
  · rw [hs.capturing sh] at hsh
    rw [hs.taken, hears_congr hs.linkUp]
    exact h.owner sh hsh
  · rw [hs.capturing sh] at hsh
    rw [hs.capturing sh'] at hsh'
    exact h.single sh sh' hsh hsh'

theorem ownerInv_boot (flash : PicoBLE.Ota.Flash) : OwnerInv (Fw.boot flash) := by
  refine ⟨fun ht => ?_, fun sh hsh => ?_, fun sh _ hsh => ?_⟩
  · exact absurd ht Bool.false_ne_true
  · exact absurd hsh Bool.false_ne_true
  · exact absurd hsh Bool.false_ne_true

/-! ## The ways in and out -/

/-- The only shell that captures does not any more. -/
theorem endCapture_idle {fw : Fw} {sh : Shell}
    (hsingle : ∀ other, (fw.ctx other).capturing = true → other = sh) (other : Shell) :
    ((fw.endCapture sh).ctx other).capturing = false := by
  by_cases heq : other = sh
  · rw [heq]
    exact congrArg CliCtx.capturing (Fw.setCtx_self fw sh _)
  · have hsame : (fw.endCapture sh).ctx other = fw.ctx other := Fw.setCtx_of_ne fw _ heq
    rw [hsame]
    cases hother : (fw.ctx other).capturing with
    | false => rfl
    | true => exact absurd (hsingle other hother) heq

/-- The capture's own ways out clear both records. -/
theorem OwnerInv.endCapture {fw : Fw} (h : OwnerInv fw) {sh : Shell}
    (hsh : (fw.ctx sh).capturing = true) : OwnerInv (fw.endCapture sh) := by
  have hnone := @endCapture_idle fw sh fun other hother => h.single other sh hother hsh
  refine ⟨fun ht => absurd ht Bool.false_ne_true, fun other hother => ?_, fun other _ hother => ?_⟩
  · exact absurd ((hnone other).symm.trans hother) Bool.false_ne_true
  · exact absurd ((hnone other).symm.trans hother) Bool.false_ne_true

theorem OwnerInv.captureLineCb {fw : Fw} (h : OwnerInv fw) {sh : Shell}
    (hsh : (fw.ctx sh).capturing = true) (t : Tick) (line : List UInt8) :
    OwnerInv (captureLineCb t sh line fw) := by
  rcases captureLineCb_cases t sh line fw with ⟨-, he⟩ | ⟨-, he⟩ | ⟨-, -, he⟩
  · have hflash : ∀ flash, OwnerInv { fw with flash := flash } :=
      fun _ => h.congr ⟨rfl, rfl, fun _ => rfl⟩
    rw [he]
    exact (hflash _).endCapture hsh
  · rw [he]
    exact h.endCapture hsh
  · rw [he]
    exact h.congr ⟨rfl, rfl, fun _ => rfl⟩

theorem saveRefused_taken {fw : Fw} {name : List UInt8} (h : saveRefused fw name = false) :
    fw.cap.ownerTaken = false := by
  rw [saveRefused, Bool.or_eq_false_iff] at h
  exact h.1

/-- While nobody owns the buffer, nobody captures. -/
theorem OwnerInv.idle {fw : Fw} (h : OwnerInv fw) (ht : fw.cap.ownerTaken = false) (sh : Shell) :
    (fw.ctx sh).capturing = false := by
  cases hsh : (fw.ctx sh).capturing with
  | false => rfl
  | true => exact absurd (ht.symm.trans (h.owner sh hsh).1) Bool.false_ne_true

/-- A shell captures once a capture has begun in it, and no other does. -/
theorem beginCapture_only {fw : Fw} (hidle : ∀ sh, (fw.ctx sh).capturing = false)
    (name : List UInt8) (sh other : Shell) : ((fw.beginCapture sh name).ctx other).capturing =
      true ↔ other = sh := by
  by_cases heq : other = sh
  · rw [heq]
    exact ⟨fun _ => rfl, fun _ => congrArg CliCtx.capturing (Fw.setCtx_self fw sh _)⟩
  · have hsame : (fw.beginCapture sh name).ctx other = fw.ctx other := Fw.setCtx_of_ne fw _ heq
    rw [hsame, hidle]
    exact ⟨fun hf => absurd hf Bool.false_ne_true, fun he => absurd he heq⟩

theorem OwnerInv.begun {fw : Fw} (h : OwnerInv fw) {name : List UInt8}
    (hgo : saveRefused fw name = false) (sh other : Shell) :
    ((fw.beginCapture sh name).ctx other).capturing = true ↔ other = sh :=
  beginCapture_only (h.idle (saveRefused_taken hgo)) name sh other

theorem OwnerInv.beginCapture {fw : Fw} (h : OwnerInv fw) {name : List UInt8}
    (hgo : saveRefused fw name = false) {sh : Shell} (hears : fw.hears sh = true) :
    OwnerInv (fw.beginCapture sh name) := by
  refine ⟨fun _ => ⟨sh, (h.begun hgo sh sh).mpr rfl⟩, fun other hother => ?_,
    fun other other' hother hother' => ?_⟩
  · rw [(h.begun hgo sh other).mp hother]
    exact ⟨rfl, (hears_congr rfl sh).trans hears⟩
  · exact ((h.begun hgo sh other).mp hother).trans ((h.begun hgo sh other').mp hother').symm

/-- A shell that does not capture can be reset. -/
theorem sameOwner_reset {fw : Fw} {sh : Shell} (h : (fw.ctx sh).capturing = false) :
    SameOwner fw (fw.setCtx sh (cliReset (fw.ctx sh))) :=
  (quiet_setCtx fw (c := cliReset (fw.ctx sh)) h.symm).sameOwner

/-! ## Every step -/

/-- **A step that meets the condition keeps the invariant.** -/
theorem ownerInv_step {m m' : Machine} {e : Event} (h : OwnerInv m.fw) (hk : CaptureKept m e)
    (hs : m.step e = some m') : OwnerInv m'.fw := by
  obtain ⟨hreset, hsave⟩ := hk
  cases step_cases hs with
  | tick hstack hrun =>
    cases runFrame_effect hrun with
    | quiet _ _ hq _ => exact h.congr hq.sameOwner
    | captured _ _ hcap hq he _ =>
      rw [Ran.resume, he]
      exact (h.congr hq.sameOwner).captureLineCb ((hq.capturing _).trans hcap) _ _
    | begun _ hdeed hgo he _ =>
      rw [Ran.resume, he]
      exact h.beginCapture hgo (hsave _ (by rw [deed_tick _ hstack, hdeed]; rfl))
    | removed _ _ he _ => rw [Ran.resume, he]; exact h.congr ⟨rfl, rfl, fun _ => rfl⟩
    | fetching _ _ _ he _ => rw [Ran.resume, he]; exact h.congr ⟨rfl, rfl, fun _ => rfl⟩
    | opened _ _ _ _ _ he _ => rw [Ran.resume, he]; exact h.congr ⟨rfl, rfl, fun _ => rfl⟩
    | read _ _ hq _ => exact h.congr hq.sameOwner
    | closed _ _ he _ => rw [Ran.resume, he]; exact h.congr ⟨rfl, rfl, fun _ => rfl⟩
  | linkUp =>
    -- the BLE shell can be heard from now on, which only helps
    refine ⟨h.taken, fun sh hsh => ⟨(h.owner sh hsh).1, ?_⟩, h.single⟩
    cases sh with
    | ble => rfl
    | usb => rfl
    | bg => exact (h.owner .bg hsh).2
  | subscribe => exact h.congr (sameOwner_reset (hreset .ble rfl))
  | linkDown =>
    have hble := hreset .ble rfl
    have hinv : OwnerInv (m.fw.setCtx .ble (cliReset (m.fw.ctx .ble))) :=
      h.congr (sameOwner_reset hble)
    refine ⟨hinv.taken, fun sh hsh => ⟨(hinv.owner sh hsh).1, ?_⟩, hinv.single⟩
    cases sh with
    | ble =>
      exact absurd ((congrArg CliCtx.capturing (Fw.setCtx_self m.fw _ _)).symm.trans hsh)
        Bool.false_ne_true
    | usb => rfl
    | bg => exact absurd (hinv.owner .bg hsh).2 Bool.false_ne_true
  | rx _ => exact h
  | usb _ => exact h
  | usbFirst hgreeted =>
    have husb := hreset .usb (by rw [Machine.resets, hgreeted]; rfl)
    exact h.congr ⟨rfl, rfl, (sameOwner_reset husb).capturing⟩
  | fire _ => exact h.congr (quiet_dispatchLine _ _ _).sameOwner
  | @chunk data _ _ _ _ =>
    obtain ⟨buf, fetches, hfw⟩ := fetchChunk_fw data m.fw
    rw [hfw]
    exact h.congr ⟨rfl, rfl, fun _ => rfl⟩
  | @chunkBelow data _ _ _ _ _ _ =>
    obtain ⟨buf, fetches, hfw⟩ := fetchChunk_fw data m.fw
    rw [hfw]
    exact h.congr ⟨rfl, rfl, fun _ => rfl⟩
  | @httpDone t ok name _ _ _ =>
    obtain ⟨flash, rc, hdone⟩ := fetchDone_fw t ok name m.fw
    rw [hdone]
    exact h.congr ⟨rfl, rfl, fun _ => rfl⟩
  | httpGet _ => exact h
  | leafDone _ => exact h
  | elsewhere _ => exact h.congr ⟨rfl, rfl, fun _ => rfl⟩

/-- A frame that begins a capture was not refused, and does nothing else. -/
theorem runFrame_begins {t : Tick} {f : Frame} {fw : Fw} {r : Ran}
    (hrun : Effect t f fw r) {sh : Shell} (h : (f.deed t fw).begins = some sh) :
    ∃ name, saveRefused fw name = false ∧ r.fw = fw.beginCapture sh name := by
  cases hrun with
  | @begun sh' name _ hdeed hgo he _ =>
    rw [hdeed] at h
    obtain rfl : sh' = sh := Option.some.inj h
    exact ⟨_, hgo, he⟩
  | quiet _ hdeed | captured _ hdeed | removed _ hdeed | fetching _ hdeed | opened _ hdeed =>
    rw [hdeed] at h
    exact absurd h (by simp [Deed.begins])
  | read hf =>
    rw [hf] at h
    exact nomatch h
  | closed hf =>
    rw [hf] at h
    exact nomatch h

/-- **A step that does not meet it breaks the invariant**: the buffer is taken, and no shell
that can be heard captures. -/
theorem kept_of_owned {m m' : Machine} {e : Event} (h : OwnerInv m.fw) (hs : m.step e = some m')
    (ho : CaptureOwned m'.fw) : CaptureKept m e := by
  refine ⟨fun sh hsh => ?_, fun sh hsh => ?_⟩
  · cases hcap : (m.fw.ctx sh).capturing with
    | false => rfl
    | true =>
      -- reset while capturing: the shell no longer captures, and no other did
      have htaken := (h.owner sh hcap).1
      have hgone : ∀ fw' : Fw, fw'.cap = m.fw.cap →
          fw'.ctx = (m.fw.setCtx sh (cliReset (m.fw.ctx sh))).ctx → ¬ CaptureOwned fw' := by
        intro fw' hc hx ho
        obtain ⟨sh', ⟨-, hsh'⟩, -⟩ := ho.mp (by rw [hc]; exact htaken)
        rw [hx] at hsh'
        by_cases heq : sh' = sh
        · rw [heq, Fw.setCtx_self] at hsh'
          exact Bool.false_ne_true hsh'
        · rw [Fw.setCtx_of_ne _ _ heq] at hsh'
          exact heq (h.single _ _ hsh' hcap)
      cases step_cases hs with
      | subscribe _ =>
        obtain rfl : Shell.ble = sh := Option.some.inj hsh
        exact absurd ho (hgone _ rfl rfl)
      | linkDown =>
        obtain rfl : Shell.ble = sh := Option.some.inj hsh
        exact absurd ho (hgone _ rfl rfl)
      | usbFirst hgreeted =>
        rw [Machine.resets, hgreeted] at hsh
        obtain rfl : Shell.usb = sh := Option.some.inj hsh
        exact absurd ho (hgone _ rfl rfl)
      | usb hgreeted => rw [Machine.resets, hgreeted] at hsh; exact absurd hsh (by simp)
      | _ => exact absurd hsh (by simp [Machine.resets])
  · cases step_cases hs with
    | @tick t f below r hstack hrun =>
      -- begun in a shell that cannot be heard: it is the only one that captures
      rw [deed_tick _ hstack] at hsh
      obtain ⟨name, hgo, he⟩ := runFrame_begins (runFrame_effect hrun) hsh
      rw [Ran.resume, he] at ho
      obtain ⟨sh', ⟨hears, hsh'⟩, -⟩ := ho.mp rfl
      rw [(h.begun hgo sh sh').mp hsh'] at hears
      exact (hears_congr rfl sh).symm.trans hears
    | _ => exact absurd hsh (by simp [Machine.deed, Deed.begins])

theorem ownerInv_reachable {m : Machine} (h : machine.ReachableWhen CaptureKept m) :
    OwnerInv m.fw := by
  refine h.inv ?_ fun _ _ _ hinv hk hs => ownerInv_step hinv hk hs
  rintro _ ⟨flash, rfl⟩
  exact ownerInv_boot flash

/-- **The two records of a capture agree as long as no shell is reset while it captures** and
no capture begins in a shell that gets no input. Then, while no shell that can be heard
captures, neither `script save` nor `script fetch` is refused as busy. A step that does
not meet the condition makes the records disagree. -/
theorem capture_owned {m : Machine} (h : machine.ReachableWhen CaptureKept m) :
    CaptureOwned m.fw ∧
    ((∀ sh, m.fw.hears sh = true → (m.fw.ctx sh).capturing = false) →
      (∀ name, name.length ≤ scriptNameMax → saveRefused m.fw name = false) ∧
      ∀ t name, t.wifiUp = true → (m.fw.str name).length ≤ scriptNameMax →
        (cmdFetch t name m.fw).push = [.fetch name]) ∧
    ∀ e m', m.step e = some m' → (CaptureOwned m'.fw ↔ CaptureKept m e) := by
  have hinv := ownerInv_reachable h
  refine ⟨hinv.owned, fun hidle => ?_, fun e m' hs => ?_⟩
  · have hfree : m.fw.cap.ownerTaken = false := by
      cases ht : m.fw.cap.ownerTaken with
      | false => rfl
      | true =>
        obtain ⟨sh, hsh⟩ := hinv.taken ht
        exact absurd ((hidle sh (hinv.owner sh hsh).2).symm.trans hsh) Bool.false_ne_true
    refine ⟨fun name hname => ?_, fun t name hwifi hname => ?_⟩
    · rw [saveRefused, hfree, Bool.false_or, decide_eq_false_iff_not]
      exact Nat.not_lt.mpr hname
    · have hgo : fetchRefused t m.fw (m.fw.str name) = false := by
        rw [fetchRefused, hwifi, hfree]
        simpa using hname
      rw [cmdFetch, if_neg (by rw [hgo]; exact Bool.false_ne_true)]
      rfl
  · exact ⟨kept_of_owned hinv hs, fun hk => (ownerInv_step hinv hk hs).owned⟩

/-! ## A connection that is lost -/

/-- A central connects, subscribes and writes `script save lamp`; the shell enters capture mode. -/
def savingLamp : List Event :=
  [.linkUp, .subscribe, .rx (CString.ascii "script save lamp")] ++ List.replicate 22 (.tick calm)

/-- What there is to see of a capture. -/
def Machine.captureView (m : Machine) : Bool × Bool × Bool × Bool × Bool :=
  (m.stack.isEmpty, m.fw.cap.ownerTaken, (m.fw.ctx .ble).capturing, (m.fw.ctx .usb).capturing,
    (m.fw.ctx .bg).capturing)

theorem savingLamp_owned :
    ∃ m, LTS.exec Machine.step CaptureKept (Machine.boot erased) savingLamp = some m ∧
      CaptureOwned m.fw ∧
      ((∀ sh, m.fw.hears sh = true → (m.fw.ctx sh).capturing = false) →
        (∀ name, name.length ≤ scriptNameMax → saveRefused m.fw name = false) ∧
        ∀ t name, t.wifiUp = true → (m.fw.str name).length ≤ scriptNameMax →
          (cmdFetch t name m.fw).push = [.fetch name]) ∧
      ∀ e m', m.step e = some m' → (CaptureOwned m'.fw ↔ CaptureKept m e) := by
  obtain ⟨m, hm⟩ := Option.isSome_iff_exists.mp
    (show (LTS.exec Machine.step CaptureKept (Machine.boot erased) savingLamp).isSome = true by
      decide +kernel)
  exact ⟨m, hm, capture_owned ((LTS.runs_exec hm).reachableWhen (.init ⟨erased, rfl⟩))⟩

/-- The central goes, another one comes: the buffer is still taken, nobody captures, and the
next `script save` is refused. -/
theorem savingLamp_lost : ∃ m, machine.Reachable m ∧ m.stack = [] ∧ ¬ CaptureOwned m.fw ∧
    saveRefused m.fw (CString.ascii "lamp") = true := by
  have hrun : (LTS.exec Machine.step (fun _ _ => True) (Machine.boot erased)
      (savingLamp ++ [.linkDown, .linkUp, .subscribe])).map Machine.captureView
      = some (true, true, false, false, false) := by decide +kernel
  obtain ⟨m, hm, hview⟩ := Option.map_eq_some_iff.mp hrun
  simp only [Machine.captureView, Prod.mk.injEq] at hview
  obtain ⟨hstack, htaken, hble, husb, hbg⟩ := hview
  refine ⟨m, (LTS.runs_exec hm).reachableWhen (.init ⟨erased, rfl⟩),
    List.isEmpty_iff.mp hstack, ?_, ?_⟩
  · intro ho
    obtain ⟨sh, ⟨-, hsh⟩, -⟩ := ho.mp htaken
    cases sh with
    | ble => exact Bool.false_ne_true (hble.symm.trans hsh)
    | usb => exact Bool.false_ne_true (husb.symm.trans hsh)
    | bg => exact Bool.false_ne_true (hbg.symm.trans hsh)
  · rw [saveRefused, htaken]
    rfl

end PicoBLE.Cli
