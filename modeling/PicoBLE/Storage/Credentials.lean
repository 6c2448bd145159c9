import PicoBLE.Storage.Config

/-!
# Credentials that have been saved are loaded

`config_save_wifi` takes a buffer only if a string of an admissible length ends
in it, stores the string in zeros and checksums the record. `config_load_wifi`
forces a NUL at the end of each field, and a stored string is never long enough
for that to change it.
-/

namespace PicoBLE.Storage

open NorFlash Bytes
open PicoBLE.Ota (Flash flashPageSize flashSectorSize eraseRange picoOtaCrc32)

/-! ## Strings in buffers -/

/-- The buffer holds the string with its NUL, and something behind it. -/
def HoldsString (bs s : List UInt8) : Prop := 0 ∉ s ∧ ∃ rest, bs = s ++ 0 :: rest

theorem HoldsString.ofBuffer {bs s : List UInt8} (h : HoldsString bs s) :
    CString.ofBuffer bs = s := by
  obtain ⟨hnul, rest, rfl⟩ := h
  exact CString.ofBuffer_append hnul rest

/-- A buffer that is longer than the string `strnlen` finds in it has a NUL. -/
theorem holds_ofBuffer {bs : List UInt8} (h : (CString.ofBuffer bs).length < bs.length) :
    HoldsString bs (CString.ofBuffer bs) := by
  have hnul : 0 ∈ bs := by
    by_contra hno
    rw [CString.ofBuffer_eq hno] at h
    exact Nat.lt_irrefl _ h
  exact ⟨CString.ofBuffer_nul bs, CString.exists_ofBuffer hnul⟩

/-- A string that is shorter than its field ends in it. -/
theorem holds_zeroPadded {n : Nat} {s : List UInt8} (hnul : 0 ∉ s) (hlen : s.length < n) :
    HoldsString (zeroPadded n s).1 s := by
  obtain ⟨k, hk⟩ := Nat.exists_eq_succ_of_ne_zero (Nat.sub_ne_zero_of_lt hlen)
  refine ⟨hnul, List.replicate k 0, ?_⟩
  show s.take n ++ List.replicate (n - s.length) 0 = _
  rw [List.take_of_length_le (Nat.le_of_lt hlen), hk, List.replicate_succ]

/-- The buffer with a NUL in its last byte. -/
def Block.terminate {n : Nat} (b : Block (n + 1)) : Block (n + 1) :=
  ⟨b.1.take n ++ [0], by simp [b.2]⟩

/-- The NUL is there already. -/
theorem terminate_zeroPadded {n : Nat} {s : List UInt8} (hlen : s.length ≤ n) :
    (zeroPadded (n + 1) s).terminate = zeroPadded (n + 1) s := by
  refine Subtype.ext ?_
  show (s.take (n + 1) ++ List.replicate (n + 1 - s.length) 0).take n ++ [0] = _
  rw [List.take_of_length_le (Nat.le_succ_of_le hlen), Nat.succ_sub hlen, List.replicate_succ',
    ← List.append_assoc, List.take_left' (by rw [List.length_append, List.length_replicate]; omega)]
  show _ = s.take (n + 1) ++ List.replicate (n + 1 - s.length) 0
  rw [List.take_of_length_le (Nat.le_succ_of_le hlen), Nat.succ_sub hlen, List.replicate_succ',
    ← List.append_assoc]

/-- **What `config_save_wifi` takes**: two strings with their NULs, not empty and not too long. -/
theorem WifiCreds.Sound.strings {c : WifiCreds} (h : c.Sound) :
    HoldsString c.ssid.1 (CString.ofBuffer c.ssid.1) ∧
    HoldsString c.psk.1 (CString.ofBuffer c.psk.1) := by
  have hssid : (CString.ofBuffer c.ssid.1).length ≤ 32 := h.1.2
  have hpsk : (CString.ofBuffer c.psk.1).length ≤ 63 := h.2.2
  refine ⟨holds_ofBuffer ?_, holds_ofBuffer ?_⟩
  · rw [c.ssid.2]
    omega
  · rw [c.psk.2]
    omega

/-! ## The record and its bytes -/

/-- A field behind the header. -/
theorem ConfigRecord.field_strings (r : ConfigRecord) {off n : Nat} (h : 8 ≤ off) :
    field off n r.encode =
      field (off - 8) n (r.ssid.1 ++ (r.psk.1 ++ leBytes 4 r.crc32.toNat)) := by
  have hassoc : r.encode = leBytes 4 r.magic.toNat ++
      (leBytes 2 r.version.toNat ++ (leBytes 2 r.reserved.toNat ++
      (r.ssid.1 ++ (r.psk.1 ++ leBytes 4 r.crc32.toNat)))) := by
    simp only [encode, covered, List.append_assoc]
  rw [hassoc, field_skip (leBytes_length 4 _) (by omega),
    field_skip (leBytes_length 2 _) (by omega),
    field_skip (leBytes_length 2 _) (by omega), Nat.sub_sub, Nat.sub_sub]

/-- **A record survives its bytes.** -/
theorem ConfigRecord.decode_encode (r : ConfigRecord) (h : r.encode.length = configRecordSize) :
    ConfigRecord.decode r.encode h = r := by
  have hmagic : field 0 4 r.encode = leBytes 4 r.magic.toNat := by
    rw [encode, covered, List.append_assoc]
    exact field_here (leBytes_length 4 _)
  have hversion : field 4 2 r.encode = leBytes 2 r.version.toNat := by
    rw [encode, covered, List.append_assoc, field_skip (leBytes_length 4 _) (Nat.le_refl 4),
      List.append_assoc]
    exact field_here (leBytes_length 2 _)
  have hreserved : field 6 2 r.encode = leBytes 2 r.reserved.toNat := by
    rw [encode, covered, List.append_assoc, field_skip (leBytes_length 4 _) (by decide),
      List.append_assoc, field_skip (leBytes_length 2 _) (by decide), List.append_assoc]
    exact field_here (leBytes_length 2 _)
  have hssid : field 8 33 r.encode = r.ssid.1 := by
    rw [r.field_strings (Nat.le_refl 8)]
    exact field_here r.ssid.2
  have hpsk : field 41 64 r.encode = r.psk.1 := by
    rw [r.field_strings (by decide), field_skip r.ssid.2 (by decide)]
    exact field_here r.psk.2
  have hcrc : field 105 4 r.encode = leBytes 4 r.crc32.toNat := by
    rw [encode, field_skip r.covered_length (Nat.le_refl _)]
    exact field_last (leBytes_length 4 _)
  unfold decode
  simp only [hmagic, hversion, hreserved, hssid, hpsk, hcrc, ofNat_leBytes32, ofNat_leBytes16]

theorem ConfigRecord.page_length (r : ConfigRecord) : r.page.length = flashPageSize := by
  rw [page, List.length_append, r.encode_length, List.length_replicate]
  decide

/-! ## Saving and loading -/

/-- A refused save does nothing. -/
theorem configSaveWifi_refused {c : WifiCreds} (h : ¬ c.Sound) (ok : Nat → Bool) (f : Flash) :
    configSaveWifi ok (some c) f = (f, false) :=
  if_pos h

theorem configSaveWifi_sound {c : WifiCreds} (h : c.Sound) (ok : Nat → Bool) (f : Flash) :
    configSaveWifi ok (some c) f =
      writeRecord ok (configRecord (CString.ofBuffer c.ssid.1) (CString.ofBuffer c.psk.1)) f :=
  if_neg (not_not_intro h)

/-- A record that has been written is read. -/
theorem read_writeRecord {ok : Nat → Bool} {r : ConfigRecord} {f : Flash}
    (h : (writeRecord ok r f).2 = true) {g : Image}
    (hsame : read configSectorOffset flashSectorSize g =
      read configSectorOffset flashSectorSize (writeRecord ok r f).1.image) :
    read configSectorOffset configRecordSize g = r.encode := by
  have hfront := rewriteSector_front h (by rw [r.page_length]; decide) hsame
    (show configRecordSize ≤ r.page.length by rw [r.page_length]; decide)
  exact hfront.trans (List.take_left' r.encode_length)

/-- The loader takes the record that was built for two strings. -/
theorem configLoadWifi_record {ssid psk : List UInt8} {g : Image}
    (h : read configSectorOffset configRecordSize g = (configRecord ssid psk).encode)
    (hssid : ssid.length ≤ configSsidMaxlen) (hpsk : psk.length ≤ configPskMaxlen) :
    configLoadWifi g = some { ssid := zeroPadded 33 ssid, psk := zeroPadded 64 psk } := by
  have hdecode : ConfigRecord.decode (read configSectorOffset configRecordSize g)
      (read_length _ _ _) = configRecord ssid psk := by
    simp only [h, ConfigRecord.decode_encode]
  unfold configLoadWifi
  simp only [hdecode]
  rw [if_neg (fun hno => hno rfl), if_neg (fun hno => hno rfl), if_neg (fun hno => hno rfl)]
  exact congrArg₂ (fun s p => some (WifiCreds.mk s p)) (terminate_zeroPadded hssid)
    (terminate_zeroPadded hpsk)

/-- **What has been saved is loaded**, as long as the sector is left alone. -/
theorem configLoadWifi_saved {ok : Nat → Bool} {c : WifiCreds} {f : Flash}
    (h : (configSaveWifi ok (some c) f).2 = true) {g : Image}
    (hsame : read configSectorOffset flashSectorSize g =
      read configSectorOffset flashSectorSize (configSaveWifi ok (some c) f).1.image) :
    configLoadWifi g = some { ssid := zeroPadded 33 (CString.ofBuffer c.ssid.1)
                              psk := zeroPadded 64 (CString.ofBuffer c.psk.1) } := by
  by_cases hc : c.Sound
  · rw [configSaveWifi_sound hc] at h hsame
    exact configLoadWifi_record (read_writeRecord h hsame) hc.1.2 hc.2.2
  · rw [configSaveWifi_refused hc] at h
    exact absurd h Bool.false_ne_true

/-! ## The caller's structure -/

/-- `config_load_wifi`, with what is behind the pointer. -/
def configLoadWifiOut (out : Option WifiCreds) (f : Image) : Option WifiCreds × Bool :=
  match out with
  | none => (none, false)
  | some out =>
    let r := ConfigRecord.decode (read configSectorOffset configRecordSize f) (read_length _ _ _)
    if r.magic ≠ configMagic then (some out, false)
    else if r.version ≠ configVersion then (some out, false)
    else if picoOtaCrc32 r.covered ≠ r.crc32 then (some out, false)
    else
      -- a NUL at the end of each field, then one copy after the other
      let r := { r with ssid := r.ssid.terminate }
      let r := { r with psk := r.psk.terminate }
      let out := { out with ssid := r.ssid }
      let out := { out with psk := r.psk }
      (some out, true)

/-- The structure is written when there is something to load, and only then. -/
theorem configLoadWifiOut_cases (out : Option WifiCreds) (f : Image) :
    (∃ c, out.isSome ∧ configLoadWifi f = some c ∧ configLoadWifiOut out f = (some c, true)) ∨
      (out = none ∨ configLoadWifi f = none) ∧ configLoadWifiOut out f = (out, false) := by
  cases out with
  | none => exact .inr ⟨.inl rfl, rfl⟩
  | some out =>
    unfold configLoadWifi configLoadWifiOut
    dsimp only
    split
    · exact .inr ⟨.inr rfl, rfl⟩
    · split
      · exact .inr ⟨.inr rfl, rfl⟩
      · split
        · exact .inr ⟨.inr rfl, rfl⟩
        · exact .inl ⟨_, rfl, rfl, rfl⟩

theorem configLoadWifiOut_some {c : WifiCreds} {f : Image} (h : configLoadWifi f = some c)
    (out : WifiCreds) :
    configLoadWifiOut (some out) f = (some c, true) := by
  rcases configLoadWifiOut_cases (some out) f with ⟨got, -, hgot, he⟩ | ⟨hnone | hnone, -⟩
  · rw [he, Option.some.inj (h.symm.trans hgot)]
  · exact absurd hnone (by simp)
  · exact absurd (h.symm.trans hnone) (by simp)

theorem configLoadWifiOut_none {f : Image} (h : configLoadWifi f = none) (out : Option WifiCreds) :
    configLoadWifiOut out f = (out, false) := by
  rcases configLoadWifiOut_cases out f with ⟨got, -, hgot, -⟩ | ⟨-, he⟩
  · exact absurd (h.symm.trans hgot) (by simp)
  · exact he

/-- **Credentials survive saving and loading.** Only two strings with their NULs, of 1 to 32 and of
1 to 63 bytes, are written; what a save has written is loaded, whatever was in the flash before;
after a clear that has succeeded there is nothing to load; and a load that fails writes nothing. -/
theorem credentials_survive :
    (∀ ok c f, (configSaveWifi ok (some c) f).1 ≠ f → ∃ ssid psk,
      HoldsString c.ssid.1 ssid ∧ HoldsString c.psk.1 psk ∧
      1 ≤ ssid.length ∧ ssid.length ≤ configSsidMaxlen ∧ 1 ≤ psk.length ∧
      psk.length ≤ configPskMaxlen) ∧
    (∀ ok c f, (configSaveWifi ok (some c) f).2 = true → ∃ ssid psk,
      HoldsString c.ssid.1 ssid ∧ HoldsString c.psk.1 psk ∧
      ∀ g, read configSectorOffset flashSectorSize g =
          read configSectorOffset flashSectorSize (configSaveWifi ok (some c) f).1.image →
        ∀ out, ∃ got, configLoadWifiOut (some out) g = (some got, true) ∧
          HoldsString got.ssid.1 ssid ∧ HoldsString got.psk.1 psk) ∧
    (∀ ok f, (configClearWifi ok f).2 = true → ∀ g,
      read configSectorOffset flashSectorSize g =
        read configSectorOffset flashSectorSize (configClearWifi ok f).1.image →
      ∀ out, configLoadWifiOut out g = (out, false)) ∧
    ∀ out f, (configLoadWifiOut out f).2 = false → (configLoadWifiOut out f).1 = out := by
  refine ⟨fun ok c f hwrote => ?_, fun ok c f hsave => ?_, fun ok f hclear g hsame out => ?_,
    fun out f hno => ?_⟩
  · have hc : c.Sound := by
      by_contra hc
      exact hwrote (congrArg Prod.fst (configSaveWifi_refused hc ok f))
    obtain ⟨hssid, hpsk⟩ := hc.strings
    exact ⟨_, _, hssid, hpsk, Nat.pos_of_ne_zero hc.1.1, hc.1.2, Nat.pos_of_ne_zero hc.2.1, hc.2.2⟩
  · have hc : c.Sound := by
      by_contra hc
      rw [configSaveWifi_refused hc] at hsave
      exact Bool.false_ne_true hsave
    obtain ⟨hssid, hpsk⟩ := hc.strings
    refine ⟨_, _, hssid, hpsk, fun g hsame out => ?_⟩
    exact ⟨_, configLoadWifiOut_some (configLoadWifi_saved hsave hsame) out,
      holds_zeroPadded hssid.1 (Nat.lt_succ_of_le hc.1.2),
      holds_zeroPadded hpsk.1 (Nat.lt_succ_of_le hc.2.2)⟩
  · have hnone : configLoadWifi g = none := by
      cases ok with
      | false => exact absurd hclear Bool.false_ne_true
      | true => exact (configLoadWifi_congr hsame).trans (configLoadWifi_blank (erase_blank _ _ _))
    exact configLoadWifiOut_none hnone out
  · rcases configLoadWifiOut_cases out f with ⟨got, -, -, he⟩ | ⟨-, he⟩
    · rw [he] at hno
      exact absurd hno (by simp)
    · rw [he]

/-- A name as long as can be, and behind the NUL of the password something left over. -/
def barnWifi : WifiCreds where
  ssid := zeroPadded 33 (CString.ascii "barn-behind-the-second-windmill!")
  psk := ⟨CString.ascii "owl" ++ [0] ++ List.replicate 60 0x2A, by decide⟩

def barnFlash : Flash := (configSaveWifi (fun _ => true) (some barnWifi) ⟨fun _ => 0xFF, []⟩).1

/-- The two strings come back, and nothing does after a clear. -/
theorem barn_survives :
    (∃ got, configLoadWifiOut (some barnWifi) barnFlash.image = (some got, true) ∧
      CString.ofBuffer got.psk.1 = CString.ascii "owl") ∧
      configLoadWifiOut (some barnWifi) (configClearWifi true barnFlash).1.image =
        (some barnWifi, false) := by
  have hsave : (configSaveWifi (fun _ => true) (some barnWifi) ⟨fun _ => 0xFF, []⟩).2 = true := rfl
  obtain ⟨ssid, psk, -, hpsk, hload⟩ := credentials_survive.2.1 _ barnWifi _ hsave
  obtain ⟨got, he, -, hgot⟩ := hload barnFlash.image rfl barnWifi
  refine ⟨⟨got, he, ?_⟩, credentials_survive.2.2.1 true barnFlash rfl _ rfl _⟩
  rw [hgot.ofBuffer, ← hpsk.ofBuffer]
  decide

/-- A clear that could not get hold of the flash leaves the credentials. -/
theorem barn_kept :
    (configClearWifi false barnFlash).2 = false ∧
      (configLoadWifiOut (some barnWifi) (configClearWifi false barnFlash).1.image).2 = true := by
  refine ⟨rfl, ?_⟩
  have hload : configLoadWifi barnFlash.image = _ :=
    configLoadWifi_saved (g := barnFlash.image) rfl rfl
  exact congrArg Prod.snd (configLoadWifiOut_some hload barnWifi)

end PicoBLE.Storage
