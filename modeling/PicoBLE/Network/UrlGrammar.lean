import PicoBLE.Lib.Strtoul
import PicoBLE.Network.HttpGet

/-!
# What `parse_url` accepts

`"http://" host [":" port] [path]`. The host ends at the first colon or slash,
so there is one way to take a URL apart. The port is what `strtoul` makes of
the text behind the colon: decimal digits, and also a number with blanks or a
sign in front of it.
-/

namespace PicoBLE.Network

open CString (Numeral ascii isDigit decimal strtoul)

variable {κ : Type}

/-! ## The grammar -/

/-- 1 to 63 characters other than `:` and `/`. -/
def IsHost (host : List UInt8) : Prop := 1 ≤ host.length ∧ host.length ≤ 63 ∧
    ∀ c ∈ host, c ≠ 58 ∧ c ≠ 47

/-- A colon and decimal digits, for a port of 1 to 65535, or nothing. -/
def IsPort (text : List UInt8) (port : Nat) : Prop :=
  text = [] ∧ port = 80 ∨
    ∃ ds, text = 58 :: ds ∧ (∀ d ∈ ds, isDigit d = true) ∧ port = decimal ds ∧
      1 ≤ port ∧ port ≤ 65535

/-- A slash and what follows it, of fewer than 128 characters, or nothing. -/
def IsPath (text path : List UInt8) : Prop :=
  text = [] ∧ path = ascii "/" ∨ text.head? = some 47 ∧ text.length < 128 ∧ path = text

/-- A URL, with its parts. -/
def IsUrl (url host : List UInt8) (port : Nat) (path : List UInt8) : Prop :=
  ∃ portText pathText, url = ascii "http://" ++ (host ++ (portText ++ pathText)) ∧ IsHost host ∧
    IsPort portText port ∧ IsPath pathText path

/-- Something like a URL, with blanks or a sign in front of a port that is from 1 to 65535 as an
`unsigned long`. -/
def LedPort (url : List UInt8) : Prop :=
  ∃ (host : List UInt8) (n : Numeral) (pathText path : List UInt8), n.lead ≠ [] ∧
    url = ascii "http://" ++ (host ++ (58 :: n.text ++ pathText)) ∧ IsHost host ∧
    1 ≤ n.value ∧ n.value ≤ 65535 ∧ IsPath pathText path

/-- The parser takes URLs and nothing else, and stores their parts. -/
def AcceptsUrl (url : List UInt8) (ctx : Ctx κ) : Prop :=
  (∃ host port path, IsUrl url host port path ∧
      parseUrl (some url) ctx = ({ ctx with host := host, port := port, path := path }, true)) ∨
    (∀ host port path, ¬ IsUrl url host port path) ∧ (parseUrl (some url) ctx).2 = false

/-! ## The parts -/

theorem drop_scheme (p : List UInt8) : (ascii "http://" ++ p).drop 7 = p :=
  List.drop_left' (by decide)

/-- A host goes up to the first colon or slash. -/
theorem host_split {host rest : List UInt8} (hh : ∀ c ∈ host, c ≠ 58 ∧ c ≠ 47)
    (hr : ∀ c ∈ rest.head?, c = 58 ∨ c = 47) :
    ((host ++ rest).takeWhile fun c => c ≠ 58 ∧ c ≠ 47) = host := by
  rw [List.takeWhile_append_of_pos fun c hc => decide_eq_true (hh c hc)]
  cases rest with
  | nil => exact List.append_nil host
  | cons c rest =>
    have hc : ¬ (c ≠ 58 ∧ c ≠ 47) := fun h => (hr c rfl).elim h.1 h.2
    rw [List.takeWhile_cons_of_neg (by rw [decide_eq_false hc]; exact Bool.false_ne_true),
      List.append_nil]

theorem IsPath.head {text path : List UInt8} (h : IsPath text path) : ∀ c ∈ text.head?, c = 47 := by
  intro c hc
  rcases h with ⟨rfl, -⟩ | ⟨hslash, -⟩
  · exact absurd hc (by simp)
  · exact Option.some.inj (hc.symm.trans hslash)

/-- A path does not go on with a port. -/
theorem IsPath.stops {text path : List UInt8} (h : IsPath text path) :
    ∀ c ∈ text.head?, isDigit c = false := by
  intro c hc
  obtain rfl := h.head c hc
  decide

theorem parsePath_iff (text : List UInt8) (ctx c : Ctx κ) :
    parsePath text ctx = (c, true) ↔ ∃ path, IsPath text path ∧ c = { ctx with path := path } := by
  unfold parsePath
  constructor
  · intro h
    split at h
    · exact ⟨_, .inl ⟨rfl, rfl⟩, (Prod.mk.inj h).1.symm⟩
    · split at h
      · exact absurd (Prod.mk.inj h).2 Bool.false_ne_true
      · next hlen => exact ⟨_, .inr ⟨rfl, Nat.lt_of_not_le hlen, rfl⟩, (Prod.mk.inj h).1.symm⟩
    · exact absurd (Prod.mk.inj h).2 Bool.false_ne_true
  · rintro ⟨path, ⟨rfl, rfl⟩ | ⟨hslash, hlen, rfl⟩, rfl⟩
    · rfl
    · obtain ⟨rest, rfl⟩ := List.head?_eq_some_iff.mp hslash
      exact if_neg (Nat.not_le_of_lt hlen)

/-! ## What the parser takes -/

/-- The port as `strtoul` reads it. -/
def ReadPort (text : List UInt8) (port : Nat) : Prop :=
  text = [] ∧ port = 80 ∨
    ∃ n : Numeral, text = 58 :: n.text ∧ port = n.value ∧ 1 ≤ port ∧ port ≤ 65535

/-- What has been accepted is a host, a port as `strtoul` reads it, and a path. -/
theorem parseUrl_reads {url : List UInt8} {ctx c : Ctx κ}
    (h : parseUrl (some url) ctx = (c, true)) :
    ∃ host portText port pathText path, url = ascii "http://" ++ (host ++ (portText ++ pathText)) ∧
    IsHost host ∧
      ReadPort portText port ∧ IsPath pathText path ∧
      c = { ctx with host := host, port := port, path := path } := by
  rw [parseUrl] at h
  split at h
  · next hscheme =>
    obtain ⟨p, rfl⟩ := hscheme
    rw [drop_scheme] at h
    dsimp only at h
    generalize hhost : (p.takeWhile fun c => c ≠ 58 ∧ c ≠ 47) = host at h
    have hchars : ∀ c ∈ host, c ≠ 58 ∧ c ≠ 47 := by
      intro c hc
      rw [← hhost] at hc
      simpa using List.mem_takeWhile_imp hc
    have hp : p = host ++ p.drop host.length := by
      rw [← hhost]
      exact List.prefix_append_drop (List.takeWhile_prefix _)
    split at h
    · exact absurd (Prod.mk.inj h).2 Bool.false_ne_true
    · next hlen =>
      obtain ⟨hne, hmax⟩ := not_or.mp hlen
      have hishost : IsHost host :=
        ⟨Nat.one_le_iff_ne_zero.mpr hne, Nat.le_of_lt_succ (Nat.lt_of_not_le hmax), hchars⟩
      split at h
      · next q hq =>
        split at h
        · exact absurd (Prod.mk.inj h).2 Bool.false_ne_true
        · next hrange =>
          obtain ⟨hpos, hle⟩ := not_or.mp hrange
          have hnum : CString.hasNumber q = true := by
            cases hnum : CString.hasNumber q with
            | true => rfl
            | false => exact absurd (CString.strtoul_eq_zero hnum) hpos
          obtain ⟨n, r, rfl, -, hread⟩ := CString.strtoul_reads hnum
          rw [hread] at h hpos hle
          obtain ⟨path, hpath, rfl⟩ := (parsePath_iff _ _ _).mp h
          refine ⟨host, 58 :: n.text, n.value, r, path, ?_, hishost, ?_, hpath, rfl⟩
          · rw [hp, hq, List.cons_append]
          · exact .inr ⟨n, rfl, rfl, Nat.one_le_iff_ne_zero.mpr hpos, Nat.le_of_not_lt hle⟩
      · obtain ⟨path, hpath, rfl⟩ := (parsePath_iff _ _ _).mp h
        refine ⟨host, [], 80, p.drop host.length, path, ?_, hishost, .inl ⟨rfl, rfl⟩, hpath, rfl⟩
        rw [List.nil_append, ← hp]
  · exact absurd (Prod.mk.inj h).2 Bool.false_ne_true

/-- And such a URL is accepted. -/
theorem parseUrl_accepts {host portText pathText path : List UInt8} {port : Nat} (ctx : Ctx κ)
    (hhost : IsHost host) (hport : ReadPort portText port) (hpath : IsPath pathText path) :
    parseUrl (some (ascii "http://" ++ (host ++ (portText ++ pathText)))) ctx =
      ({ ctx with host := host, port := port, path := path }, true) := by
  obtain ⟨hpos, hle, hchars⟩ := hhost
  have hstop : ∀ c ∈ (portText ++ pathText).head?, c = 58 ∨ c = 47 := by
    intro c hc
    rcases hport with ⟨rfl, -⟩ | ⟨n, rfl, -⟩
    · exact .inr (hpath.head c hc)
    · exact .inl (Option.some.inj hc).symm
  rw [parseUrl, if_pos (List.prefix_append _ _), drop_scheme]
  dsimp only
  rw [host_split hchars hstop, if_neg (by simp only [hostMax]; omega), List.drop_left]
  rcases hport with ⟨rfl, rfl⟩ | ⟨n, rfl, rfl, hpos, hle⟩
  · rw [List.nil_append]
    have hnocolon : ∀ q, pathText ≠ 58 :: q := by
      rintro q rfl
      exact absurd (hpath.head 58 rfl) (by decide)
    split
    · exact absurd rfl (hnocolon _)
    · exact (parsePath_iff _ _ _).mpr ⟨path, hpath, rfl⟩
  · rw [List.cons_append]
    split
    · next q hq =>
      obtain rfl := (List.cons.inj hq).2
      rw [CString.strtoul_numeral n hpath.stops, if_neg (by dsimp only; omega)]
      exact (parsePath_iff _ _ _).mpr ⟨path, hpath, rfl⟩
    · next hnocolon => exact absurd rfl (hnocolon _)

/-- **What is accepted.** -/
theorem parseUrl_iff (url : List UInt8) (ctx c : Ctx κ) :
    parseUrl (some url) ctx = (c, true) ↔ ∃ host portText port pathText path,
      url = ascii "http://" ++ (host ++ (portText ++ pathText)) ∧ IsHost host ∧
      ReadPort portText port ∧
        IsPath pathText path ∧ c = { ctx with host := host, port := port, path := path } := by
  refine ⟨parseUrl_reads, ?_⟩
  rintro ⟨host, portText, port, pathText, path, rfl, hhost, hport, hpath, rfl⟩
  exact parseUrl_accepts ctx hhost hport hpath

/-! ## Against the grammar -/

/-- Digits for a port are a number. -/
theorem IsPort.read {text : List UInt8} {port : Nat} (h : IsPort text port) :
    ReadPort text port := by
  rcases h with h | ⟨ds, rfl, hd, rfl, hpos, hle⟩
  · exact .inl h
  · have hne : ds ≠ [] := by
      rintro rfl
      exact absurd hpos (by decide)
    have hvalue := @Numeral.value_ofDigits ds hd hne (by omega)
    exact .inr ⟨.ofDigits ds hd hne, rfl, hvalue.symm, hpos, hle⟩

/-- A number for a port is digits, or has something in front. -/
theorem ReadPort.cases {text : List UInt8} {port : Nat} (h : ReadPort text port) :
    IsPort text port ∨ ∃ n : Numeral, n.lead ≠ [] ∧ text = 58 :: n.text ∧ 1 ≤ n.value ∧
    n.value ≤ 65535 := by
  rcases h with h | ⟨n, rfl, rfl, hpos, hle⟩
  · exact .inl (.inl h)
  · by_cases hlead : n.lead = []
    · have hvalue := Numeral.value_plain hlead (by omega)
      exact .inl (.inr ⟨n.digits, by rw [Numeral.text_plain hlead], n.digit, hvalue, hpos, hle⟩)
    · exact .inr ⟨n, hlead, rfl, hpos, hle⟩

/-- A URL has nothing in front of its port. -/
theorem IsUrl.not_ledPort {url host path : List UInt8} {port : Nat} (h : IsUrl url host port path) :
    ¬ LedPort url := by
  rintro ⟨host', n, pathText', path', hlead, hurl', hhost', -, -, -⟩
  obtain ⟨portText, pathText, hurl, hhost, hport, hpath⟩ := h
  have hsame : host ++ (portText ++ pathText) = host' ++ (58 :: n.text ++ pathText') :=
    List.append_cancel_left (hurl.symm.trans hurl')
  have hstop : ∀ c ∈ (portText ++ pathText).head?, c = 58 ∨ c = 47 := by
    intro c hc
    rcases hport with ⟨rfl, -⟩ | ⟨ds, rfl, -⟩
    · exact .inr (hpath.head c hc)
    · exact .inl (Option.some.inj hc).symm
  obtain rfl : host = host' := by
    rw [← host_split hhost.2.2 hstop, hsame]
    exact host_split hhost'.2.2 fun c hc => .inl (Option.some.inj hc).symm
  have hrest := List.append_cancel_left hsame
  rcases hport with ⟨rfl, -⟩ | ⟨ds, rfl, hd, rfl, hpos, -⟩
  · -- a path does not begin with a colon
    have hcolon := hpath.head 58 (by rw [← List.nil_append pathText, hrest]; rfl)
    exact absurd hcolon (by decide)
  · cases ds with
    | nil => exact absurd hpos (by decide)
    | cons d ds =>
      have htail : (d :: ds) ++ pathText = n.text ++ pathText' := (List.cons.inj hrest).2
      have hfirst := Numeral.head_lead hlead pathText' d (by rw [← htail]; rfl)
      exact absurd ((hd d List.mem_cons_self).symm.trans hfirst) (by decide)

/-- **The parser takes exactly its grammar**, but for ports with something in front of them. -/
theorem url_exact (url : List UInt8) (ctx : Ctx κ) : AcceptsUrl url ctx ↔ ¬ LedPort url := by
  constructor
  · rintro h ⟨host, n, pathText, path, hlead, rfl, hhost, hpos, hle, hpath⟩
    have haccept :
        parseUrl (some _) ctx = ({ ctx with host := host, port := n.value, path := path }, true) :=
      (parseUrl_iff _ _ _).mpr ⟨host, 58 :: n.text, n.value, pathText, path, rfl, hhost,
        .inr ⟨n, rfl, rfl, hpos, hle⟩, hpath, rfl⟩
    rcases h with ⟨host', port, path', hurl, -⟩ | ⟨-, hrefused⟩
    · exact hurl.not_ledPort ⟨host, n, pathText, path, hlead, rfl, hhost, hpos, hle, hpath⟩
    · rw [haccept] at hrefused
      exact absurd hrefused.symm Bool.false_ne_true
  · intro hled
    rcases hp : parseUrl (some url) ctx with ⟨c, accepted⟩
    cases accepted with
    | true =>
      obtain ⟨host, portText, port, pathText, path, rfl, hhost, hport, hpath, rfl⟩ :=
        (parseUrl_iff _ _ _).mp hp
      rcases hport.cases with hport | ⟨n, hlead, rfl, hpos, hle⟩
      · exact .inl ⟨host, port, path, ⟨portText, pathText, rfl, hhost, hport, hpath⟩, hp⟩
      · exact absurd ⟨host, n, pathText, path, hlead, rfl, hhost, hpos, hle, hpath⟩ hled
    | false =>
      refine .inr ⟨fun host port path hurl => ?_, by rw [hp]⟩
      obtain ⟨portText, pathText, rfl, hhost, hport, hpath⟩ := hurl
      have haccept := (parseUrl_iff _ ctx _).mpr
        ⟨host, portText, port, pathText, path, rfl, hhost, hport.read, hpath, rfl⟩
      exact absurd (hp.symm.trans haccept) (by simp)

/-- Port 80, as the complement of a number. -/
theorem minusPort_accepted :
    ¬ AcceptsUrl (ascii "http://pi:-4294967216/a.bin") (Ctx.zero : Ctx Unit) := by
  intro h
  have hparse :
      (parseUrl (some (ascii "http://pi:-4294967216/a.bin")) (Ctx.zero : Ctx Unit)).2 = true ∧
      (parseUrl (some (ascii "http://pi:-4294967216/a.bin")) (Ctx.zero : Ctx Unit)).1.port =
        80 := by decide
  rcases h with ⟨host, port, path, hurl, -⟩ | ⟨-, hrefused⟩
  · let n : Numeral :=
      ⟨[], .minus, ascii "4294967216", List.forall_mem_nil _, List.all_eq_true.mp rfl, by decide⟩
    refine hurl.not_ledPort ⟨ascii "pi", n, ascii "/a.bin", ascii "/a.bin", by decide,
      by decide, ?_, by decide, by decide, .inr ⟨by decide, by decide, rfl⟩⟩
    exact ⟨by decide, by decide, by simp [ascii]⟩
  · exact absurd (hparse.1.symm.trans hrefused) (by decide)

end PicoBLE.Network
