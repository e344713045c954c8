import Servanda.Bootstrap
import Servanda.Signing

/-!
Bootstrap links as the source writes and reads them: the platform's base64 with its padding, the
binary string between octets and digits, and what is thrown and caught on the way.
-/

namespace Servanda.Links

open Unicode JsonRpc
open Scan (unit)

inductive Thrown
  | jcsDepthExceeded
  | invalidCharacter
  | syntaxError
  deriving DecidableEq, Repr

/-- A digit of the standard alphabet. -/
def stdDigit (n : ℕ) : CodeUnit :=
  if n = 62 then unit '+' else if n = 63 then unit '/' else unit (Base64.urlDigit n)

def stdValue (u : CodeUnit) : Option ℕ :=
  if 0x41 ≤ u.toNat ∧ u.toNat ≤ 0x5A then some (u.toNat - 65)
  else if 0x61 ≤ u.toNat ∧ u.toNat ≤ 0x7A then some (u.toNat - 71)
  else if 0x30 ≤ u.toNat ∧ u.toNat ≤ 0x39 then some (u.toNat + 4)
  else if u = unit '+' then some 62
  else if u = unit '/' then some 63
  else none

/-- A binary string: one code unit for each octet. -/
def binary (bytes : List UInt8) : Text := bytes.map fun b ↦ BitVec.ofNat 16 b.toNat

def charCodes (s : Text) : List UInt8 := s.map fun u ↦ UInt8.ofNat u.toNat

def isAsciiSpace (u : CodeUnit) : Bool := u.toNat ∈ [0x09, 0x0A, 0x0C, 0x0D, 0x20]

/-- At most two padding characters at the end are not data. -/
def dropPadding (s : Text) : Text :=
  if [unit '=', unit '='].isSuffixOf s then s.dropLast.dropLast
  else if [unit '='].isSuffixOf s then s.dropLast
  else s

def btoa (s : Text) : Except Thrown Text :=
  if s.all (·.toNat < 0x100) then
    .ok ((Base64.sextets (charCodes s)).map stdDigit ++
      List.replicate ((3 - s.length % 3) % 3) (unit '='))
  else .error .invalidCharacter

def atob (s : Text) : Except Thrown Text :=
  let kept := s.filter (!isAsciiSpace ·)
  let data := if kept.length % 4 = 0 then dropPadding kept else kept
  if data.length % 4 = 1 then .error .invalidCharacter
  else match (data.mapM stdValue).bind Base64.octets with
    | some bytes => .ok (binary bytes)
    | none => .error .invalidCharacter

def swap (c c' : Char) (s : Text) : Text := s.map fun u ↦ if u = unit c then unit c' else u

def toBase64Url (bytes : List UInt8) : Except Thrown Text := do
  let s ← btoa (binary bytes)
  return (swap '/' '_' (swap '+' '-' s)).rdropWhile (· = unit '=')

def fromBase64Url (s : Text) : Except Thrown (List UInt8) := do
  let padded := swap '_' '/' (swap '-' '+' s)
  let s ← atob (padded ++ List.replicate ((4 - padded.length % 4) % 4) (unit '='))
  return charCodes s

def b64UrlOnly (s : Text) : Bool :=
  !s.isEmpty && s.all fun u ↦
    (stdValue u).isSome && u ≠ unit '+' && u ≠ unit '/' || u = unit '-' || u = unit '_'

def encodeBootstrap (message : Json) : Except Thrown Text :=
  match canonicalBytes message with
  | some bytes => toBase64Url bytes
  | none => .error .jcsDepthExceeded

def bootstrapUrl (message : Json) (base : Text) : Except Thrown Text := do
  let payload ← encodeBootstrap message
  return base ++ unit '#' :: payload

def payloadFromUrl (url : Text) : Option Text :=
  if unit '#' ∈ url then some (url.drop (url.idxOf (unit '#') + 1)) else none

section Render

variable (numerals : JsonParse.Numerals) (crypto : Crypto) (safeParse : Value → Bootstrap.Decoded)

def jsonParse (s : Text) : Except Thrown Value :=
  match JsonParse.parse numerals s with
  | some v => .ok v
  | none => .error .syntaxError

def decodeBootstrap (payload : Text) : Except Thrown Value :=
  if !b64UrlOnly payload then .ok .null
  else tryCatch (do
    let bytes ← fromBase64Url payload
    jsonParse numerals (units (decodeUtf8 bytes))) fun _ ↦ .ok .null

/-- What is read off a decoded value: what the wire schema makes of it and whether it has a string
`sig` is `safeParse`. -/
def renderBootstrap (payload : Text) : Except Thrown Bootstrap.BootstrapRendering := do
  match ← decodeBootstrap numerals payload with
  | .null => return .refused .notBase64urlJson
  | decoded =>
    match (safeParse decoded).delivery.verifyMessage crypto with
    | none =>
      return .refused (if (safeParse decoded).hasSig then .signatureDoesNotVerify
        else .notASignedMessage)
    | some message =>
      match message.body with
      | .propose (.ok ⟨edge, assertion⟩) => return .presentable message.sender edge assertion
      | _ => return .refused .notAProposal

end Render

section Digits

theorem stdValue_stdDigit {n : ℕ} (h : n < 64) : stdValue (stdDigit n) = some n := by
  have hall : ∀ i : Fin 64, stdValue (stdDigit i) = some i.val := by decide
  exact hall ⟨n, h⟩

/-- A digit as it stands in a link. -/
def urlUnit (n : ℕ) : CodeUnit := unit (Base64.urlDigit n)

theorem swap_stdDigit {n : ℕ} (h : n < 64) :
    swap '/' '_' (swap '+' '-' [stdDigit n]) = [urlUnit n] := by
  have hall : ∀ i : Fin 64, swap '/' '_' (swap '+' '-' [stdDigit i]) = [urlUnit i] := by decide
  exact hall ⟨n, h⟩

theorem swap_urlUnit {n : ℕ} (h : n < 64) :
    swap '_' '/' (swap '-' '+' [urlUnit n]) = [stdDigit n] := by
  have hall : ∀ i : Fin 64, swap '_' '/' (swap '-' '+' [urlUnit i]) = [stdDigit i] := by decide
  exact hall ⟨n, h⟩

theorem urlUnit_ne {n : ℕ} (h : n < 64) : urlUnit n ≠ unit '=' ∧ urlUnit n ≠ unit '#' := by
  have hall : ∀ i : Fin 64, urlUnit i ≠ unit '=' ∧ urlUnit i ≠ unit '#' := by decide
  exact hall ⟨n, h⟩

theorem stdDigit_ne {n : ℕ} (h : n < 64) :
    stdDigit n ≠ unit '=' ∧ isAsciiSpace (stdDigit n) = false := by
  have hall : ∀ i : Fin 64, stdDigit i ≠ unit '=' ∧ isAsciiSpace (stdDigit i) = false := by decide
  exact hall ⟨n, h⟩

theorem swap_append (c c' : Char) (s t : Text) : swap c c' (s ++ t) = swap c c' s ++ swap c c' t :=
  List.map_append

theorem swap_digits {f g : ℕ → CodeUnit} {a a' b b' : Char}
    (hfg : ∀ n < 64, swap b b' (swap a a' [f n]) = [g n]) {digits : List ℕ}
    (h : ∀ n ∈ digits, n < 64) : swap b b' (swap a a' (digits.map f)) = digits.map g := by
  induction digits with
  | nil => rfl
  | cons n digits ih =>
    obtain ⟨hn, hdigits⟩ := List.forall_mem_cons.1 h
    have hcons : (n :: digits).map f = [f n] ++ digits.map f := rfl
    rw [hcons, swap_append, swap_append, hfg n hn, ih hdigits]
    rfl

theorem toNat_urlUnit {n : ℕ} (h : n < 64) : (urlUnit n).toNat =
    if n < 26 then n + 65 else if n < 52 then n + 71 else if n < 62 then n - 4
    else if n = 62 then 0x2D else 0x5F := by
  have hall : ∀ i : Fin 64, (urlUnit i).toNat =
      if i.val < 26 then i.val + 65 else if i.val < 52 then i.val + 71
      else if i.val < 62 then i.val - 4 else if i.val = 62 then 0x2D else 0x5F := by decide
  exact hall ⟨n, h⟩

/-- A digit a link may hold is that of a number below 64. -/
theorem exists_digit {u : CodeUnit} (h : ((stdValue u).isSome && u ≠ unit '+' && u ≠ unit '/' ||
    u = unit '-' || u = unit '_' : Bool) = true) : ∃ n < 64, u = urlUnit n := by
  have hof : ∀ n < 64, (urlUnit n).toNat = u.toNat → ∃ n < 64, u = urlUnit n :=
    fun n hn heq ↦ ⟨n, hn, BitVec.eq_of_toNat_eq heq.symm⟩
  simp only [Bool.or_eq_true, Bool.and_eq_true, decide_eq_true_eq] at h
  obtain (⟨⟨hvalue, hplus⟩, hslash⟩ | rfl) | rfl := h
  · unfold stdValue at hvalue
    split_ifs at hvalue with hupper hlower hdigit
    · refine hof (u.toNat - 65) (by omega) ?_
      rw [toNat_urlUnit (by omega), if_pos (by omega)]
      omega
    · refine hof (u.toNat - 71) (by omega) ?_
      rw [toNat_urlUnit (by omega), if_neg (by omega), if_pos (by omega)]
      omega
    · refine hof (u.toNat + 4) (by omega) ?_
      rw [toNat_urlUnit (by omega), if_neg (by omega), if_neg (by omega), if_pos (by omega)]
      omega
    · cases hvalue
  · exact ⟨62, by decide, by decide⟩
  · exact ⟨63, by decide, by decide⟩

theorem exists_digits {s : Text} (h : b64UrlOnly s = true) :
    ∃ digits : List ℕ, s = digits.map urlUnit ∧ digits ≠ [] ∧ ∀ n ∈ digits, n < 64 := by
  obtain ⟨hne, hall⟩ := Bool.and_eq_true_iff.1 h
  have hdigits : ∃ digits : List ℕ, s = digits.map urlUnit ∧ ∀ n ∈ digits, n < 64 := by
    clear h hne
    induction s with
    | nil => exact ⟨[], rfl, List.forall_mem_nil _⟩
    | cons u s ih =>
      rw [List.all_cons, Bool.and_eq_true] at hall
      obtain ⟨digits, rfl, hdigits⟩ := ih hall.2
      obtain ⟨n, hn, rfl⟩ := exists_digit hall.1
      exact ⟨n :: digits, rfl, List.forall_mem_cons.2 ⟨hn, hdigits⟩⟩
  obtain ⟨digits, rfl, hdigits⟩ := hdigits
  refine ⟨digits, rfl, ?_, hdigits⟩
  rintro rfl
  cases hne

theorem b64UrlOnly_digits {digits : List ℕ} (hne : digits ≠ []) (h : ∀ n ∈ digits, n < 64) :
    b64UrlOnly (digits.map urlUnit) = true := by
  have hall : ∀ i : Fin 64, ((stdValue (urlUnit i)).isSome && urlUnit i ≠ unit '+' &&
      urlUnit i ≠ unit '/' || urlUnit i = unit '-' || urlUnit i = unit '_' : Bool) = true := by
    decide
  obtain ⟨n, digits, rfl⟩ := List.exists_cons_of_ne_nil hne
  refine Bool.and_eq_true_iff.2 ⟨rfl, List.all_eq_true.2 fun u hu ↦ ?_⟩
  obtain ⟨n, hn, rfl⟩ := List.mem_map.1 hu
  exact hall ⟨n, h n hn⟩

end Digits

section Platform

variable {bytes : List UInt8} {digits : List ℕ} {pad : ℕ}

theorem charCodes_binary : charCodes (binary bytes) = bytes := by
  have hback : ∀ b : UInt8, UInt8.ofNat (BitVec.ofNat 16 b.toNat).toNat = b := by
    intro b
    have hb := b.toNat_lt
    rw [BitVec.toNat_ofNat, Nat.mod_eq_of_lt (by omega), UInt8.ofNat_toNat]
  rw [charCodes, binary, List.map_map]
  exact (List.map_congr_left fun b _ ↦ hback b).trans (List.map_id bytes)

/-- What the platform makes of octets, padded to whole groups. -/
theorem btoa_binary : btoa (binary bytes) = .ok ((Base64.sextets bytes).map stdDigit ++
    List.replicate ((3 - bytes.length % 3) % 3) (unit '=')) := by
  have hall : (binary bytes).all (·.toNat < 0x100) = true := by
    refine List.all_eq_true.2 fun u hu ↦ ?_
    obtain ⟨b, -, rfl⟩ := List.mem_map.1 hu
    have hb := b.toNat_lt
    rw [BitVec.toNat_ofNat, Nat.mod_eq_of_lt (by omega)]
    exact decide_eq_true hb
  rw [btoa, if_pos hall, charCodes_binary, binary, List.length_map]

theorem rdropWhile_padding {s : Text} (h : ∀ u ∈ s, u ≠ unit '=') (pad : ℕ) :
    (s ++ List.replicate pad (unit '=')).rdropWhile (· = unit '=') = s := by
  induction pad with
  | zero =>
    rw [List.replicate_zero, List.append_nil]
    refine List.rdropWhile_eq_self_iff.2 fun hne ↦ ?_
    simpa using h _ (List.getLast_mem hne)
  | succ pad ih =>
    rw [List.replicate_succ', ← List.append_assoc, List.rdropWhile_concat_pos _ _ _ (by decide), ih]

theorem toBase64Url_eq : toBase64Url bytes = .ok ((Base64.sextets bytes).map urlUnit) := by
  have hlt := Base64.sextets_lt bytes
  have hpad : swap '/' '_' (swap '+' '-' (List.replicate ((3 - bytes.length % 3) % 3) (unit '='))) =
      List.replicate ((3 - bytes.length % 3) % 3) (unit '=') := by
    rw [swap, swap, List.map_replicate, List.map_replicate]
    rfl
  have hne : ∀ u ∈ (Base64.sextets bytes).map urlUnit, u ≠ unit '=' := by
    intro u hu
    obtain ⟨n, hn, rfl⟩ := List.mem_map.1 hu
    exact (urlUnit_ne (hlt n hn)).1
  rw [toBase64Url, btoa_binary]
  change Except.ok _ = _
  rw [swap_append, swap_append, swap_digits (fun n hn ↦ swap_stdDigit hn) hlt, hpad,
    rdropWhile_padding hne]

theorem mapM_stdValue (h : ∀ n ∈ digits, n < 64) :
    (digits.map stdDigit).mapM stdValue = some digits := by
  induction digits with
  | nil => rfl
  | cons n digits ih =>
    obtain ⟨hn, hdigits⟩ := List.forall_mem_cons.1 h
    simp [stdValue_stdDigit hn, ih hdigits]

theorem mapM_stdValue_padded (h : ∀ n ∈ digits, n < 64) :
    (digits.map stdDigit ++ [unit '=']).mapM stdValue = none := by
  have hpad : stdValue (unit '=') = none := by decide
  rw [List.mapM_append, mapM_stdValue h]
  simp [hpad]

theorem octets_eq_none (h : digits.length % 4 = 1) : Base64.octets digits = none := by
  induction digits using Base64.octets.induct with
  | case1 => cases h
  | case2 => rfl
  | case3 => cases h
  | case4 => cases h
  | case5 p q r s rest ih =>
    have hrest : rest.length % 4 = 1 := by
      simp only [List.length_cons] at h
      omega
    rw [Base64.octets, ih hrest, Option.map_none]

/-- At most two characters of padding are dropped. -/
theorem dropPadding_padded {s : Text} (h : unit '=' ∉ s) (pad : ℕ) :
    dropPadding (s ++ List.replicate pad (unit '=')) =
      s ++ List.replicate (pad - 2) (unit '=') := by
  have hnone : ¬[unit '='] <:+ s := fun hsuffix ↦ h (hsuffix.subset List.mem_cons_self)
  match pad with
  | 0 =>
    have hnone' : ¬[unit '=', unit '='] <:+ s := fun hsuffix ↦ h (hsuffix.subset List.mem_cons_self)
    rw [List.replicate_zero, List.append_nil, dropPadding,
      if_neg (by rwa [List.isSuffixOf_iff_suffix]), if_neg (by rwa [List.isSuffixOf_iff_suffix])]
  | 1 =>
    have hone : ¬[unit '=', unit '='] <:+ s ++ [unit '='] := by
      rintro ⟨front, hfront⟩
      have hsplit : (front ++ [unit '=']) ++ [unit '='] = s ++ [unit '='] := by
        rw [← hfront, List.append_assoc]
        rfl
      exact hnone ⟨front, List.append_cancel_right hsplit⟩
    have hlast : [unit '='] <:+ s ++ [unit '='] := List.suffix_append _ _
    rw [List.replicate_one, dropPadding, if_neg (by rwa [List.isSuffixOf_iff_suffix]),
      if_pos (by rwa [List.isSuffixOf_iff_suffix]), List.dropLast_concat]
    exact (List.append_nil s).symm
  | pad + 2 =>
    have hsplit : s ++ List.replicate (pad + 2) (unit '=') =
        s ++ List.replicate pad (unit '=') ++ [unit '='] ++ [unit '='] := by
      rw [List.replicate_succ', List.replicate_succ', List.append_assoc, List.append_assoc,
        List.append_assoc]
    have hlast : [unit '=', unit '='] <:+ s ++ List.replicate (pad + 2) (unit '=') :=
      ⟨s ++ List.replicate pad (unit '='), by rw [hsplit, List.append_assoc _ [unit '=']]; rfl⟩
    rw [dropPadding, if_pos (by rwa [List.isSuffixOf_iff_suffix]), hsplit, List.dropLast_concat,
      List.dropLast_concat]
    rfl

theorem filter_digits (h : ∀ n ∈ digits, n < 64) :
    (digits.map stdDigit ++ List.replicate pad (unit '=')).filter (!isAsciiSpace ·) =
      digits.map stdDigit ++ List.replicate pad (unit '=') := by
  refine List.filter_eq_self.2 fun u hu ↦ ?_
  obtain hu | hu := List.mem_append.1 hu
  · obtain ⟨n, hn, rfl⟩ := List.mem_map.1 hu
    rw [(stdDigit_ne (h n hn)).2]
    rfl
  · rw [List.eq_of_mem_replicate hu]
    decide

/-- Hostile digits and honest ones: a link is read as its digits are, six bits at a time. -/
theorem fromBase64Url_digits (h : ∀ n ∈ digits, n < 64) :
    fromBase64Url (digits.map urlUnit) = match Base64.octets digits with
      | some bytes => .ok bytes
      | none => .error .invalidCharacter := by
  have hne : unit '=' ∉ digits.map stdDigit := by
    intro hmem
    obtain ⟨n, hn, heq⟩ := List.mem_map.1 hmem
    exact (stdDigit_ne (h n hn)).1 heq
  have hswap : swap '_' '/' (swap '-' '+' (digits.map urlUnit)) = digits.map stdDigit :=
    swap_digits (fun n hn ↦ swap_urlUnit hn) h
  have hlength : (digits.map stdDigit).length = digits.length := List.length_map _
  have hgroups : (digits.map stdDigit ++
      List.replicate ((4 - digits.length % 4) % 4) (unit '=')).length % 4 = 0 := by
    rw [List.length_append, List.length_replicate, hlength]
    omega
  unfold fromBase64Url
  rw [hswap]
  dsimp only
  rw [hlength]
  unfold atob
  simp only [filter_digits h, if_pos hgroups, dropPadding_padded hne]
  by_cases hone : digits.length % 4 = 1
  · have hpad : (4 - digits.length % 4) % 4 - 2 = 1 := by omega
    have hrest : (digits.map stdDigit ++ [unit '=']).length % 4 ≠ 1 := by
      rw [List.length_append, hlength, List.length_singleton]
      omega
    rw [hpad, List.replicate_one, if_neg hrest, mapM_stdValue_padded h, octets_eq_none hone]
    rfl
  · have hpad : (4 - digits.length % 4) % 4 - 2 = 0 := by omega
    rw [hpad, List.replicate_zero, List.append_nil, hlength, if_neg hone, mapM_stdValue h,
      Option.bind_some]
    cases Base64.octets digits with
    | none => rfl
    | some bytes => exact congrArg Except.ok charCodes_binary

end Platform

section Carry

open Bootstrap

variable {numerals : JsonParse.Numerals} {crypto : Crypto} {safeParse : Value → Decoded}
  {bytes : List UInt8} {digits : List ℕ} {base payload : Text}

/-- Octets as a link's reader takes them. -/
def reader (numerals : JsonParse.Numerals) (safeParse : Value → Decoded) : JsonReader := fun bytes ↦
  match JsonParse.parse numerals (units (decodeUtf8 bytes)) with
  | none | some .null => none
  | some v => some (safeParse v)

/-- Whatever is thrown on the way is caught. -/
theorem decodeBootstrap_total (numerals : JsonParse.Numerals) (payload : Text) :
    ∃ v, decodeBootstrap numerals payload = .ok v := by
  unfold decodeBootstrap
  split_ifs
  · exact ⟨.null, rfl⟩
  · cases hread : (do
        let bytes ← fromBase64Url payload
        jsonParse numerals (units (decodeUtf8 bytes)) : Except Thrown Value) with
    | ok v => exact ⟨v, rfl⟩
    | error thrown => exact ⟨.null, rfl⟩

theorem mapM_urlValue (h : ∀ n ∈ digits, n < 64) :
    (digits.map Base64.urlDigit).mapM Base64.urlValue = some digits := by
  induction digits with
  | nil => rfl
  | cons n digits ih =>
    obtain ⟨hn, hdigits⟩ := List.forall_mem_cons.1 h
    simp [Base64.urlValue_urlDigit hn, ih hdigits]

theorem decodeBootstrap_digits (hne : digits ≠ []) (h : ∀ n ∈ digits, n < 64) :
    decodeBootstrap numerals (digits.map urlUnit) = .ok
      (((Base64.octets digits).bind fun bytes ↦
        JsonParse.parse numerals (units (decodeUtf8 bytes))).getD .null) := by
  have honly : ¬((!b64UrlOnly (digits.map urlUnit)) = true) := by
    rw [b64UrlOnly_digits hne h]
    decide
  rw [decodeBootstrap, if_neg honly, fromBase64Url_digits h]
  cases Base64.octets digits with
  | none => rfl
  | some bytes =>
    change tryCatch (jsonParse numerals (units (decodeUtf8 bytes))) _ = _
    rw [jsonParse, Option.bind_some]
    cases JsonParse.parse numerals (units (decodeUtf8 bytes)) with
    | none => rfl
    | some v => rfl

/-- The renderer of links is the renderer of their digits. -/
theorem renderBootstrap_digits (hne : digits ≠ []) (h : ∀ n ∈ digits, n < 64) :
    renderBootstrap numerals crypto safeParse (digits.map urlUnit) =
      .ok (Bootstrap.renderBootstrap crypto (reader numerals safeParse)
        (digits.map Base64.urlDigit)) := by
  have honly : ¬((!Bootstrap.b64UrlOnly (digits.map Base64.urlDigit)) = true) := by
    have hall : (digits.map Base64.urlDigit).all (fun c ↦ (Base64.urlValue c).isSome) = true := by
      refine List.all_eq_true.2 fun c hc ↦ ?_
      obtain ⟨n, hn, rfl⟩ := List.mem_map.1 hc
      rw [Base64.urlValue_urlDigit (h n hn)]
      rfl
    rw [Bootstrap.b64UrlOnly, hall, List.isEmpty_map, List.isEmpty_eq_false_iff.2 hne]
    decide
  have hdecoded : Bootstrap.decodeBootstrap (reader numerals safeParse)
      (digits.map Base64.urlDigit) = (Base64.octets digits).bind (reader numerals safeParse) := by
    rw [Bootstrap.decodeBootstrap, if_neg honly, Bootstrap.fromBase64Url, Base64.decodeUrl,
      mapM_urlValue h]
    rfl
  unfold renderBootstrap Bootstrap.renderBootstrap
  rw [decodeBootstrap_digits hne h, hdecoded]
  cases Base64.octets digits with
  | none => rfl
  | some bytes =>
    simp only [Option.bind_some, reader]
    cases JsonParse.parse numerals (units (decodeUtf8 bytes)) with
    | none => rfl
    | some v =>
      cases v with
      | null => rfl
      | bool b | num n | infinity negative | str s | arr items | obj members =>
        simp only [Option.getD_some, bind, Except.bind]
        cases (safeParse _).delivery.verifyMessage crypto with
        | none => rfl
        | some message =>
          obtain ⟨body, sender, recipient, sentAt, sig⟩ := message
          cases body with
          | propose payload =>
            cases payload with
            | error _ => rfl
            | ok _ => rfl
          | _ => rfl

theorem sextets_ne_nil (h : bytes ≠ []) : Base64.sextets bytes ≠ [] := by
  match bytes with
  | [] => exact absurd rfl h
  | [_] | [_, _] | _ :: _ :: _ :: _ => exact List.cons_ne_nil _ _

/-- What comes out of a link is what went in. -/
theorem fromBase64Url_toBase64Url {s : Text} (h : toBase64Url bytes = .ok s) :
    fromBase64Url s = .ok bytes := by
  rw [toBase64Url_eq, Except.ok.injEq] at h
  rw [← h, fromBase64Url_digits (Base64.sextets_lt bytes), Base64.octets_sextets]

theorem encodeBootstrap_eq_ok_iff {message : Json} : encodeBootstrap message = .ok payload ↔
    ∃ bytes, canonicalBytes message = some bytes ∧
      payload = (Base64.sextets bytes).map urlUnit := by
  unfold encodeBootstrap
  cases hbytes : canonicalBytes message with
  | none => exact iff_of_false nofun (by rintro ⟨_, h, -⟩; cases h)
  | some bytes =>
    simp only [toBase64Url_eq, Except.ok.injEq, Option.some.injEq, exists_eq_left']
    exact eq_comm

/-- No digit ends the search for the payload. -/
theorem payloadFromUrl_append (hbase : unit '#' ∉ base) :
    payloadFromUrl (base ++ unit '#' :: payload) = some payload := by
  have hmem : unit '#' ∈ base ++ unit '#' :: payload :=
    List.mem_append_right base List.mem_cons_self
  rw [payloadFromUrl, if_pos hmem, List.idxOf_append_of_notMem hbase, List.idxOf_cons_self]
  simp [List.drop_append]

theorem decodeUtf8_encodeUtf8 {c : Char} {cs : List Char} (h : c ≠ '\uFEFF') :
    decodeUtf8 (encodeUtf8 (c :: cs)) = c :: cs := by
  rw [decodeUtf8, Decoder.run_encodeUtf8, dropMark, if_neg h]

theorem canonicalize_obj {members : Members} {cs : List Char}
    (h : canonicalize (.obj members) = some cs) : ∃ rest, cs = '{' :: rest := by
  rw [canonicalize, write, if_neg (by decide)] at h
  obtain ⟨written, -, rfl⟩ := Option.map_eq_some_iff.1 h
  exact ⟨_, rfl⟩

/-- A proposal goes through a link whole: it is read back as the JSON it was, only JSON equal to it
has the same link, and it is presented exactly where it verifies and is a well-formed proposal. -/
structure Intact (numerals : JsonParse.Numerals) (crypto : Crypto) (safeParse : Value → Decoded)
    (message : Json) (base : Text) : Prop where
  decoded : ∃ url payload v, bootstrapUrl message base = .ok url ∧
    payloadFromUrl url = some payload ∧ decodeBootstrap numerals payload = .ok (.ofJson v) ∧
      message.Same v
  injective : ∀ message' : Json, message'.Distinct →
    encodeBootstrap message' = encodeBootstrap message → message'.Same message
  presentable : ∀ url payload, bootstrapUrl message base = .ok url →
    payloadFromUrl url = some payload → ∀ signedBy edge a,
      renderBootstrap numerals crypto safeParse payload = .ok (.presentable signedBy edge a) ↔
        ∃ m, (safeParse (.ofJson message)).delivery = .message m ∧
          crypto.verifyObject (.message m) m.sender = true ∧ m.body = .propose (.ok ⟨edge, a⟩) ∧
            m.sender = signedBy

/-- The schema reads members by name, so it makes the same of values that are equal as JSON. -/
def ReadsByName (safeParse : Value → Decoded) : Prop :=
  ∀ u v : Json, u.Distinct → v.Distinct → u.Same v → safeParse (.ofJson u) = safeParse (.ofJson v)

theorem bootstrapUrl_of_encode {message : Json} (h : encodeBootstrap message = .ok payload) :
    bootstrapUrl message base = .ok (base ++ unit '#' :: payload) := by
  rw [bootstrapUrl, h]
  rfl

section Message

variable {members : Members} {cs : List Char}

theorem parse_link (hdistinct : (Json.obj members).Distinct)
    (hnumbers : (Json.obj members).Numbers fun n ↦ numerals n.digits = some (.num n))
    (hcs : canonicalize (.obj members) = some cs) :
    JsonParse.parse numerals (units (decodeUtf8 (encodeUtf8 cs))) =
      some (.ofJson (Json.obj members).sorted) := by
  obtain ⟨rest, hrest⟩ := canonicalize_obj hcs
  have hbrace : '{' ≠ '\uFEFF' := by decide
  rw [hrest, decodeUtf8_encodeUtf8 hbrace, ← hrest]
  exact JsonParse.parse_canonicalize hdistinct hnumbers hcs

theorem encodeUtf8_ne_nil (hcs : canonicalize (.obj members) = some cs) : encodeUtf8 cs ≠ [] := by
  obtain ⟨rest, rfl⟩ := canonicalize_obj hcs
  rw [encodeUtf8_cons, utf8EncodeChar_one (by decide)]
  exact List.cons_ne_nil _ _

theorem intact_of_canonicalize (hparse : ReadsByName safeParse)
    (hdistinct : (Json.obj members).Distinct)
    (hnumbers : (Json.obj members).Numbers fun n ↦ numerals n.digits = some (.num n))
    (hbase : unit '#' ∉ base) (hcs : canonicalize (.obj members) = some cs) :
    Intact numerals crypto safeParse (.obj members) base := by
  have hbytes : canonicalBytes (.obj members) = some (encodeUtf8 cs) := by
    rw [canonicalBytes, hcs, Option.map_some]
  have hencode := encodeBootstrap_eq_ok_iff.2 ⟨_, hbytes, rfl⟩
  have hne := sextets_ne_nil (encodeUtf8_ne_nil hcs)
  have hlt := Base64.sextets_lt (encodeUtf8 cs)
  have hread := parse_link hdistinct hnumbers hcs
  refine ⟨⟨_, _, _, bootstrapUrl_of_encode hencode, payloadFromUrl_append hbase, ?_,
    Jcs.same_sorted hdistinct⟩, fun message' hdistinct' heq ↦ ?_,
    fun url payload hurl hpayload signedBy edge a ↦ ?_⟩
  · rw [decodeBootstrap_digits hne hlt, Base64.octets_sextets, Option.bind_some, hread,
      Option.getD_some]
  · rw [hencode] at heq
    obtain ⟨bytes, hbytes', hdigits⟩ := encodeBootstrap_eq_ok_iff.1 heq
    have hback := fromBase64Url_toBase64Url (@toBase64Url_eq bytes)
    rw [← hdigits, fromBase64Url_toBase64Url toBase64Url_eq, Except.ok.injEq] at hback
    obtain ⟨cs', hcs', hencoded⟩ := Option.map_eq_some_iff.1 hbytes'
    rw [← hback] at hencoded
    obtain rfl := Signing.encodeUtf8_injective hencoded
    exact Jcs.same_of_canonicalize hdistinct' hdistinct hcs' hcs
  · rw [bootstrapUrl_of_encode hencode, Except.ok.injEq] at hurl
    rw [← hurl, payloadFromUrl_append hbase, Option.some.injEq] at hpayload
    rw [← hpayload, renderBootstrap_digits hne hlt, Except.ok.injEq,
      renderBootstrap_presentable_iff]
    have hdecoded : Bootstrap.decodeBootstrap (reader numerals safeParse)
        ((Base64.sextets (encodeUtf8 cs)).map Base64.urlDigit) =
          some (safeParse (.ofJson (.obj members))) := by
      rw [hparse _ _ hdistinct (Jcs.distinct_sorted hdistinct) (Jcs.same_sorted hdistinct)]
      refine (decodeBootstrap_toBase64Url (encodeUtf8_ne_nil hcs)).trans ?_
      rw [reader, hread]
      rfl
    rw [hdecoded]
    constructor
    · rintro ⟨m, hasSig, hm, hverified, hbody, hsender⟩
      refine ⟨m, ?_, hverified, hbody, hsender⟩
      rw [Option.some.inj hm]
    · rintro ⟨m, hm, hverified, hbody, hsender⟩
      refine ⟨m, (safeParse (.ofJson (.obj members))).hasSig, ?_, hverified, hbody, hsender⟩
      rw [← hm]

/-- What is not too deep for canonical form goes through a link whole. What is deeper gets no link.
No text makes the decoder throw. -/
theorem link_carries (numerals : JsonParse.Numerals) (crypto : Crypto)
    {safeParse : Value → Decoded} {members : Members} {base : Text}
    (hparse : ReadsByName safeParse) (hdistinct : (Json.obj members).Distinct)
    (hnumbers : (Json.obj members).Numbers fun n ↦ numerals n.digits = some (.num n))
    (hbase : unit '#' ∉ base) :
    ((Json.obj members).height ≤ maxCanonicalizationDepth →
      Intact numerals crypto safeParse (.obj members) base) ∧
    (maxCanonicalizationDepth < (Json.obj members).height →
      bootstrapUrl (.obj members) base = .error .jcsDepthExceeded) ∧
    ∀ payload, ∃ v, decodeBootstrap numerals payload = .ok v := by
  refine ⟨fun hheight ↦ ?_, fun hheight ↦ ?_, decodeBootstrap_total numerals⟩
  · obtain ⟨cs, hcs⟩ := Option.isSome_iff_exists.1
      ((write_isSome_iff (.obj members) 0).2 (by omega))
    exact intact_of_canonicalize hparse hdistinct hnumbers hbase hcs
  · have hnone := (Jcs.canonicalize_eq_none_iff _).2 hheight
    rw [bootstrapUrl, encodeBootstrap, canonicalBytes, hnone]
    rfl

end Message

section Sample

open Classical in
/-- A schema that knows one message. -/
noncomputable def knows (known : Json) (m : WireMessage) : Value → Decoded := fun v ↦
  if ∃ j : Json, v = .ofJson j ∧ j.sorted = known.sorted then ⟨.message m, true⟩
  else ⟨.malformed, false⟩

theorem knows_known (known : Json) (m : WireMessage) :
    knows known m (.ofJson known) = ⟨.message m, true⟩ := if_pos ⟨known, rfl, rfl⟩

theorem readsByName_knows (known : Json) (m : WireMessage) : ReadsByName (knows known m) := by
  intro u v hu hv h
  have hiff : (∃ j : Json, Value.ofJson u = .ofJson j ∧ j.sorted = known.sorted) ↔
      ∃ j : Json, Value.ofJson v = .ofJson j ∧ j.sorted = known.sorted := by
    have hknown : ∀ w : Json, (∃ j : Json, Value.ofJson w = .ofJson j ∧ j.sorted = known.sorted) ↔
        w.sorted = known.sorted := by
      refine fun w ↦ ⟨?_, fun hw ↦ ⟨w, rfl, hw⟩⟩
      rintro ⟨j, hj, hsorted⟩
      rwa [Jcs.ofJson_injective hj]
    rw [hknown, hknown, Jcs.sorted_of_same hu hv h]
  unfold knows
  split_ifs with hu' hv' hv'
  · rfl
  · exact absurd (hiff.1 hu') hv'
  · exact absurd (hiff.2 hv') hu'
  · rfl

def str (s : List Char) : Json := .str (units s)

/-- The members of a message, around a payload. -/
def wireMembers (payload : Json) : Members :=
  [(text "v", str "servanda/0.2".toList), (text "type", str "propose".toList),
    (text "payload", payload), (text "sender", str (hexText strangersMessage.sender)),
    (text "recipient", str (hexText strangersMessage.recipient)),
    (text "sent_at", str strangersMessage.sentAt.text),
    (text "sig", str (hexText strangersMessage.sig))]

/-- The stranger's proposal of the owner's promise. -/
def proposalPayload : Json := .obj
  [(text "edge", .obj
    [(text "v", str "servanda/0.2".toList), (text "type", str "edge".toList),
      (text "edge_id", str (hexText Sample.edge.edgeId)),
      (text "commitment_hash", str (hexText Sample.edge.commitmentHash)),
      (text "owner", str (hexText Sample.edge.owner)),
      (text "owed_to", str (hexText Sample.edge.owedTo)),
      (text "proposed_at", str Sample.edge.proposedAt.text), (text "due", .null),
      (text "closure_policy", str "on-acceptance".toList),
      (text "acceptance_window", str "P5D".toList), (text "blocked_by", .arr []),
      (text "supersedes", .null)]),
    (text "assertion", .obj
      [(text "v", str "servanda/0.2".toList), (text "type", str "assertion".toList),
        (text "edge_id", str (hexText Sample.proposal.edgeId)),
        (text "state", str "proposed".toList),
        (text "asserted_at", str Sample.proposal.assertedAt.text),
        (text "by", str (hexText Sample.proposal.signer)), (text "evidence_hash", .null),
        (text "sig", str (hexText Sample.proposal.sig))])]

theorem distinct_wireMembers {payload : Json} (h : payload.Distinct) :
    (Json.obj (wireMembers payload)).Distinct := by
  refine .obj ?_ ?_
  · change List.Nodup (["v", "type", "payload", "sender", "recipient", "sent_at", "sig"].map text)
    decide +kernel
  · simp only [wireMembers, List.forall_mem_cons]
    exact ⟨.str _, .str _, h, .str _, .str _, .str _, .str _, List.forall_mem_nil _⟩

theorem distinct_proposalPayload : proposalPayload.Distinct := by
  have hkeys : (["v", "type", "edge_id", "commitment_hash", "owner", "owed_to", "proposed_at",
      "due", "closure_policy", "acceptance_window", "blocked_by",
      "supersedes"].map text).Nodup := by
    decide +kernel
  have hkeys' : (["v", "type", "edge_id", "state", "asserted_at", "by", "evidence_hash",
      "sig"].map text).Nodup := by
    decide +kernel
  have hparts : (["edge", "assertion"].map text).Nodup := by decide +kernel
  refine .obj hparts ?_
  simp only [List.forall_mem_cons]
  refine ⟨.obj hkeys ?_, .obj hkeys' ?_, List.forall_mem_nil _⟩
  · simp only [List.forall_mem_cons]
    exact ⟨.str _, .str _, .str _, .str _, .str _, .str _, .str _, .null, .str _, .str _,
      .arr (List.forall_mem_nil _), .null, List.forall_mem_nil _⟩
  · simp only [List.forall_mem_cons]
    exact ⟨.str _, .str _, .str _, .str _, .str _, .str _, .null, .str _, List.forall_mem_nil _⟩

/-- The stranger's proposal comes out of its link and is presented under the stranger's key. -/
theorem link_carries_proposal : ∃ url payload,
    bootstrapUrl (.obj (wireMembers proposalPayload)) (text "https://servanda.example/b") =
        .ok url ∧
      payloadFromUrl url = some payload ∧
        renderBootstrap Jcs.texts Sample.crypto
          (knows (.obj (wireMembers proposalPayload)) strangersMessage) payload =
            .ok (.presentable strangersMessage.sender Sample.edge Sample.proposal) := by
  have hbase : unit '#' ∉ text "https://servanda.example/b" := by decide +kernel
  have hheight : (Json.obj (wireMembers proposalPayload)).height ≤ maxCanonicalizationDepth := by
    decide +kernel
  have hintact := (link_carries Jcs.texts Sample.crypto 
    (readsByName_knows (.obj (wireMembers proposalPayload)) strangersMessage)
    (distinct_wireMembers distinct_proposalPayload)
    (Jcs.numbers_of_forall Jcs.texts_digits (.obj (wireMembers proposalPayload))) hbase).1 hheight
  obtain ⟨url, payload, -, hurl, hpayload, -⟩ := hintact.decoded
  refine ⟨url, payload, hurl, hpayload, ?_⟩
  refine (hintact.presentable url payload hurl hpayload _ _ _).2
    ⟨strangersMessage, ?_, rfl, rfl, rfl⟩
  rw [knows_known]

/-- Arrays inside each other. -/
def nested : ℕ → Json
  | 0 => .arr []
  | n + 1 => .arr [nested n]

theorem height_nested (n : ℕ) : (nested n).height = n := by
  induction n with
  | zero => rfl
  | succ n ih =>
    have hitems : (nested (n + 1)).height = max ((nested n).height + 1) 0 := by
      rw [nested, Json.height, Json.itemsHeight, Json.itemsHeight]
    rw [hitems, ih, Nat.max_zero]

theorem distinct_nested (n : ℕ) : (nested n).Distinct := by
  induction n with
  | zero => exact .arr (List.forall_mem_nil _)
  | succ n ih => exact .arr (List.forall_mem_singleton.2 ih)

theorem height_wireMembers (payload : Json) :
    payload.height < (Json.obj (wireMembers payload)).height := by
  have hle := Json.membersHeight_le_iff.1 (le_refl (Json.membersHeight (wireMembers payload)))
  have hmem : (text "payload", payload) ∈ wireMembers payload := by simp [wireMembers]
  rw [Json.height]
  exact hle _ hmem

/-- A message whose payload nests too deep for canonical form gets no link. -/
theorem deep_unlinked : ¬∀ safeParse, ReadsByName safeParse → ∀ members base m,
    (Json.obj members).Distinct → unit '#' ∉ base →
      (safeParse (.ofJson (.obj members))).delivery = .message m →
        Intact Jcs.texts Sample.crypto safeParse (.obj members) base := by
  intro h
  let deep := wireMembers (nested 256)
  have hdelivery : (knows (.obj deep) strangersMessage (.ofJson (.obj deep))).delivery =
      .message strangersMessage := by rw [knows_known]
  obtain ⟨url, -, -, hurl, -⟩ := (h _ (readsByName_knows (.obj deep) strangersMessage) deep []
    strangersMessage (distinct_wireMembers (distinct_nested 256)) List.not_mem_nil
    hdelivery).decoded
  have hheight := height_wireMembers (nested 256)
  rw [height_nested] at hheight
  rw [bootstrapUrl, encodeBootstrap, canonicalBytes,
    (Jcs.canonicalize_eq_none_iff (.obj deep)).2 hheight] at hurl
  cases hurl

end Sample

end Carry

end Servanda.Links
