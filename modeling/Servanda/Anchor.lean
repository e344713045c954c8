import Mathlib.Data.Rat.Floor
import Servanda.Checks
import Servanda.Envelope
import Servanda.Ladder
import Servanda.Parse

/-!
Domain anchors: what a domain publishes of its org root, and a resolver that keeps an answer as long
as every source of it allows.
-/

namespace Servanda.Anchor

open Unicode Scan JsonRpc
open Identity (AnchorFailure)

inductive AnchorSource
  | wellKnown | dns
  deriving DecidableEq, Repr

/-- What is stated of how long an answer may be kept, in seconds. -/
inductive Ttl
  | absent | nan | infinite
  | finite (seconds : ℚ)
  deriving DecidableEq

/-- The engine and the URL schema that a well-known document is read with. -/
structure Platform where
  numerals : JsonParse.Numerals
  isUrl : Text → Bool

variable (platform : Platform)

structure DomainAnchor where
  orgRoot : Checked isHex64
  hubs : List (Checked platform.isUrl)
  deriving DecidableEq

structure AnchorHttpResponse where
  status : ℤ
  body : Text
  ttl : Ttl

structure AnchorTxtRecord where
  value : Text
  ttl : Ttl

/-- Which of the two sources a transport can be asked for. -/
structure AnchorTransport where
  fetchesWellKnown : Bool
  resolvesTxt : Bool

/-- What a transport answers during a check; an unreachable source answers nothing. -/
structure Answers where
  wellKnown : Option AnchorHttpResponse
  txt : Option (List AnchorTxtRecord)

structure AnchorResolution where
  domain : Text
  ok : Bool
  anchor : Option (DomainAnchor platform)
  sources : List AnchorSource
  reason : Option AnchorFailure
  expiresAt : Option ℤ
  checkedAt : ℤ

def isLabelUnit (u : CodeUnit) : Bool :=
  unit 'a' ≤ u && u ≤ unit 'z' || unit '0' ≤ u && u ≤ unit '9'

/-- A label of a hostname: letters, digits and inner hyphens, at most 63. -/
def isLabel (s : Text) : Bool :=
  s.length ≤ 63 && s.all (fun u ↦ isLabelUnit u || u = unit '-') && s.head?.any isLabelUnit &&
    s.getLast?.any isLabelUnit

/-- `HOSTNAME`. -/
def isAnchorableDomain (domain : Text) : Bool :=
  domain.length ≤ 253 && 2 ≤ (domain.splitOn (unit '.')).length &&
    (domain.splitOn (unit '.')).all isLabel

def anchorTxtVersion : Text := text "servanda0.1"

def maxAnchorTtlSeconds : ℤ := 86400

def ttlToExpiry (now : ℤ) : Ttl → Option ℤ
  | .finite seconds =>
    if seconds ≤ 0 then none else some (now + min ⌊seconds⌋ maxAnchorTtlSeconds * 1000)
  | _ => none

/-- A field of a TXT payload, read after others. -/
def readField (fields : List (Text × Text)) (part : Text) : Option (List (Text × Text)) :=
  let trimmed := trim part
  if trimmed = [] then some fields
  else
    let eq := trimmed.idxOf (unit '=')
    if unit '=' ∉ trimmed ∨ eq = 0 then none
    else
      let name := trim (trimmed.take eq)
      if name ∈ fields.map Prod.fst then none
      else some (fields ++ [(name, trim (trimmed.drop (eq + 1)))])

def parseAnchorTxt (value : Text) : Option (DomainAnchor platform) := do
  let fields ← (value.splitOn (unit ';')).foldlM readField []
  if fields.lookup (text "v") = some anchorTxtVersion then
    match fields.lookup (text "k") with
    | some k => if h : isHex64 k = true then some ⟨⟨k, h⟩, []⟩ else none
    | none => none
  else none

def parseHubs : List Value → Option (List (Checked platform.isUrl))
  | [] => some []
  | .str url :: rest =>
    if h : platform.isUrl url = true then (parseHubs rest).map (⟨url, h⟩ :: ·) else none
  | _ :: _ => none

def parseWellKnown (body : Text) : Option (DomainAnchor platform) :=
  match JsonParse.parse platform.numerals body with
  | some (.obj members) =>
    let document := Value.obj members
    match document.member (text "v"), document.member (text "org_root") with
    | some (.str v), some (.str root) =>
      if h : v = protocolVersion ∧ isHex64 root = true then
        match document.member (text "hubs") with
        | none => some ⟨⟨root, h.2⟩, []⟩
        | some (.arr items) => (parseHubs platform items).map fun hubs ↦ ⟨⟨root, h.2⟩, hubs⟩
        | some _ => none
      else none
    | _, _ => none
  | _ => none

/-- An anchor that a source states, with how long the source lets it be kept. -/
structure Stated where
  source : AnchorSource
  anchor : DomainAnchor platform
  ttl : Ttl

variable (transport : AnchorTransport) (domain : Text) (now : ℤ) (answers : Answers)

/-- The response of the well-known document's server, where one is asked. -/
def fetched : Option AnchorHttpResponse :=
  if transport.fetchesWellKnown then answers.wellKnown else none

def resolved : Option (List AnchorTxtRecord) :=
  if transport.resolvesTxt then answers.txt else none

def statedByDocument (res : AnchorHttpResponse) : Option (DomainAnchor platform) :=
  if res.status = 200 then parseWellKnown platform res.body else none

/-- The anchors that are found, the document's first. -/
def found : List (Stated platform) :=
  ((fetched transport answers).bind fun res ↦
      (statedByDocument platform res).map fun anchor ↦ ⟨.wellKnown, anchor, res.ttl⟩).toList ++
    ((resolved transport answers).getD []).filterMap fun record ↦
      (parseAnchorTxt platform record.value).map fun anchor ↦ ⟨.dns, anchor, record.ttl⟩

def reachedAny : Bool := (fetched transport answers).isSome || (resolved transport answers).isSome

def malformed : Bool := (fetched transport answers).any fun res ↦
  res.status = 200 && (parseWellKnown platform res.body).isNone

def sourcesOf (stated : List (Stated platform)) : List AnchorSource :=
  [.dns, .wellKnown].filter fun source ↦ source ∈ stated.map (·.source)

/-- The soonest of the expiries, where each source has one. -/
def soonest : List (Option ℤ) → Option ℤ
  | [] => none
  | [e] => e
  | e :: e' :: rest => Option.map₂ min e (soonest (e' :: rest))

def failed (reason : AnchorFailure) (sources : List AnchorSource) : AnchorResolution platform :=
  ⟨domain, false, none, sources, some reason, none, now⟩

/-- What comes of the anchors that are found. -/
def concluded : List (Stated platform) → AnchorResolution platform
  | [] =>
    if malformed platform transport answers then
      failed platform domain now .malformed
        (if reachedAny transport answers then [.wellKnown] else [])
    else failed platform domain now
      (if reachedAny transport answers then .absent else .unreachable) []
  | first :: rest =>
    if rest.any fun s ↦ s.anchor.orgRoot ≠ first.anchor.orgRoot then
      failed platform domain now .conflict (sourcesOf platform (first :: rest))
    else
      ⟨domain, true, some (((first :: rest).find? (·.source = .wellKnown)).getD first).anchor,
        sourcesOf platform (first :: rest), none,
        soonest ((first :: rest).map fun s ↦ ttlToExpiry now s.ttl), now⟩

def resolveUncached : AnchorResolution platform :=
  if isAnchorableDomain domain = false then failed platform domain now .invalidDomain []
  else if !transport.fetchesWellKnown && !transport.resolvesTxt then
    failed platform domain now .noTransport []
  else concluded platform transport domain now answers (found platform transport answers)

/-- What a check gives, and until when the resolver keeps it. -/
def check (answers : Answers) (domain : Text) (now : ℤ) : AnchorResolution platform × Option ℤ :=
  let resolution := resolveUncached platform transport domain now answers
  (resolution, if resolution.ok then resolution.expiresAt else none)

section Spec

variable {platform transport domain now answers}

/-- A source that lets an anchor be kept lets it be kept for less than its TTL and a day. -/
theorem ttlToExpiry_eq_some_iff {ttl : Ttl} {e : ℤ} : ttlToExpiry now ttl = some e ↔
    ∃ seconds, ttl = .finite seconds ∧ 0 < seconds ∧
      e = now + min ⌊seconds⌋ maxAnchorTtlSeconds * 1000 := by
  cases ttl with
  | finite seconds =>
    rw [ttlToExpiry]
    split_ifs with hpos
    · refine iff_of_false nofun ?_
      rintro ⟨_, heq, hlt, -⟩
      cases heq
      exact absurd hlt (not_lt.mpr hpos)
    · rw [Option.some.injEq, eq_comm]
      refine ⟨fun h ↦ ⟨seconds, rfl, not_le.mp hpos, h⟩, ?_⟩
      rintro ⟨_, heq, -, h⟩
      cases heq
      exact h
  | _ => exact iff_of_false nofun fun ⟨_, h, _⟩ ↦ nomatch h

/-- The soonest expiry is none after any, and there is none where one is missing. -/
theorem le_of_soonest {es : List (Option ℤ)} {e : ℤ} (h : soonest es = some e) :
    ∀ o ∈ es, ∃ e', o = some e' ∧ e ≤ e' := by
  induction es generalizing e with
  | nil => cases h
  | cons o es ih =>
    cases es with
    | nil => exact List.forall_mem_singleton.mpr ⟨e, h, le_rfl⟩
    | cons o' es =>
      rw [soonest, Option.map₂_eq_some_iff] at h
      obtain ⟨e₁, e₂, ho, hrest, rfl⟩ := h
      refine List.forall_mem_cons.mpr ⟨⟨e₁, ho, min_le_left _ _⟩, fun o'' ho'' ↦ ?_⟩
      obtain ⟨e', he', hle⟩ := ih hrest o'' ho''
      exact ⟨e', he', (min_le_right _ _).trans hle⟩

/-- What an anchored resolution is made from: anchors that state one org root, and the soonest of
their expiries. -/
structure Anchored (platform : Platform) (now : ℤ) (stated : List (Stated platform))
    (resolution : AnchorResolution platform) : Prop where
  agreed : ∃ root, ∀ s ∈ stated, s.anchor.orgRoot = root
  carried : ∃ s ∈ stated, resolution.anchor = some s.anchor
  expires : resolution.expiresAt = soonest (stated.map fun s ↦ ttlToExpiry now s.ttl)

theorem anchored_concluded {stated : List (Stated platform)}
    (h : (concluded platform transport domain now answers stated).ok = true) :
    Anchored platform now stated (concluded platform transport domain now answers stated) := by
  cases stated with
  | nil =>
    unfold concluded at h
    dsimp only at h
    split_ifs at h <;> cases h
  | cons first rest =>
    unfold concluded at h ⊢
    dsimp only at h ⊢
    split_ifs at h ⊢ with hconflict
    · cases h
    · refine ⟨⟨first.anchor.orgRoot, List.forall_mem_cons.mpr ⟨rfl, fun s hs ↦ ?_⟩⟩, ?_, rfl⟩
      · by_contra hother
        exact hconflict (List.any_eq_true.mpr ⟨s, hs, decide_eq_true hother⟩)
      · refine ⟨_, ?_, rfl⟩
        cases hprimary : (first :: rest).find? (·.source = .wellKnown) with
        | none => exact List.mem_cons_self
        | some primary => exact List.mem_of_find?_eq_some hprimary

theorem anchored_of_ok (h : (resolveUncached platform transport domain now answers).ok = true) :
    Anchored platform now (found platform transport answers)
      (resolveUncached platform transport domain now answers) := by
  unfold resolveUncached at h ⊢
  split_ifs at h ⊢
  · cases h
  · cases h
  · exact anchored_concluded h

/-- What a check lets be kept is anchored, and kept no longer than any of its sources allows. -/
theorem check_kept {keepUntil : ℤ}
    (h : (check platform transport answers domain now).2 = some keepUntil) :
    (check platform transport answers domain now).1.ok = true ∧
      ∀ s ∈ found platform transport answers, ∃ seconds, s.ttl = .finite seconds ∧ 0 < seconds ∧
        keepUntil ≤ now + min ⌊seconds⌋ maxAnchorTtlSeconds * 1000 := by
  unfold check at h ⊢
  dsimp only at h ⊢
  split_ifs at h with hok
  refine ⟨hok, fun s hs ↦ ?_⟩
  rw [(anchored_of_ok hok).expires] at h
  obtain ⟨e, he, hle⟩ := le_of_soonest h _ (List.mem_map_of_mem hs)
  obtain ⟨seconds, httl, hpos, rfl⟩ := ttlToExpiry_eq_some_iff.mp he
  exact ⟨seconds, httl, hpos, hle⟩

end Spec

section Runs

open Checks

variable {platform : Platform} {transport : AnchorTransport}

/-- A reply is what the call's own check found, or what a check not after it found that no source
lets run out before the call; a failure is never the second. -/
def Fresh (transport : AnchorTransport) (events : List (Event Text Answers ℤ))
    (r : Reply Text (AnchorResolution platform) ℤ) : Prop :=
  ∃ answers since i, .land i answers ∈ events ∧ (r.key, since) ∈ calls events ∧ since ≤ r.now ∧
    r.value = resolveUncached platform transport r.key since answers ∧
    (r.value.ok = true → Anchored platform since (found platform transport answers) r.value) ∧
    (since = r.now ∨ r.value.ok = true ∧ ∀ s ∈ found platform transport answers, ∃ seconds,
      s.ttl = .finite seconds ∧ 0 < seconds ∧
        r.now - since < min ⌊seconds⌋ maxAnchorTtlSeconds * 1000)

/-- Calls of the resolver one after another. -/
def resolveAll (platform : Platform) (transport : AnchorTransport)
    (s : State Text (AnchorResolution platform) ℤ) (calls : List (Text × ℤ × Answers)) :
    State Text (AnchorResolution platform) ℤ :=
  calls.foldl (fun s c ↦ (s.resolve (check platform transport) c.1 c.2.1 c.2.2).1) s

/-- Calls one after another are one of the orders. -/
theorem resolveAll_eq_run (s : State Text (AnchorResolution platform) ℤ)
    (resolved : List (Text × ℤ × Answers)) :
    ∃ events, calls events = resolved.map (fun c ↦ (c.1, c.2.1)) ∧
      (s.run (check platform transport) events).1 = resolveAll platform transport s resolved := by
  induction resolved generalizing s with
  | nil => exact ⟨[], rfl, rfl⟩
  | cons c resolved ih =>
    obtain ⟨alone, hcall, hrun, -⟩ :=
      State.resolve_eq_run (check platform transport) s c.1 c.2.1 c.2.2
    obtain ⟨events, hcalls, hruns⟩ := ih (s.resolve (check platform transport) c.1 c.2.1 c.2.2).1
    refine ⟨alone ++ events, ?_, ?_⟩
    · rw [calls_append, hcall, hcalls]
      rfl
    · rw [State.run_append, hrun, hruns]
      rfl

theorem kept_resolveAll {s : State Text (AnchorResolution platform) ℤ}
    (h : s.Kept (check platform transport)) (calls : List (Text × ℤ × Answers)) :
    (resolveAll platform transport s calls).Kept (check platform transport) := by
  induction calls generalizing s with
  | nil => exact h
  | cons c calls ih => exact ih (h.resolve c.1 c.2.1 c.2.2)

theorem cached_resolveAll {domain : Text} {s : State Text (AnchorResolution platform) ℤ}
    {calls : List (Text × ℤ × Answers)} (h : ∀ c ∈ calls, c.1 ≠ domain) :
    (resolveAll platform transport s calls).cached domain = s.cached domain := by
  induction calls generalizing s with
  | nil => rfl
  | cons c calls ih =>
    obtain ⟨hc, hcalls⟩ := List.forall_mem_cons.mp h
    exact (ih hcalls).trans (State.resolve_cached_of_ne hc.symm)

/-- A failure, a conflict or an anchor that some source does not let be kept is forgotten: the next
call for the domain checks again. -/
theorem resolve_rechecks (before between : List (Text × ℤ × Answers)) (domain : Text) (now now' : ℤ)
    (answers answers' : Answers) :
    let s := resolveAll platform transport State.empty before
    let resolution := (s.resolve (check platform transport) domain now answers).2
    let s' := resolveAll platform transport
      (s.resolve (check platform transport) domain now answers).1 between
    (resolution.ok = false ∨ resolution.expiresAt = none) → (∀ c ∈ between, c.1 ≠ domain) →
      (s'.resolve (check platform transport) domain now' answers').2 =
        resolveUncached platform transport domain now' answers' := by
  intro s resolution s' hunkept hbetween
  have hkept : s.Kept (check platform transport) := kept_resolveAll .empty before
  have hnone : (s.resolve (check platform transport) domain now answers).1.cached domain = none := by
    refine hkept.resolve_cached fun answers'' since keepUntil hcheck ↦ ?_
    obtain ⟨hvalue, hkeep⟩ := Prod.mk.inj hcheck
    rw [hvalue] at hkeep
    split_ifs at hkeep with hok
    obtain hfailed | hforever := hunkept
    · exact absurd hok (by rw [hfailed]; decide)
    · rw [hforever] at hkeep
      cases hkeep
  exact State.resolve_of_none ((cached_resolveAll hbetween).trans hnone)

end Runs

namespace Sample

open Checks

def noUrls : Platform := ⟨fun _ ↦ none, fun _ ↦ false⟩

def dnsOnly : AnchorTransport := ⟨false, true⟩

def site : Text := text "a.b"

def published : Answers :=
  ⟨none, some [⟨text "v=servanda0.1; k=" ++ List.replicate 64 (unit '0'), .finite 60⟩]⟩

def silent : Answers := ⟨none, none⟩

theorem published_kept : (check noUrls dnsOnly published site 0).2 = some 60000 := by
  decide +kernel

theorem resolve_rechecks_silent :
    ((resolveAll noUrls dnsOnly
      (State.empty.resolve (check noUrls dnsOnly) site 0 silent).1 [(text "b.c", 1, silent)]).resolve
        (check noUrls dnsOnly) site 2 published).2 =
      resolveUncached noUrls dnsOnly site 2 published :=
  resolve_rechecks [] [(text "b.c", 1, silent)] site 0 2 silent published
    (.inl (by decide +kernel)) (List.forall_mem_singleton.mpr (by decide +kernel))

end Sample

end Servanda.Anchor
