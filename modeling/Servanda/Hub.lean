import Mathlib.Logic.Function.Basic
import Servanda.Envelope
import Servanda.Expiry
import Servanda.Scan
import Servanda.Signing

/-!
A hub over whole runs of its calls: who opens an inbox, with which challenge, and what is in it.
-/

namespace Servanda.Hub

open Unicode Scan JsonRpc Signing

def isHex128 (s : Text) : Bool := s.length == 128 && s.all isHexUnit

def isHexText (s : Text) : Bool := !s.isEmpty && s.all isHexUnit

def isLong (s : Text) : Bool := 16 ≤ s.length

/-- A member whose text the schema accepts. -/
def checked (schema : Text → Bool) (v : Value) (key : Text) : Option (Checked schema) :=
  match v.member key with
  | some (.str s) => if h : schema s = true then some ⟨s, h⟩ else none
  | _ => none

def isLiteral (v : Value) (key s : Text) : Bool :=
  match v.member key with
  | some (.str t) => t = s
  | _ => false

/-- `strict()`. -/
def hasOnly (fields : List Text) : Value → Bool
  | .obj members => members.all fun m ↦ m.1 ∈ fields
  | _ => false

structure Sealed where
  epk : Checked isHex64
  ciphertext : Checked isHexText
  deriving DecidableEq

def Sealed.parse (v : Value) : Option Sealed := do
  guard (isLiteral v (text "v") protocolVersion)
  let epk ← checked isHex64 v (text "epk")
  let ciphertext ← checked isHexText v (text "ciphertext")
  guard (hasOnly [text "v", text "epk", text "ciphertext"] v)
  some { epk, ciphertext }

structure HubEnvelope where
  recipient : Checked isHex64
  envelope : Sealed
  sentAt : Checked isRfc3339
  deriving DecidableEq

/-- What a hub is permitted to see. -/
def hubVisibleFields : List Text :=
  [text "v", text "type", text "recipient", text "sealed", text "sent_at"]

def HubEnvelope.parse (raw : Value) : Option HubEnvelope := do
  guard (isLiteral raw (text "v") protocolVersion)
  guard (isLiteral raw (text "type") (text "hub_envelope"))
  let recipient ← checked isHex64 raw (text "recipient")
  let envelope ← (raw.member (text "sealed")).bind Sealed.parse
  let sentAt ← checked isRfc3339 raw (text "sent_at")
  guard (hasOnly hubVisibleFields raw)
  some { recipient, envelope, sentAt }

structure InboxAuth where
  persona : Checked isHex64
  audience : Checked isNonempty
  challenge : Checked isLong
  issuedAt : Checked isRfc3339
  sig : Checked isHex128

def InboxAuth.parse (auth : Value) : Option InboxAuth := do
  guard (isLiteral auth (text "v") protocolVersion)
  guard (isLiteral auth (text "type") (text "inbox_auth"))
  let persona ← checked isHex64 auth (text "persona")
  let audience ← checked isNonempty auth (text "audience")
  let challenge ← checked isLong auth (text "challenge")
  let issuedAt ← checked isRfc3339 auth (text "issued_at")
  let sig ← checked isHex128 auth (text "sig")
  some { persona, audience, challenge, issuedAt, sig }

/-- The object whose signature is checked: the schema's members and no others. -/
def InboxAuth.toObject (a : InboxAuth) : List (Text × Value) :=
  [(text "v", .str protocolVersion), (text "type", .str (text "inbox_auth")),
    (text "persona", .str a.persona.val), (text "audience", .str a.audience.val),
    (text "challenge", .str a.challenge.val), (text "issued_at", .str a.issuedAt.val),
    (text "sig", .str a.sig.val)]

/-- An envelope with the instant it was received at, in milliseconds. -/
structure StoredEnvelope where
  envelope : HubEnvelope
  receivedAt : ℤ
  deriving DecidableEq

inductive HubRejection
  | unseenField
  | noSignedChallenge
  | anotherPersona
  | anotherAudience (audience : Text)
  | challengeUnknownOrSpent
  | signatureDoesNotVerify
  deriving DecidableEq

/-- The maps of the hub: no list under a persona is the empty one. The time it keeps an envelope is
in milliseconds. -/
structure MemoryHub where
  queue : Text → List StoredEnvelope
  challenges : Text → Option Text
  baseUrl : Text
  ttlMs : ℚ

namespace MemoryHub

def new (baseUrl : Text) (ttlMs : ℚ) : MemoryHub := ⟨fun _ ↦ [], fun _ ↦ none, baseUrl, ttlMs⟩

def deliver (hub : MemoryHub) (raw : Value) (now : ℤ) : MemoryHub × Except HubRejection Unit :=
  match HubEnvelope.parse raw with
  | none => (hub, .error .unseenField)
  | some envelope =>
    let list := hub.queue envelope.recipient.val ++ [⟨envelope, now⟩]
    ({ hub with queue := Function.update hub.queue envelope.recipient.val list }, .ok ())

def challenge (hub : MemoryHub) (persona nonce : Text) : MemoryHub :=
  { hub with challenges := Function.update hub.challenges persona (some nonce) }

def expire (hub : MemoryHub) (now : ℤ) : MemoryHub :=
  { hub with queue := fun persona ↦
      (hub.queue persona).filter (Expiry.fresh hub.ttlMs StoredEnvelope.receivedAt now) }

variable {Digest : Type} (sha256 : List UInt8 → Digest) (verify : Text → Digest → Text → Bool)

def inbox (hub : MemoryHub) (persona : Text) (auth : Value) (now : ℤ) :
    MemoryHub × Except HubRejection (List HubEnvelope) :=
  match InboxAuth.parse auth with
  | none => (hub, .error .noSignedChallenge)
  | some a =>
    if a.persona.val ≠ persona then (hub, .error .anotherPersona)
    else if a.audience.val ≠ hub.baseUrl then (hub, .error (.anotherAudience a.audience.val))
    else if hub.challenges persona ≠ some a.challenge.val then
      (hub, .error .challengeUnknownOrSpent)
    else if !verifyObject sha256 verify a.toObject persona then
      (hub, .error .signatureDoesNotVerify)
    else
      let spent := { hub with challenges := Function.update hub.challenges persona none }
      let hub := spent.expire now
      (hub, .ok ((hub.queue persona).map StoredEnvelope.envelope))

end MemoryHub

/-- A call on a hub, with the nonce or the instant that the hub reads for it. -/
inductive Call
  | challenge (persona nonce : Text)
  | deliver (raw : Value) (now : ℤ)
  | inbox (persona : Text) (auth : Value) (now : ℤ)

inductive Answer
  | nonce (value : Text)
  | delivered (result : Except HubRejection Unit)
  | inbox (result : Except HubRejection (List HubEnvelope))

abbrev Event := Call × Answer

section Runs

variable {Digest : Type} (sha256 : List UInt8 → Digest) (verify : Text → Digest → Text → Bool)

def perform (hub : MemoryHub) : Call → MemoryHub × Answer
  | .challenge persona nonce => (hub.challenge persona nonce, .nonce nonce)
  | .deliver raw now => (hub.deliver raw now).map id .delivered
  | .inbox persona auth now => (hub.inbox sha256 verify persona auth now).map id .inbox

/-- The hub a sequence of calls leaves, and what has been called and answered. -/
def run (hub : MemoryHub) (calls : List Call) : MemoryHub × List Event :=
  calls.foldl (fun acc call ↦
    let (hub, answer) := perform sha256 verify acc.1 call
    (hub, acc.2 ++ [(call, answer)])) (hub, [])

end Runs

def nonces (calls : List Call) : List Text := calls.filterMap fun
  | .challenge _ nonce => some nonce
  | _ => none

/-- The challenges issued for a persona, in order. -/
def issued (persona : Text) (history : List Event) : List Text := history.filterMap fun
  | (.challenge p nonce, _) => if p = persona then some nonce else none
  | _ => none

/-- The challenges that successful calls have carried. -/
def spent (history : List Event) : List Text := history.filterMap fun
  | (.inbox _ auth _, .inbox (.ok _)) => (InboxAuth.parse auth).map (·.challenge.val)
  | _ => none

/-- What happens to the queue of a persona: an accepted delivery for it arrives, and a successful
call, whosever it is, sweeps. -/
def traffic (persona : Text) (history : List Event) : List (Expiry.Event StoredEnvelope) :=
  history.filterMap fun
    | (.deliver raw now, .delivered (.ok _)) => (HubEnvelope.parse raw).bind fun envelope ↦
        if envelope.recipient.val = persona then some (.arrive ⟨envelope, now⟩) else none
    | (.inbox _ _ now, .inbox (.ok _)) => some (.sweep now)
    | _ => none

/-- The envelopes delivered for a persona, in order. -/
def delivered (persona : Text) (history : List Event) : List StoredEnvelope :=
  Expiry.arrivals (traffic persona history)

section Histories

variable {p persona nonce : Text} {history : List Event} {call : Call} {answer : Answer}
  {result : Except HubRejection (List HubEnvelope)}

theorem issued_snoc : issued p (history ++ [(call, answer)]) =
    issued p history ++ issued p [(call, answer)] := List.filterMap_append

theorem spent_snoc : spent (history ++ [(call, answer)]) = spent history ++ spent [(call, answer)] :=
  List.filterMap_append

theorem traffic_snoc : traffic p (history ++ [(call, answer)]) =
    traffic p history ++ traffic p [(call, answer)] := List.filterMap_append

/-- A challenge is issued in one call for the persona. -/
theorem mem_issued {c : Text} : c ∈ issued p history ↔
    ∃ answer, (Call.challenge p c, answer) ∈ history := by
  simp only [issued, List.mem_filterMap]
  constructor
  · rintro ⟨⟨call, answer⟩, hmem, h⟩
    cases call with
    | challenge q nonce =>
      obtain ⟨rfl, hnonce⟩ := Option.ite_none_right_eq_some.mp h
      obtain rfl := Option.some.inj hnonce
      exact ⟨answer, hmem⟩
    | deliver raw now => cases h
    | inbox persona auth now => cases h
  · rintro ⟨answer, hmem⟩
    exact ⟨_, hmem, if_pos rfl⟩

theorem mem_nonces {calls : List Call} {c : Text} : c ∈ nonces calls ↔
    ∃ persona, Call.challenge persona c ∈ calls := by
  simp only [nonces, List.mem_filterMap]
  constructor
  · rintro ⟨call, hmem, h⟩
    cases call with
    | challenge persona nonce =>
      obtain rfl := Option.some.inj h
      exact ⟨persona, hmem⟩
    | deliver raw now => cases h
    | inbox persona auth now => cases h
  · rintro ⟨persona, hmem⟩
    exact ⟨_, hmem, rfl⟩

/-- Where nonces never repeat, a challenge is of one persona. -/
theorem persona_unique {calls : List Call} (hnonces : (nonces calls).Nodup) {q c : Text}
    (hp : Call.challenge p c ∈ calls) (hq : Call.challenge q c ∈ calls) : p = q := by
  induction calls with
  | nil => cases hp
  | cons call calls ih =>
    cases call with
    | deliver raw now => exact ih hnonces (by simpa using hp) (by simpa using hq)
    | inbox persona auth now => exact ih hnonces (by simpa using hp) (by simpa using hq)
    | challenge persona nonce =>
      have hcons : nonces (.challenge persona nonce :: calls) = nonce :: nonces calls := rfl
      rw [hcons, List.nodup_cons] at hnonces
      obtain ⟨hfresh, hrest⟩ := hnonces
      obtain hp' | hp' := List.mem_cons.mp hp <;> obtain hq' | hq' := List.mem_cons.mp hq
      · cases hp'
        cases hq'
        rfl
      · cases hp'
        exact (hfresh (mem_nonces.mpr ⟨q, hq'⟩)).elim
      · cases hq'
        exact (hfresh (mem_nonces.mpr ⟨p, hp'⟩)).elim
      · exact ih hrest hp' hq'

end Histories

section Inbox

variable {Digest : Type} {sha256 : List UInt8 → Digest} {verify : Text → Digest → Text → Bool}
  {hub hub' : MemoryHub} {persona : Text} {auth : Value} {now : ℤ}

/-- What an authentication says where it opens an inbox. -/
structure Opens (sha256 : List UInt8 → Digest) (verify : Text → Digest → Text → Bool)
    (hub : MemoryHub) (persona : Text) (auth : Value) (a : InboxAuth) : Prop where
  parsed : InboxAuth.parse auth = some a
  named : a.persona.val = persona
  addressed : a.audience.val = hub.baseUrl
  challenge : hub.challenges persona = some a.challenge.val
  signed : verifyObject sha256 verify a.toObject persona = true

/-- A call opens the inbox, spends its challenge and sweeps, or it leaves the hub as it was. -/
theorem inbox_cases :
    (∃ a, Opens sha256 verify hub persona auth a ∧ hub.inbox sha256 verify persona auth now =
      (({ hub with challenges := Function.update hub.challenges persona none }).expire now,
        .ok (((hub.expire now).queue persona).map StoredEnvelope.envelope))) ∨
    ∃ reason, hub.inbox sha256 verify persona auth now = (hub, .error reason) := by
  unfold MemoryHub.inbox
  cases hparsed : InboxAuth.parse auth with
  | none => exact .inr ⟨_, rfl⟩
  | some a =>
    dsimp only
    by_cases hpersona : a.persona.val = persona
    · by_cases haudience : a.audience.val = hub.baseUrl
      · by_cases hchallenge : hub.challenges persona = some a.challenge.val
        · cases hsigned : verifyObject sha256 verify a.toObject persona with
          | true =>
            refine .inl ⟨a, ⟨hparsed, hpersona, haudience, hchallenge, hsigned⟩, ?_⟩
            rw [if_neg (not_not.mpr hpersona), if_neg (not_not.mpr haudience),
              if_neg (not_not.mpr hchallenge)]
            rfl
          | false =>
            refine .inr ⟨.signatureDoesNotVerify, ?_⟩
            rw [if_neg (not_not.mpr hpersona), if_neg (not_not.mpr haudience),
              if_neg (not_not.mpr hchallenge)]
            rfl
        · refine .inr ⟨.challengeUnknownOrSpent, ?_⟩
          rw [if_neg (not_not.mpr hpersona), if_neg (not_not.mpr haudience), if_pos hchallenge]
      · refine .inr ⟨.anotherAudience a.audience.val, ?_⟩
        rw [if_neg (not_not.mpr hpersona), if_pos haudience]
    · exact .inr ⟨.anotherPersona, if_pos hpersona⟩

end Inbox

/-- What the maps of a hub hold after the calls made on it. -/
structure Invariant (baseUrl : Text) (ttlMs : ℚ) (history : List Event) (hub : MemoryHub) :
    Prop where
  url : hub.baseUrl = baseUrl
  ttl : hub.ttlMs = ttlMs
  queue : ∀ p, hub.queue p = Expiry.queue ttlMs StoredEnvelope.receivedAt (traffic p history)
  latest : ∀ p c, hub.challenges p = some c → (issued p history).getLast? = some c
  unspent : ∀ p c, hub.challenges p = some c → c ∉ spent history
  spent : ∀ c ∈ spent history, c ∈ nonces (history.map Prod.fst)

section Run

variable {Digest : Type} {sha256 : List UInt8 → Digest} {verify : Text → Digest → Text → Bool}
  {baseUrl : Text} {ttlMs : ℚ} {history : List Event} {hub : MemoryHub} {calls : List Call}

theorem Invariant.new : Invariant baseUrl ttlMs [] (.new baseUrl ttlMs) where
  url := rfl
  ttl := rfl
  queue _ := rfl
  latest _ _ h := nomatch h
  unspent _ _ _ := List.not_mem_nil
  spent _ h := nomatch h

theorem Invariant.issued (h : Invariant baseUrl ttlMs history hub) {p c : Text}
    (hc : hub.challenges p = some c) : Call.challenge p c ∈ history.map Prod.fst := by
  obtain ⟨answer, hmem⟩ := mem_issued.mp (List.mem_of_getLast? (h.latest p c hc))
  exact List.mem_map_of_mem hmem

theorem mem_nonces_snoc {c : Text} {event : Event} (h : c ∈ nonces (history.map Prod.fst)) :
    c ∈ nonces ((history ++ [event]).map Prod.fst) := by
  obtain ⟨q, hq⟩ := mem_nonces.mp h
  rw [List.map_append]
  exact mem_nonces.mpr ⟨q, List.mem_append_left _ hq⟩

theorem Invariant.challenge (h : Invariant baseUrl ttlMs history hub) {persona nonce : Text}
    (hfresh : nonce ∉ nonces (history.map Prod.fst)) :
    Invariant baseUrl ttlMs (history ++ [(.challenge persona nonce, .nonce nonce)])
      (hub.challenge persona nonce) := by
  have hissued (p : Text) : Hub.issued p [(.challenge persona nonce, .nonce nonce)] =
      if persona = p then [nonce] else [] := by
    by_cases hp : persona = p <;> simp [Hub.issued, hp]
  have hspent : Hub.spent [(.challenge persona nonce, .nonce nonce)] = [] := rfl
  have hself : (hub.challenge persona nonce).challenges persona = some nonce :=
    Function.update_self ..
  have hother {p : Text} (hp : persona ≠ p) :
      (hub.challenge persona nonce).challenges p = hub.challenges p :=
    Function.update_of_ne hp.symm ..
  refine ⟨h.url, h.ttl, fun p ↦ ?_, fun p c hc ↦ ?_, fun p c hc ↦ ?_, fun c hc ↦ ?_⟩
  · rw [traffic_snoc]
    simpa [MemoryHub.challenge, traffic] using h.queue p
  · rw [issued_snoc, hissued]
    by_cases hp : persona = p
    · subst hp
      rw [hself] at hc
      simpa using hc
    · rw [hother hp] at hc
      simpa [hp] using h.latest p c hc
  · rw [spent_snoc, hspent, List.append_nil]
    by_cases hp : persona = p
    · subst hp
      rw [hself] at hc
      obtain rfl := Option.some.inj hc
      exact fun hmem ↦ hfresh (h.spent _ hmem)
    · rw [hother hp] at hc
      exact h.unspent p c hc
  · rw [spent_snoc, hspent, List.append_nil] at hc
    exact mem_nonces_snoc (h.spent c hc)

/-- A call that issues no challenge and spends none. -/
theorem Invariant.quiet (h : Invariant baseUrl ttlMs history hub) {hub' : MemoryHub} {event : Event}
    (hissued : ∀ p, Hub.issued p [event] = []) (hspent : Hub.spent [event] = [])
    (hkept : hub' = { hub with queue := hub'.queue })
    (hqueue : ∀ p, hub'.queue p =
      Expiry.queue ttlMs StoredEnvelope.receivedAt (traffic p (history ++ [event]))) :
    Invariant baseUrl ttlMs (history ++ [event]) hub' := by
  have hchallenges : hub'.challenges = hub.challenges := by rw [hkept]
  refine ⟨?_, ?_, hqueue, fun p c hc ↦ ?_, fun p c hc ↦ ?_, fun c hc ↦ ?_⟩
  · rw [hkept]
    exact h.url
  · rw [hkept]
    exact h.ttl
  · rw [issued_snoc, hissued, List.append_nil]
    exact h.latest p c (hchallenges ▸ hc)
  · rw [spent_snoc, hspent, List.append_nil]
    exact h.unspent p c (hchallenges ▸ hc)
  · rw [spent_snoc, hspent, List.append_nil] at hc
    exact mem_nonces_snoc (h.spent c hc)

theorem Invariant.deliver (h : Invariant baseUrl ttlMs history hub) (raw : Value) (now : ℤ) :
    Invariant baseUrl ttlMs (history ++ [(.deliver raw now, .delivered (hub.deliver raw now).2)])
      (hub.deliver raw now).1 := by
  unfold MemoryHub.deliver
  cases hparsed : HubEnvelope.parse raw with
  | none =>
    refine h.quiet (fun _ ↦ rfl) rfl rfl fun p ↦ ?_
    rw [traffic_snoc]
    simpa [traffic] using h.queue p
  | some envelope =>
    refine h.quiet (fun _ ↦ rfl) rfl rfl fun p ↦ ?_
    rw [traffic_snoc]
    by_cases hp : envelope.recipient.val = p
    · subst hp
      have hone : traffic envelope.recipient.val [(.deliver raw now, .delivered (.ok ()))] =
          [.arrive ⟨envelope, now⟩] := by simp [traffic, hparsed]
      dsimp only
      rw [hone, Expiry.queue_snoc, Function.update_self, ← h.queue]
      rfl
    · have hnone : traffic p [(.deliver raw now, .delivered (.ok ()))] = [] := by
        simp [traffic, hparsed, hp]
      dsimp only
      rw [hnone, List.append_nil, Function.update_of_ne (Ne.symm hp)]
      exact h.queue p

theorem Invariant.inbox (h : Invariant baseUrl ttlMs history hub)
    (hnonces : (nonces (history.map Prod.fst)).Nodup) (persona : Text) (auth : Value) (now : ℤ) :
    Invariant baseUrl ttlMs
      (history ++ [(.inbox persona auth now, .inbox (hub.inbox sha256 verify persona auth now).2)])
      (hub.inbox sha256 verify persona auth now).1 := by
  obtain ⟨a, hopens, hopened⟩ | ⟨reason, hrejected⟩ :=
    @inbox_cases Digest sha256 verify hub persona auth now
  · rw [hopened]
    have hissued (p : Text) (result : Except HubRejection (List HubEnvelope)) :
        Hub.issued p [(.inbox persona auth now, .inbox result)] = [] := rfl
    have hspent (envelopes : List HubEnvelope) :
        Hub.spent [(.inbox persona auth now, .inbox (.ok envelopes))] = [a.challenge.val] := by
      simp [Hub.spent, hopens.parsed]
    have hother {p c : Text}
        (hc : Function.update hub.challenges persona none p = some c) :
        p ≠ persona ∧ hub.challenges p = some c := by
      by_cases hp : p = persona
      · subst hp
        rw [Function.update_self] at hc
        cases hc
      · rw [Function.update_of_ne hp] at hc
        exact ⟨hp, hc⟩
    refine ⟨h.url, h.ttl, fun p ↦ ?_, fun p c hc ↦ ?_, fun p c hc ↦ ?_, fun c hc ↦ ?_⟩
    · have hone (envelopes : List HubEnvelope) :
          traffic p [(.inbox persona auth now, .inbox (.ok envelopes))] = [.sweep now] := rfl
      rw [traffic_snoc, hone, Expiry.queue_snoc, ← h.queue, ← h.ttl]
      rfl
    · rw [issued_snoc, hissued, List.append_nil]
      exact h.latest p c (hother hc).2
    · -- Another persona's challenge is another nonce than the one that is spent.
      obtain ⟨hp, hc⟩ := hother hc
      rw [spent_snoc, hspent, List.mem_append, List.mem_singleton]
      rintro (hspent | rfl)
      · exact h.unspent p c hc hspent
      · exact hp (persona_unique hnonces (h.issued hc) (h.issued hopens.challenge))
    · rw [spent_snoc, hspent, List.mem_append, List.mem_singleton] at hc
      refine mem_nonces_snoc ?_
      obtain hc | rfl := hc
      · exact h.spent c hc
      · exact mem_nonces.mpr ⟨persona, h.issued hopens.challenge⟩
  · rw [hrejected]
    refine h.quiet (fun _ ↦ rfl) rfl rfl fun p ↦ ?_
    rw [traffic_snoc]
    simpa [traffic] using h.queue p

theorem run_snoc (call : Call) : run sha256 verify hub (calls ++ [call]) =
    ((perform sha256 verify (run sha256 verify hub calls).1 call).1,
      (run sha256 verify hub calls).2 ++
        [(call, (perform sha256 verify (run sha256 verify hub calls).1 call).2)]) := by
  simp [run]

theorem map_fst_run : (run sha256 verify hub calls).2.map Prod.fst = calls := by
  induction calls using List.reverseRecOn with
  | nil => rfl
  | append_singleton calls call ih =>
    rw [run_snoc, List.map_append, ih]
    rfl

/-- What one call preserves, a run of calls preserves. -/
theorem Invariant.run (hnonces : (nonces calls).Nodup) :
    Invariant baseUrl ttlMs (Hub.run sha256 verify (.new baseUrl ttlMs) calls).2
      (Hub.run sha256 verify (.new baseUrl ttlMs) calls).1 := by
  induction calls using List.reverseRecOn with
  | nil => exact .new
  | append_singleton calls call ih =>
    have hsplit : nonces (calls ++ [call]) = nonces calls ++ nonces [call] :=
      List.filterMap_append
    rw [hsplit, List.nodup_append] at hnonces
    obtain ⟨hbefore, -, hfresh⟩ := hnonces
    have h := ih hbefore
    rw [run_snoc]
    cases call with
    | challenge persona nonce =>
      refine h.challenge ?_
      rw [map_fst_run]
      exact fun hmem ↦ hfresh nonce hmem nonce (List.mem_singleton_self _) rfl
    | deliver raw now => exact h.deliver raw now
    | inbox persona auth now =>
      refine h.inbox ?_ persona auth now
      rwa [map_fst_run]

theorem recipient_of_arrive {persona : Text} {s : StoredEnvelope}
    (h : .arrive s ∈ traffic persona history) : s.envelope.recipient.val = persona := by
  obtain ⟨⟨call, answer⟩, -, h⟩ := List.mem_filterMap.mp h
  cases call with
  | challenge p nonce => cases h
  | inbox p auth now =>
    cases answer with
    | inbox result => cases result <;> cases h
    | nonce value => cases h
    | delivered result => cases h
  | deliver raw now =>
    cases answer with
    | nonce value => cases h
    | inbox result => cases h
    | delivered result =>
      cases result with
      | error reason => cases h
      | ok _ =>
        obtain ⟨envelope, -, hone⟩ := Option.bind_eq_some_iff.mp h
        obtain ⟨hrecipient, hstored⟩ := Option.ite_none_right_eq_some.mp hone
        cases hstored
        exact hrecipient

/-- How a hub answers, after all that it has been called before. -/
structure Guarded (sha256 : List UInt8 → Digest) (verify : Text → Digest → Text → Bool)
    (baseUrl : Text) (ttlMs : ℚ) (history : List Event) (hub : MemoryHub) : Prop where
  /-- An inbox opens for the holder's signature over this hub's address and the latest challenge,
  which no call has opened one with before. -/
  opens : ∀ persona auth now hub' envelopes,
    hub.inbox sha256 verify persona auth now = (hub', .ok envelopes) →
      ∃ a, InboxAuth.parse auth = some a ∧ a.persona.val = persona ∧ a.audience.val = baseUrl ∧
        verifyObject sha256 verify a.toObject persona = true ∧
        (issued persona history).getLast? = some a.challenge.val ∧ a.challenge.val ∉ spent history
  /-- It holds what was delivered and what no call that opened one has found too old since. -/
  returns : ∀ persona auth now hub' envelopes,
    hub.inbox sha256 verify persona auth now = (hub', .ok envelopes) →
      envelopes = (Expiry.kept ttlMs StoredEnvelope.receivedAt
        (traffic persona history ++ [.sweep now])).map StoredEnvelope.envelope
  /-- That is what is not too old now, unless the clock has run back. -/
  steady : ∀ persona auth now hub' envelopes,
    hub.inbox sha256 verify persona auth now = (hub', .ok envelopes) →
      (∀ earlier, .sweep earlier ∈ traffic persona history → earlier ≤ now) →
        envelopes = ((delivered persona history).filter
          (Expiry.fresh ttlMs StoredEnvelope.receivedAt now)).map StoredEnvelope.envelope
  own : ∀ persona auth now hub' envelopes,
    hub.inbox sha256 verify persona auth now = (hub', .ok envelopes) →
      ∀ e ∈ envelopes, e.recipient.val = persona
  refused : ∀ persona auth now hub' reason,
    hub.inbox sha256 verify persona auth now = (hub', .error reason) → hub' = hub
  keeps : ∀ call persona, ∀ s ∈ hub.queue persona,
    s ∈ (perform sha256 verify hub call).1.queue persona ∨ ∃ p auth now,
      call = .inbox p auth now ∧ Expiry.fresh ttlMs StoredEnvelope.receivedAt now s = false

theorem Invariant.returned (h : Invariant baseUrl ttlMs history hub) {persona : Text} {auth : Value}
    {now : ℤ} {hub' : MemoryHub} {envelopes : List HubEnvelope}
    (hopened : hub.inbox sha256 verify persona auth now = (hub', .ok envelopes)) :
    envelopes = (Expiry.queue ttlMs StoredEnvelope.receivedAt
      (traffic persona history ++ [.sweep now])).map StoredEnvelope.envelope := by
  obtain ⟨a, -, h'⟩ | ⟨reason, h'⟩ := @inbox_cases Digest sha256 verify hub persona auth now
  · rw [h'] at hopened
    cases hopened
    rw [Expiry.queue_snoc, ← h.queue, ← h.ttl]
    rfl
  · rw [h'] at hopened
    cases hopened

theorem Invariant.guarded (h : Invariant baseUrl ttlMs history hub) :
    Guarded sha256 verify baseUrl ttlMs history hub where
  opens persona auth now hub' envelopes hopened := by
    obtain ⟨a, hopens, -⟩ | ⟨reason, h'⟩ := @inbox_cases Digest sha256 verify hub persona auth now
    · exact ⟨a, hopens.parsed, hopens.named, hopens.addressed.trans h.url, hopens.signed,
        h.latest _ _ hopens.challenge, h.unspent _ _ hopens.challenge⟩
    · rw [h'] at hopened
      cases hopened
  returns persona auth now hub' envelopes hopened := by
    rw [h.returned hopened, Expiry.queue_eq_kept]
  steady persona auth now hub' envelopes hopened hclock := by
    rw [h.returned hopened, Expiry.queue_sweep hclock]
    rfl
  own persona auth now hub' envelopes hopened e he := by
    rw [h.returned hopened, Expiry.queue_eq_kept] at he
    obtain ⟨s, hs, rfl⟩ := List.mem_map.mp he
    have harrived : .arrive s ∈ traffic persona history := by
      simpa using Expiry.arrived_of_mem_kept hs
    exact recipient_of_arrive harrived
  refused persona auth now hub' reason hrefused := by
    obtain ⟨a, -, h'⟩ | ⟨_, h'⟩ := @inbox_cases Digest sha256 verify hub persona auth now
    · rw [h'] at hrefused
      cases hrefused
    · rw [h'] at hrefused
      cases hrefused
      rfl
  keeps call persona s hs := by
    cases call with
    | challenge p nonce => exact .inl hs
    | deliver raw now =>
      left
      simp only [perform, MemoryHub.deliver, Prod.map]
      cases HubEnvelope.parse raw with
      | none => exact hs
      | some envelope =>
        dsimp only [id]
        by_cases hp : persona = envelope.recipient.val
        · subst hp
          rw [Function.update_self]
          exact List.mem_append_left _ hs
        · rwa [Function.update_of_ne hp]
    | inbox p auth now =>
      obtain ⟨a, -, h'⟩ | ⟨_, h'⟩ := @inbox_cases Digest sha256 verify hub p auth now
      · cases hfresh : Expiry.fresh ttlMs StoredEnvelope.receivedAt now s with
        | false => exact .inr ⟨p, auth, now, rfl, hfresh⟩
        | true =>
          left
          simp only [perform, h', Prod.map]
          exact List.mem_filter.mpr ⟨hs, h.ttl ▸ hfresh⟩
      · left
        simp only [perform, h', Prod.map]
        exact hs

/-- A hub guards its inboxes after any calls whose nonces never repeat. -/
theorem inboxes_guarded (baseUrl : Text) (ttlMs : ℚ) (hnonces : (nonces calls).Nodup) :
    Guarded sha256 verify baseUrl ttlMs (run sha256 verify (.new baseUrl ttlMs) calls).2
      (run sha256 verify (.new baseUrl ttlMs) calls).1 := (Invariant.run hnonces).guarded

end Run

section Calls

variable {Digest : Type} {sha256 : List UInt8 → Digest} {verify : Text → Digest → Text → Bool}
  {hub : MemoryHub} {persona : Text} {auth : Value} {now : ℤ} {calls more : List Call}

/-- The call issues the persona a challenge or answers one. -/
def Touches (persona : Text) : Call → Prop
  | .challenge p _ => p = persona
  | .deliver _ _ => False
  | .inbox p _ _ => p = persona

theorem inbox_of_opens {a : InboxAuth} (h : Opens sha256 verify hub persona auth a) :
    hub.inbox sha256 verify persona auth now =
      (({ hub with challenges := Function.update hub.challenges persona none }).expire now,
        .ok (((hub.expire now).queue persona).map StoredEnvelope.envelope)) := by
  simp only [MemoryHub.inbox, h.parsed]
  rw [if_neg (not_not.mpr h.named), if_neg (not_not.mpr h.addressed),
    if_neg (not_not.mpr h.challenge), h.signed]
  rfl

/-- A run of calls goes on where the calls before it have left the hub. -/
theorem run_append : run sha256 verify hub (calls ++ more) =
    ((run sha256 verify (run sha256 verify hub calls).1 more).1,
      (run sha256 verify hub calls).2 ++
        (run sha256 verify (run sha256 verify hub calls).1 more).2) := by
  induction more using List.reverseRecOn with
  | nil => simp [run]
  | append_singleton more call ih =>
    rw [← List.append_assoc, run_snoc, run_snoc, ih, List.append_assoc]

theorem challenges_perform {call : Call} (h : ¬Touches persona call) :
    (perform sha256 verify hub call).1.challenges persona = hub.challenges persona := by
  cases call with
  | challenge p nonce => exact Function.update_of_ne (Ne.symm h) ..
  | deliver raw t =>
    simp only [perform, MemoryHub.deliver]
    cases HubEnvelope.parse raw <;> rfl
  | inbox p auth t =>
    obtain ⟨a, -, hopened⟩ | ⟨reason, hrefused⟩ :=
      @inbox_cases Digest sha256 verify hub p auth t
    · simp only [perform, hopened]
      exact Function.update_of_ne (Ne.symm h) ..
    · simp only [perform, hrefused]
      rfl

theorem challenges_run (h : ∀ call ∈ calls, ¬Touches persona call) :
    (run sha256 verify hub calls).1.challenges persona = hub.challenges persona := by
  induction calls using List.reverseRecOn with
  | nil => rfl
  | append_singleton calls call ih =>
    rw [run_snoc, challenges_perform (h call (by simp)),
      ih fun call hmem ↦ h call (List.mem_append_left _ hmem)]

theorem traffic_append {history later : List Event} : traffic persona (history ++ later) =
    traffic persona history ++ traffic persona later := List.filterMap_append

/-- What sweeps a queue is a call on an inbox. -/
theorem mem_of_sweep {history : List Event} {t : ℤ} (h : .sweep t ∈ traffic persona history) :
    ∃ p auth, Call.inbox p auth t ∈ history.map Prod.fst := by
  obtain ⟨⟨call, answer⟩, hmem, h⟩ := List.mem_filterMap.mp h
  have hcall := List.mem_map_of_mem (f := Prod.fst) hmem
  cases call with
  | challenge p nonce => cases h
  | deliver raw t' =>
    cases answer with
    | nonce value => cases h
    | inbox result => cases h
    | delivered result =>
      cases result with
      | error reason => cases h
      | ok _ =>
        obtain ⟨envelope, -, hone⟩ := Option.bind_eq_some_iff.mp h
        cases (Option.ite_none_right_eq_some.mp hone).2
  | inbox p auth t' =>
    cases answer with
    | nonce value => cases h
    | delivered result => cases h
    | inbox result =>
      cases result with
      | error reason => cases h
      | ok envelopes =>
        cases h
        exact ⟨p, auth, hcall⟩

/-- A challenge is not the latest where the persona has been issued one since. -/
theorem mem_issued_of_latest {history : List Event} {c other : Text} (hlatest : (issued persona
      (history ++ (run sha256 verify hub calls).2)).getLast? = some c)
    (hother : .challenge persona other ∈ calls) : c ∈ nonces calls := by
  have hmem : other ∈ issued persona (run sha256 verify hub calls).2 := by
    rw [mem_issued]
    rw [← @map_fst_run Digest sha256 verify hub calls] at hother
    obtain ⟨⟨call, answer⟩, hevent, hcall⟩ := List.mem_map.mp hother
    obtain rfl : call = .challenge persona other := hcall
    exact ⟨answer, hevent⟩
  obtain ⟨last, hlast⟩ : ∃ last, (issued persona (run sha256 verify hub calls).2).getLast? =
      some last := ⟨_, List.getLast?_eq_some_getLast (List.ne_nil_of_mem hmem)⟩
  rw [issued, List.filterMap_append, ← issued, ← issued, List.getLast?_append, hlast,
    Option.some_or] at hlatest
  obtain rfl := Option.some.inj hlatest
  obtain ⟨answer, hevent⟩ := mem_issued.mp (List.mem_of_getLast? hlast)
  have hcall := List.mem_map_of_mem (f := Prod.fst) hevent
  rw [map_fst_run] at hcall
  exact mem_nonces.mpr ⟨persona, hcall⟩

end Calls

namespace Sample

def baseUrl : Text := text "https://hub.example"

def ttlMs : ℚ := 2592000000

def persona : Text := List.replicate 64 (unit 'a')

def auth (challenge : Text) : Value :=
  .obj [(text "v", .str protocolVersion), (text "type", .str (text "inbox_auth")),
    (text "persona", .str persona), (text "audience", .str baseUrl),
    (text "challenge", .str challenge), (text "issued_at", .str (text "2026-07-25T09:00:00Z")),
    (text "sig", .str (List.replicate 128 (unit 'b')))]

def envelope : Value :=
  .obj [(text "v", .str protocolVersion), (text "type", .str (text "hub_envelope")),
    (text "recipient", .str persona),
    (text "sealed", .obj [(text "v", .str protocolVersion), (text "epk", .str persona),
      (text "ciphertext", .str (text "c0ffee"))]),
    (text "sent_at", .str (text "2026-07-25T09:00:00Z"))]

def first : Text := text "nonce-1-1784970000000"

def second : Text := text "nonce-2-1784970000000"

/-- An envelope, an inbox opened when it is too old, and a second challenge. -/
def calls : List Call :=
  [.deliver envelope 0, .challenge persona first, .inbox persona (auth first) 2592000001,
    .challenge persona second]

def sha256 : List UInt8 → List UInt8 := id

/-- A scheme under which the signature of the sample is good, for its persona alone. -/
def verify (sig : Text) (_ : List UInt8) (publicKey : Text) : Bool :=
  sig = List.replicate 128 (unit 'b') && publicKey = persona

def ended : MemoryHub × List Event := run sha256 verify (.new baseUrl ttlMs) calls

theorem exists_of_snd {α β : Type} {x : α × β} {b : β} (h : x.2 = b) : ∃ a, x = (a, b) :=
  ⟨x.1, Prod.ext rfl h⟩

end Sample

theorem sample_guarded : (nonces Sample.calls).Nodup ∧
    Guarded Sample.sha256 Sample.verify Sample.baseUrl Sample.ttlMs Sample.ended.2 Sample.ended.1 :=
  ⟨by decide +kernel, inboxes_guarded Sample.baseUrl Sample.ttlMs (by decide +kernel)⟩

/-- A clock that runs back: what a call dropped as too old is young again, and it is gone. -/
theorem dropped_then_young : ¬∀ (sha256 : List UInt8 → List UInt8) verify baseUrl ttlMs calls,
    (nonces calls).Nodup → ∀ persona auth now hub' envelopes,
      (run sha256 verify (.new baseUrl ttlMs) calls).1.inbox sha256 verify persona auth now =
        (hub', .ok envelopes) →
      envelopes = ((delivered persona (run sha256 verify (.new baseUrl ttlMs) calls).2).filter
        (Expiry.fresh ttlMs StoredEnvelope.receivedAt now)).map StoredEnvelope.envelope := by
  intro h
  have hopened : (Sample.ended.1.inbox Sample.sha256 Sample.verify Sample.persona
      (Sample.auth Sample.second) 0).2 = .ok [] := by decide +kernel
  obtain ⟨hub', hpair⟩ := Sample.exists_of_snd hopened
  have hreturned := h Sample.sha256 Sample.verify Sample.baseUrl Sample.ttlMs Sample.calls
    (by decide +kernel) Sample.persona (Sample.auth Sample.second) 0 hub' [] hpair
  have hlength := congrArg List.length hreturned
  exact absurd hlength (by decide +kernel)

end Servanda.Hub
