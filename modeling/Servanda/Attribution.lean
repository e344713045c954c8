import Servanda.Crowding
import Servanda.Delivered
import Servanda.Parts

/-!
Who a message is from: what its envelope says of that is read from the outer headers, and from no body.
-/

namespace Servanda.Mime

open Unicode Scan UnidentifiedEnvelope

section Headers

variable {bytes bytes' : List UInt8} {limit finish bodyStart : ℕ}

/-- A blank line at a position: where the body after it starts. -/
def blankLineAt (bytes : List UInt8) (i : ℕ) : Option (ℕ × ℕ) :=
  if bytes[i]? ≠ some lf then none
  else if bytes[i + 1]? = some lf then some (i, i + 2)
  else if bytes[i + 1]? = some cr ∧ bytes[i + 2]? = some lf then some (i, i + 3)
  else none

theorem headerEnd_eq_some_iff : headerEnd bytes limit = some (finish, bodyStart) ↔
    finish < min bytes.length limit ∧ blankLineAt bytes finish = some (finish, bodyStart) ∧
      ∀ i < finish, blankLineAt bytes i = none := by
  have hat : ∀ i p, blankLineAt bytes i = some p → p.1 = i := by
    intro i p h
    unfold blankLineAt at h
    split_ifs at h <;> cases h <;> rfl
  have hdef : headerEnd bytes limit =
      (List.range (min bytes.length limit)).findSome? (blankLineAt bytes) := rfl
  rw [hdef, List.findSome?_eq_some_iff]
  constructor
  · rintro ⟨before, i, after, hrange, hi, hbefore⟩
    obtain rfl : finish = i := hat i _ hi
    have hlength : before.length < (List.range (min bytes.length limit)).length := by
      rw [hrange, List.length_append, List.length_cons]
      omega
    have hget : (List.range (min bytes.length limit))[before.length]? = some finish := by
      rw [hrange]
      simp
    rw [List.length_range] at hlength
    rw [List.getElem?_range hlength, Option.some.injEq] at hget
    refine ⟨hget ▸ hlength, hi, fun j hj ↦ hbefore j ?_⟩
    have htake : before = (List.range (min bytes.length limit)).take before.length := by
      rw [hrange, List.take_left']
      rfl
    rw [htake, List.take_range, List.mem_range]
    omega
  · rintro ⟨hlt, hfinish, hbefore⟩
    refine ⟨List.range finish, finish, (List.range (min bytes.length limit)).drop (finish + 1), ?_,
      hfinish, fun i hi ↦ hbefore i (List.mem_range.1 hi)⟩
    have hsplit := List.take_append_drop finish (List.range (min bytes.length limit))
    rw [List.take_range, min_eq_left hlt.le, List.drop_eq_getElem_cons (by simpa using hlt)] at hsplit
    simpa using hsplit.symm

theorem blankLineAt_spec (h : blankLineAt bytes finish = some (finish, bodyStart)) :
    finish + 1 < bodyStart ∧ bodyStart ≤ bytes.length := by
  unfold blankLineAt at h
  split_ifs at h with _ hlf hcr
  · cases h
    have hlength := (List.getElem?_eq_some_iff.1 hlf).1
    omega
  · cases h
    have hlength := (List.getElem?_eq_some_iff.1 hcr.2).1
    omega

/-- A blank line is seen in the octets up to its end. -/
theorem headerEnd_of_take (h : headerEnd bytes limit = some (finish, bodyStart))
    (hsame : bytes'.take bodyStart = bytes.take bodyStart) :
    headerEnd bytes' limit = some (finish, bodyStart) := by
  obtain ⟨hlt, hfinish, hbefore⟩ := headerEnd_eq_some_iff.1 h
  obtain ⟨hstart, hlength⟩ := blankLineAt_spec hfinish
  have hlonger : bodyStart ≤ bytes'.length := by
    have htaken := congrArg List.length hsame
    rw [List.length_take, List.length_take] at htaken
    omega
  have hget : ∀ i < bodyStart, bytes'[i]? = bytes[i]? := by
    intro i hi
    rw [← List.getElem?_take_of_lt hi, hsame, List.getElem?_take_of_lt hi]
  have hearly : ∀ i < finish, blankLineAt bytes' i = blankLineAt bytes i := by
    intro i hi
    rw [blankLineAt, hget i (by omega), hget (i + 1) (by omega), hget (i + 2) (by omega)]
    rfl
  have hat : blankLineAt bytes' finish = blankLineAt bytes finish := by
    unfold blankLineAt at hfinish
    rw [blankLineAt, blankLineAt, hget finish (by omega), hget (finish + 1) hstart]
    split_ifs at hfinish with hlf hnext hcr
    · rw [if_neg hlf, if_pos hnext, if_neg hlf, if_pos hnext]
    · cases hfinish
      rw [hget (finish + 2) (by omega)]
  refine headerEnd_eq_some_iff.2 ⟨by omega, hat.trans hfinish, fun i hi ↦ ?_⟩
  rw [hearly i hi, hbefore i hi]

end Headers

/-- Two messages that agree through the blank line that ends the outer headers. -/
def AgreeOnHeader (limits : MimeLimits) (raw raw' : List UInt8) : Prop :=
  ∃ finish bodyStart, headerEnd raw limits.maxHeaderBytes = some (finish, bodyStart) ∧
    raw'.take bodyStart = raw.take bodyStart

section Outer

variable (platform : Platform) (limits : MimeLimits)

/-- The headers around a message, in the octets of it that are looked at. -/
def outerHeaders (raw : List UInt8) : List Header :=
  (parseEntity platform (raw.take limits.maxBytes) limits).headers

/-- What of a parsed message is read from the headers around it. -/
structure ReadFrom (headers : List Header) (parsed : ParsedMessage) : Prop where
  sender : parsed.from =
    parseAddressList platform (first headers (text "from") []).1 limits
  recipients : parsed.to = parseAddressList platform (first headers (text "to") []).1 limits
  copied : parsed.cc = parseAddressList platform (first headers (text "cc") []).1 limits
  replyTo : parsed.replyTo =
    parseAddressList platform (first headers (text "reply-to") []).1 limits
  deliveredTo : parsed.deliveredTo = Mime.deliveredTo platform headers limits
  date : parsed.date = rfc3339FromMailDate platform (first headers (text "date") []).1
  messageId : parsed.messageId =
    normalizeMessageId platform (first headers (text "message-id") []).1
  inReplyTo : parsed.inReplyTo =
    normalizeMessageId platform (first headers (text "in-reply-to") []).1
  references : parsed.references =
    parseReferences platform (first headers (text "references") []).1 limits

variable {platform limits} {raw raw' bytes bytes' : List UInt8} {finish bodyStart : ℕ}

theorem parseMessage_readFrom : ReadFrom platform limits (outerHeaders platform limits raw)
    (parseMessage platform raw limits) := by
  constructor
  all_goals
    unfold parseMessage parseMessageAt
    rfl

theorem headers_of_headerEnd
    (h : headerEnd bytes limits.maxHeaderBytes = some (finish, bodyStart)) :
    (parseEntity platform bytes limits).headers =
      (parseHeaderBlock platform (decodeUtf8 (bytes.take finish)) limits []).1 := by
  rw [parseEntity, h]

theorem AgreeOnHeader.outerHeaders (h : AgreeOnHeader limits raw raw') :
    outerHeaders platform limits raw' = outerHeaders platform limits raw := by
  obtain ⟨finish, bodyStart, hraw, hsame⟩ := h
  obtain ⟨-, hfinish, -⟩ := headerEnd_eq_some_iff.1 hraw
  have hbefore : finish ≤ bodyStart := by
    have hstart := (blankLineAt_spec hfinish).1
    omega
  rw [Mime.outerHeaders, Mime.outerHeaders]
  obtain hwhole | hcut := le_or_gt bodyStart limits.maxBytes
  · have htake : ∀ bytes : List UInt8, (bytes.take limits.maxBytes).take bodyStart =
        bytes.take bodyStart := by
      intro bytes
      rw [List.take_take, min_eq_left hwhole]
    have hfirst := headerEnd_of_take hraw (htake raw)
    have hsecond := headerEnd_of_take hraw ((htake raw').trans hsame)
    have hprefix : ∀ bytes : List UInt8, (bytes.take bodyStart).take finish = bytes.take finish := by
      intro bytes
      rw [List.take_take, min_eq_left hbefore]
    have hblock : (raw'.take limits.maxBytes).take finish =
        (raw.take limits.maxBytes).take finish := by
      rw [← hprefix, htake raw', hsame, ← htake raw, hprefix]
    rw [headers_of_headerEnd hfirst, headers_of_headerEnd hsecond, hblock]
  · have htake : raw'.take limits.maxBytes = raw.take limits.maxBytes := by
      have htaken := congrArg (List.take limits.maxBytes) hsame
      rwa [List.take_take, List.take_take, min_eq_left hcut.le] at htaken
    rw [htake]

end Outer

section Payload

variable {base extra o : Entries} {m : Text × Option Json} {key : Text} {value : Option Json}

theorem mem_spread (h : m ∈ spread base extra) : m ∈ base ∨ m ∈ extra := by
  induction extra generalizing base with
  | nil => exact .inl h
  | cons x extra ih =>
    obtain hbase | hextra := ih h
    · dsimp only at hbase
      split at hbase
      · obtain ⟨m', hm', rfl⟩ := List.mem_map.1 hbase
        split
        · exact .inr List.mem_cons_self
        · exact .inl hm'
      · obtain hbase | hx := List.mem_append.1 hbase
        · exact .inl hbase
        · exact .inr (List.mem_singleton.1 hx ▸ List.mem_cons_self)
    · exact .inr (List.mem_cons_of_mem _ hextra)

theorem mem_spread_of_mem (hm : m ∈ base) (h : m.1 ∉ extra.map Prod.fst) :
    m ∈ spread base extra := by
  induction extra generalizing base with
  | nil => exact hm
  | cons x extra ih =>
    rw [List.map_cons, List.mem_cons, not_or] at h
    refine ih ?_ h.2
    dsimp only
    split
    · exact List.mem_map.2 ⟨m, hm, if_neg h.1⟩
    · exact List.mem_append_left _ hm

theorem get?_compact (hproto : key ≠ Members.protoKey) (hmem : (key, value) ∈ o)
    (hsame : ∀ m ∈ o, m.1 = key → m.2 = value) : Members.get? (compact o) key = value := by
  have hfold : ∀ (o : Entries) (out : Members), (∀ m ∈ o, m.1 = key → m.2 = value) →
      (out.get? key = none ∨ out.get? key = value) →
      ((key, value) ∈ o ∨ out.get? key = value) →
      Members.get? (o.foldl (fun out m ↦ (m.2.map (out.assign m.1)).getD out) out) key = value := by
    intro o
    induction o with
    | nil =>
      rintro out - - (hmem | hout)
      · cases hmem
      · exact hout
    | cons m o ih =>
      intro out hsame hout hmem
      obtain ⟨k, v⟩ := m
      obtain ⟨hk, hsame⟩ := List.forall_mem_cons.1 hsame
      rw [List.foldl_cons]
      by_cases hkey : k = key
      · subst hkey
        obtain rfl : v = value := hk rfl
        refine ih _ hsame ?_ (.inr ?_)
        all_goals cases v with
        | none => simpa using hout
        | some v => simp [Members.get?_assign hproto]
      · have hother : ((v.map (out.assign k)).getD out).get? key = out.get? key := by
          cases v with
          | none => rfl
          | some v => exact Members.get?_assign_ne (Ne.symm hkey)
        rw [List.mem_cons, Prod.mk.injEq] at hmem
        refine ih _ hsame (hother ▸ hout) ?_
        rw [hother]
        exact hmem.imp_left fun h ↦ h.resolve_left fun h ↦ hkey h.1.symm
  exact hfold o [] hsame (.inl rfl) (.inl hmem)

theorem mem_keys_compact (h : key ∈ (compact o).keys) : key ∈ o.map Prod.fst := by
  by_contra habsent
  have hfold : ∀ (o : Entries) (out : Members), key ∉ o.map Prod.fst → out.get? key = none →
      Members.get? (o.foldl (fun out m ↦ (m.2.map (out.assign m.1)).getD out) out) key = none := by
    intro o
    induction o with
    | nil => exact fun _ _ h ↦ h
    | cons m o ih =>
      intro out habsent hout
      obtain ⟨k, v⟩ := m
      rw [List.map_cons, List.mem_cons, not_or] at habsent
      refine ih _ habsent.2 ?_
      cases v with
      | none => exact hout
      | some v => exact (Members.get?_assign_ne habsent.1).trans hout
  exact Members.get?_eq_none_iff.1 (hfold o [] habsent rfl) h

end Payload

/-- The names of what every message's payload says. -/
def baseNames : List Text :=
  [text "mailbox", text "uid", text "direction", text "direction_basis", text "message_id",
    text "thread_id", text "in_reply_to", text "references_count", text "is_reply", text "subject",
    text "text", text "text_source_chars", text "html", text "raw_bytes", text "truncated",
    text "from_display_name", text "from_address", text "from_verification",
    text "from_address_non_ascii", text "to", text "to_count", text "cc", text "cc_count",
    text "reply_to", text "attachment_count", text "attachments", text "flags",
    text "header_anomalies", text "observed_auth_results"]

theorem baseNames_assigned : Assigned baseNames := by
  unfold Assigned
  decide +kernel

def gestureNames : List Text :=
  [text "gesture", text "delivered_to", text "bcc_inferred", text "original", text "original_source"]

section Attribution

variable {platform : Platform} {parsed : ParsedMessage} {source : ImapMessageSource}
  {persona : Checked isHex64} {identity : EmailIdentity} {ctx : CaptureContext}
  {extras : CaptureExtras} {key : Text} {value : Option Json}

theorem basePayload_names :
    (basePayload platform parsed source identity).map Prod.fst = baseNames := rfl

theorem gestureExtras_names :
    ∀ key ∈ (gestureExtras platform parsed identity).payload.map Prod.fst, key ∈ gestureNames := by
  intro key hkey
  obtain ⟨_, hentry, rfl⟩ := List.mem_map.1 hkey
  obtain ⟨m, hm, rfl⟩ := List.mem_map.1 hentry
  exact mem_keys_compact (List.mem_map_of_mem hm)

/-- What a message's payload says of it is not said again by a gesture. -/
theorem get?_payload (hkey : key ∉ extras.payload.map Prod.fst)
    (hmem : (key, value) ∈ basePayload platform parsed source identity) :
    Members.get? (compact (spread (basePayload platform parsed source identity) extras.payload)) key =
      value := by
  have hname : key ∈ baseNames := by
    rw [← @basePayload_names platform parsed source identity]
    exact List.mem_map_of_mem hmem
  have hnodup := baseNames_assigned.1
  rw [← @basePayload_names platform parsed source identity] at hnodup
  refine get?_compact (fun h ↦ baseNames_assigned.2 (h ▸ hname)) (mem_spread_of_mem hmem hkey) ?_
  intro m hm hk
  obtain hbase | hextra := mem_spread hm
  · exact congrArg Prod.snd (List.inj_on_of_nodup_map hnodup hbase hmem hk)
  · exact absurd (hk ▸ List.mem_map_of_mem hextra) hkey

/-- The kinds of the envelopes that the package builds. -/
def envelopeKinds : List Text :=
  [CaptureKind.emailIn.name, CaptureKind.emailOut.name, IngestKind.emailBcc.name,
    IngestKind.emailForwarded.name]

/-- The actor a message's envelope names, before its label is cut. -/
def actorOf (platform : Platform) (parsed : ParsedMessage) : EnvelopeActor where
  label := label platform (((parsed.from.head?.bind (·.name)) <|> addressOf parsed.from).getD
    (text "unknown"))
  externalId := (addressOf parsed.from).map (clip · 320)

variable (platform parsed source persona identity ctx) in
/-- What an envelope says of where its message is from. -/
structure Attributed (e : Envelope) : Prop where
  source_eq : e.content.source.val = emailSource
  kind_mem : e.content.kind.val ∈ envelopeKinds
  occurredAt_eq : occurredAt parsed source = some e.content.occurredAt
  receivedAt_eq : e.content.receivedAt = ctx.receivedAt
  actor_eq : e.content.actor = (boundActor (actorOf platform parsed)).1
  persona_eq : e.content.persona = persona
  direction : ∀ v, e.content.payload.get? (text "direction") = some v →
    v = .str (directionOf platform parsed source.mailbox identity).1.name
  fromAddress : ∀ v, e.content.payload.get? (text "from_address") = some v →
    ∃ address ∈ addressOf parsed.from, ∃ n, 64 ≤ n ∧ v = .str (clip (clip address 320) n)
  unclipped : e.content.clipped = false →
    e.content.payload.get? (text "direction") =
        some (.str (directionOf platform parsed source.mailbox identity).1.name) ∧
      e.content.payload.get? (text "from_address") =
        (addressOf parsed.from).map fun address ↦ .str (clip address 320)

variable {crypto : Crypto} {e : Envelope}

/-- A message that is sealed is sealed as what it is observed as. -/
theorem content_of_build {kind : Checked isNonempty}
    (hkind : extras.kind.getD (directionOf platform parsed source.mailbox identity).1.name = kind.val)
    (h : buildEnvelope platform crypto parsed source persona identity ctx extras = .ok (some e)) :
    ∃ occurred, occurredAt parsed source = some occurred ∧ e.content =
      bound (observationWith platform parsed source persona identity ctx extras kind occurred) := by
  rw [buildEnvelope] at h
  cases hoccurred : occurredAt parsed source with
  | none =>
    rw [hoccurred] at h
    cases h
  | some occurred =>
    rw [hoccurred] at h
    dsimp only at h
    rw [candidateOf_extras platform parsed source persona identity ctx hkind occurred] at h
    cases hseal : sealEnvelope crypto
        (observationWith platform parsed source persona identity ctx extras kind occurred).toJson with
    | error err =>
      rw [hseal] at h
      cases h
    | ok e' =>
      rw [hseal] at h
      obtain rfl : e' = e := Option.some.inj (Except.ok.inj h)
      obtain ⟨base, hparse, -, -, hcontent⟩ := sealEnvelope_ok_iff.1 hseal
      rw [UnidentifiedEnvelope.parse_toJson (compact_assigned _).2, Option.some.injEq] at hparse
      exact ⟨occurred, rfl, hparse ▸ hcontent⟩

theorem build_of_room {kind : Checked isNonempty} {occurred : Checked isRfc3339}
    (hkind : extras.kind.getD (directionOf platform parsed source.mailbox identity).1.name = kind.val)
    (hoccurred : occurredAt parsed source = some occurred)
    (hshort :
      (observationWith platform parsed source persona identity ctx extras kind occurred).Short)
    (hroom : RoomForId
      (bound (observationWith platform parsed source persona identity ctx extras kind occurred))) :
    ∃ e, buildEnvelope platform crypto parsed source persona identity ctx extras = .ok (some e) ∧
      e.content =
        bound (observationWith platform parsed source persona identity ctx extras kind occurred) := by
  have hproto : Members.protoKey ∉
      (observationWith platform parsed source persona identity ctx extras kind occurred).payload.keys :=
    (compact_assigned _).2
  obtain ⟨e, hseal, -⟩ := (seal_bounded_iff crypto hproto).2 ⟨hshort, hroom⟩
  have hbuild : buildEnvelope platform crypto parsed source persona identity ctx extras =
      .ok (some e) := by
    rw [buildEnvelope, hoccurred]
    dsimp only
    rw [candidateOf_extras platform parsed source persona identity ctx hkind occurred, hseal]
    rfl
  obtain ⟨occurred', hoccurred', hcontent⟩ := content_of_build hkind hbuild
  rw [hoccurred, Option.some.injEq] at hoccurred'
  exact ⟨e, hbuild, hoccurred' ▸ hcontent⟩

theorem attributed
    (hkind : extras.kind.getD (directionOf platform parsed source.mailbox identity).1.name ∈
      envelopeKinds)
    (hdirection : text "direction" ∉ extras.payload.map Prod.fst)
    (haddress : text "from_address" ∉ extras.payload.map Prod.fst)
    (h : buildEnvelope platform crypto parsed source persona identity ctx extras = .ok (some e)) :
    Attributed platform parsed source persona identity ctx e := by
  have hnonempty : ∀ kind ∈ envelopeKinds, isNonempty kind = true := by decide
  obtain ⟨kind, hname⟩ : ∃ kind : Checked isNonempty,
      extras.kind.getD (directionOf platform parsed source.mailbox identity).1.name = kind.val :=
    ⟨⟨_, hnonempty _ hkind⟩, rfl⟩
  obtain ⟨occurred, hoccurred, hcontent⟩ := content_of_build hname h
  obtain ⟨base, hbase⟩ : ∃ base, base =
    observationWith platform parsed source persona identity ctx extras kind occurred := ⟨_, rfl⟩
  have hnodup : base.payload.keys.Nodup := hbase ▸ (compact_assigned _).1
  have hsaid : base.payload.get? (text "direction") =
      some (.str (directionOf platform parsed source.mailbox identity).1.name) := by
    rw [hbase]
    exact get?_payload hdirection (by simp [basePayload])
  have hfrom : base.payload.get? (text "from_address") =
      (addressOf parsed.from).map fun address ↦ .str (clip address 320) := by
    rw [hbase]
    exact get?_payload haddress (by simp [basePayload])
  have hplain : ∀ key ∈ [text "direction", text "from_address"],
      key ≠ Members.protoKey ∧ key.getLast? ≠ (text "_length").getLast? := by decide
  obtain ⟨hproto, hlast⟩ := hplain _ List.mem_cons_self
  obtain ⟨hproto', hlast'⟩ := hplain _ (List.mem_cons_of_mem _ List.mem_cons_self)
  have hdirections : ∀ kind : CaptureKind, octets kind.name ≤ 64 := by
    intro kind
    cases kind <;> decide
  have hroom := (@allowance_bounds base).1
  have hframed := bound_framed base
  rw [← hbase] at hcontent
  constructor
  · rw [hcontent, hframed.source]
    exact congrArg (fun u : UnidentifiedEnvelope ↦ u.source.val) hbase
  · have hsame : base.kind = kind := congrArg UnidentifiedEnvelope.kind hbase
    rwa [hcontent, hframed.kind, hsame, ← hname]
  · have hsame : base.occurredAt = occurred := congrArg UnidentifiedEnvelope.occurredAt hbase
    rw [hoccurred, hcontent, hframed.occurredAt, hsame]
  · rw [hcontent, hframed.receivedAt]
    exact congrArg UnidentifiedEnvelope.receivedAt hbase
  · have hsame : base.actor = actorOf platform parsed := by
      rw [hbase]
      rfl
    rw [hcontent, bound_eq, reduced, hsame]
  · rw [hcontent, hframed.persona]
    exact congrArg UnidentifiedEnvelope.persona hbase
  · intro v hv
    rw [hcontent, get?_bound hnodup hproto (ne_lengthKey hlast), hsaid] at hv
    split at hv
    · cases hv
    · have hclip : clip (directionOf platform parsed source.mailbox identity).1.name
          base.reduction.allowance = _ := clip_of_le ((hdirections _).trans hroom)
      rw [← Option.some.inj hv]
      exact congrArg Json.str hclip
  · intro v hv
    rw [hcontent, get?_bound hnodup hproto' (ne_lengthKey hlast'), hfrom, Option.map_map] at hv
    split at hv
    · cases hv
    · obtain ⟨address, haddress, rfl⟩ := Option.map_eq_some_iff.1 hv
      exact ⟨address, haddress, _, hroom, rfl⟩
  · intro hclipped
    rw [hcontent] at hclipped ⊢
    rw [get?_bound_unmarked hnodup hproto (ne_lengthKey hlast) hclipped, hsaid,
      get?_bound_unmarked hnodup hproto' (ne_lengthKey hlast') hclipped, hfrom, Option.map_map]
    constructor
    · have hclip : clip (directionOf platform parsed source.mailbox identity).1.name
          maxPayloadText = _ := clip_of_le ((hdirections _).trans (by decide))
      exact congrArg (fun s ↦ some (Json.str s)) hclip
    · refine congrArg (Option.map · _) (funext fun address ↦ congrArg Json.str ?_)
      exact clip_of_le ((octets_clip_max address 320).trans (by decide))

variable (platform crypto source persona identity ctx) in
/-- An envelope of a message, captured from a mailbox or delivered to the node. -/
def Captures (e : Envelope) : Prop :=
  envelopeFromMessage platform crypto source persona identity ctx = .ok (some e) ∨
    envelopeFromDelivered platform crypto source persona identity ctx = .ok (some e)

theorem directionOf_mem : (directionOf platform parsed source.mailbox identity).1.name ∈
    envelopeKinds := by
  cases (directionOf platform parsed source.mailbox identity).1 with
  | emailIn => exact List.mem_cons_self
  | emailOut => exact List.mem_cons_of_mem _ List.mem_cons_self

theorem Captures.attributed (h : Captures platform source persona identity ctx crypto e) :
    Attributed platform (parsedOf platform source ctx) source persona identity ctx e := by
  obtain hmessage | hdelivered := h
  · refine Mime.attributed ?_ List.not_mem_nil List.not_mem_nil hmessage
    exact directionOf_mem
  · rw [envelopeFromDelivered] at hdelivered
    split at hdelivered
    · cases hdelivered
    · have hgesture : ∀ key ∈ [text "direction", text "from_address"], key ∉ gestureNames := by decide
      have hadded : ∀ key ∈ [text "direction", text "from_address"],
          key ∉ (gestureExtras platform (parsedOf platform source ctx) identity).payload.map Prod.fst :=
        fun key hkey hmem ↦ hgesture key hkey (gestureExtras_names key hmem)
      refine Mime.attributed ?_ (hadded _ List.mem_cons_self)
        (hadded _ (List.mem_cons_of_mem _ List.mem_cons_self)) hdelivered
      rw [gestureExtras, Option.getD_some]
      cases isForward (parsedOf platform source ctx) with
      | true => exact List.mem_cons_of_mem _ (List.mem_cons_of_mem _ (List.mem_cons_of_mem _ List.mem_cons_self))
      | false => exact List.mem_cons_of_mem _ (List.mem_cons_of_mem _ List.mem_cons_self)

/-- Two envelopes that name the same sender. One that is marked as reduced may lack the members of
the payload, or have an address in it that is cut, but has no other ones. -/
structure SameSender (e e' : Envelope) : Prop where
  source : e'.content.source = e.content.source
  kinds : e.content.kind.val ∈ envelopeKinds ∧ e'.content.kind.val ∈ envelopeKinds
  occurredAt : e'.content.occurredAt = e.content.occurredAt
  receivedAt : e'.content.receivedAt = e.content.receivedAt
  actor : e'.content.actor = e.content.actor
  persona : e'.content.persona = e.content.persona
  direction : ∀ v v', e.content.payload.get? (text "direction") = some v →
    e'.content.payload.get? (text "direction") = some v' → v' = v
  fromAddress : ∀ v v', e.content.payload.get? (text "from_address") = some v →
    e'.content.payload.get? (text "from_address") = some v' →
    ∃ address n n', 64 ≤ n ∧ 64 ≤ n' ∧ v = .str (clip address n) ∧ v' = .str (clip address n')
  unclipped : e.content.clipped = false → e'.content.clipped = false →
    ∀ key ∈ [text "direction", text "from_address"],
      e'.content.payload.get? key = e.content.payload.get? key

/-- A body cannot name its sender: whatever follows the outer headers, two envelopes of messages with
the same ones are attributed alike. -/
theorem body_names_no_sender {source' : ImapMessageSource} {e' : Envelope}
    (hheader : AgreeOnHeader (ctx.limits.getD defaultLimits) source.raw source'.raw)
    (hmailbox : source'.mailbox = source.mailbox)
    (hdate : source'.internalDate = source.internalDate)
    (h : Captures platform source persona identity ctx crypto e)
    (h' : Captures platform source' persona identity ctx crypto e') : SameSender e e' := by
  have hread := @parseMessage_readFrom platform (ctx.limits.getD defaultLimits) source.raw
  have hread' := @parseMessage_readFrom platform (ctx.limits.getD defaultLimits) source'.raw
  rw [hheader.outerHeaders] at hread'
  have hattributed := h.attributed
  have hattributed' := h'.attributed
  obtain ⟨parsed, hparsed⟩ : ∃ parsed, parsedOf platform source ctx = parsed := ⟨_, rfl⟩
  obtain ⟨parsed', hparsed'⟩ : ∃ parsed', parsedOf platform source' ctx = parsed' := ⟨_, rfl⟩
  have hfrom : parsed'.from = parsed.from := by
    rw [← hparsed, ← hparsed']
    exact hread'.sender.trans hread.sender.symm
  have hsent : parsed'.date = parsed.date := by
    rw [← hparsed, ← hparsed']
    exact hread'.date.trans hread.date.symm
  rw [hparsed] at hattributed
  rw [hparsed'] at hattributed'
  have hactor : actorOf platform parsed' = actorOf platform parsed := by
    rw [actorOf, actorOf, hfrom]
  have hdirection : directionOf platform parsed' source'.mailbox identity =
      directionOf platform parsed source.mailbox identity := by
    rw [directionOf, directionOf, hfrom, hmailbox]
  have hoccurred : occurredAt parsed' source' = occurredAt parsed source := by
    rw [occurredAt, occurredAt, hsent, hdate]
  refine ⟨Subtype.ext (hattributed'.source_eq.trans hattributed.source_eq.symm),
    ⟨hattributed.kind_mem, hattributed'.kind_mem⟩, ?_,
    hattributed'.receivedAt_eq.trans hattributed.receivedAt_eq.symm, ?_,
    hattributed'.persona_eq.trans hattributed.persona_eq.symm, fun v v' hv hv' ↦ ?_,
    fun v v' hv hv' ↦ ?_, fun hclipped hclipped' key hkey ↦ ?_⟩
  · have hsame := hattributed'.occurredAt_eq.symm.trans (hoccurred.trans hattributed.occurredAt_eq)
    exact Option.some.inj hsame
  · rw [hattributed'.actor_eq, hattributed.actor_eq, hactor]
  · rw [hattributed.direction v hv, hattributed'.direction v' hv', hdirection]
  · obtain ⟨address, haddress, n, hn, rfl⟩ := hattributed.fromAddress v hv
    obtain ⟨address', haddress', n', hn', rfl⟩ := hattributed'.fromAddress v' hv'
    rw [hfrom] at haddress'
    obtain rfl : address = address' := Option.mem_unique haddress haddress'
    exact ⟨clip address 320, n, n', hn, hn', rfl, rfl⟩
  · obtain ⟨hsaid, haddress⟩ := hattributed.unclipped hclipped
    obtain ⟨hsaid', haddress'⟩ := hattributed'.unclipped hclipped'
    rw [List.mem_cons, List.mem_singleton] at hkey
    obtain rfl | rfl := hkey
    · rw [hsaid, hsaid', hdirection]
    · rw [haddress, haddress', hfrom]

end Attribution

namespace Sample

/-- Headers that name a sender and announce parts, each after a line of its own. -/
def outer : List UInt8 :=
  encodeUtf8 "From: a@x\nContent-Type: multipart/mixed; boundary=b\n\n".toList

def fromA (body : List UInt8) : ImapMessageSource where
  mailbox := text "INBOX"
  uid := .ofNat 1
  raw := outer ++ body
  flags := none
  internalDate := some (text "2026-03-01T09:00:00Z")

/-- Limits that let many parts through. -/
def wideLimits : MimeLimits := { defaultLimits with maxParts := 70001, maxAttachments := 70000 }

def wide : CaptureContext := ⟨received.receivedAt, some wideLimits⟩

theorem outer_shape : headerEnd outer wideLimits.maxHeaderBytes = some (51, 53) ∧
    ((contentTypeOf asciiPlatform (parseEntity asciiPlatform outer wideLimits)).type =
        text "multipart/mixed" ∧
      (contentTypeOf asciiPlatform (parseEntity asciiPlatform outer wideLimits)).param "boundary" =
        some (text "b")) ∧
    parseAddressList asciiPlatform
      (first (outerHeaders asciiPlatform wideLimits (fromA []).raw) (text "from") []).1 wideLimits =
        [⟨none, some (text "a@x"), text "a@x"⟩] ∧
    ∀ name ∈ [text "date", text "message-id", text "in-reply-to", text "references"],
      (first (outerHeaders asciiPlatform wideLimits (fromA []).raw) name []).1 = none := by
  decide +kernel

section

variable {body : List UInt8} {n : ℕ}

theorem fromA_take : (fromA body).raw.take 53 = outer := List.take_left' (by decide)

theorem fromA_end : headerEnd (fromA body).raw wideLimits.maxHeaderBytes = some (51, 53) := by
  refine headerEnd_of_take outer_shape.1 (fromA_take.trans ?_)
  rw [← @fromA_take []]
  rfl

theorem fromA_entity : (parseEntity asciiPlatform (fromA body).raw wideLimits).headers =
      (parseEntity asciiPlatform outer wideLimits).headers ∧
    (parseEntity asciiPlatform (fromA body).raw wideLimits).body = body := by
  have htake : (fromA body).raw.take 51 = outer.take 51 := by
    rw [← @fromA_take body, List.take_take]
    rfl
  constructor
  · rw [headers_of_headerEnd fromA_end, headers_of_headerEnd outer_shape.1, htake]
  · rw [parseEntity, fromA_end]
    exact List.drop_left' (by decide)

/-- So many parts make as many attachments, but for the one that is the text. -/
theorem crowd_attachments (h : n ≤ 70000) :
    (parsedOf asciiPlatform (fromA (boundaryLines (n + 1))) wide).attachments.length = n := by
  have hwhole : (fromA (boundaryLines (n + 1))).raw.take wideLimits.maxBytes =
      (fromA (boundaryLines (n + 1))).raw := by
    have hlength : outer.length = 53 := by decide
    have hroom : wideLimits.maxBytes = 2097152 := rfl
    rw [List.take_of_length_le]
    rw [fromA, List.length_append, hlength, length_boundaryLines, hroom]
    omega
  obtain ⟨hheaders, hbody⟩ := @fromA_entity (boundaryLines (n + 1))
  have htype : contentTypeOf asciiPlatform
      (parseEntity asciiPlatform (fromA (boundaryLines (n + 1))).raw wideLimits) =
        contentTypeOf asciiPlatform (parseEntity asciiPlatform outer wideLimits) := by
    rw [contentTypeOf, hheaders]
    rfl
  have hentity := congrArg (parseEntity asciiPlatform · wideLimits) hwhole
  refine attachments_boundaryLines hentity hbody ?_ ?_ rfl (by decide) ?_ h
  · rw [htype, outer_shape.2.1.1]
    decide
  · rw [htype, outer_shape.2.1.2]
  · exact Nat.lt_succ_of_le h

theorem fromA_headers : outerHeaders asciiPlatform wideLimits (fromA body).raw =
    outerHeaders asciiPlatform wideLimits (fromA []).raw :=
  AgreeOnHeader.outerHeaders ⟨51, 53, fromA_end, fromA_take.trans fromA_take.symm⟩

theorem parsed_fromA : ReadFrom asciiPlatform wideLimits
    (outerHeaders asciiPlatform wideLimits (fromA []).raw)
      (parsedOf asciiPlatform (fromA body) wide) := by
  rw [← @fromA_headers body]
  exact parseMessage_readFrom

/-- An observation from that address, of a payload. -/
def plain (payload : Members) (clipped : Bool) : UnidentifiedEnvelope where
  source := ⟨emailSource, emailSource_nonempty⟩
  kind := ⟨CaptureKind.emailIn.name, name_nonempty _⟩
  occurredAt := received.receivedAt
  receivedAt := received.receivedAt
  actor := ⟨text "a@x", some (text "a@x")⟩
  payload
  refs := []
  clipped
  persona := hexId 0

theorem occurred_fromA :
    occurredAt (parsedOf asciiPlatform (fromA body) wide) (fromA body) = some received.receivedAt := by
  have hdate := (@parsed_fromA body).date
  rw [outer_shape.2.2.2 _ List.mem_cons_self] at hdate
  have hinternal : (fromA body).internalDate = some (text "2026-03-01T09:00:00Z") := rfl
  rw [occurredAt, hdate, hinternal]
  decide +kernel

variable (body) in
/-- What the payload of a message from that address says. -/
def said : Members :=
  compact (basePayload asciiPlatform (parsedOf asciiPlatform (fromA body) wide) (fromA body) ⟨[], []⟩)

theorem observation_fromA : observation asciiPlatform (parsedOf asciiPlatform (fromA body) wide)
    (fromA body) (hexId 0) ⟨[], []⟩ wide received.receivedAt =
      plain (said body) false := by
  unfold said
  have hread := @parsed_fromA body
  have hnames := outer_shape.2.2.2
  have hfrom : (parsedOf asciiPlatform (fromA body) wide).from =
      [⟨none, some (text "a@x"), text "a@x"⟩] := hread.sender.trans outer_shape.2.2.1
  have hids : (parsedOf asciiPlatform (fromA body) wide).messageId = none ∧
      (parsedOf asciiPlatform (fromA body) wide).inReplyTo = none ∧
      (parsedOf asciiPlatform (fromA body) wide).references = [] := by
    rw [hread.messageId, hread.inReplyTo, hread.references, hnames _ (by decide), hnames _ (by decide),
      hnames _ (by decide)]
    exact ⟨rfl, rfl, rfl⟩
  generalize parsedOf asciiPlatform (fromA body) wide = parsed at hfrom hids ⊢
  have hactor : actorOf asciiPlatform parsed = ⟨text "a@x", some (text "a@x")⟩ := by
    rw [actorOf, hfrom]
    decide +kernel
  have hdirection : (directionOf asciiPlatform parsed (fromA body).mailbox ⟨[], []⟩).1 = .emailIn := by
    rw [directionOf, hfrom]
    rfl
  have hrefs : threadRefs parsed = [] := by
    rw [threadRefs, hids.1, hids.2.1, hids.2.2]
    rfl
  rw [observation, plain, UnidentifiedEnvelope.mk.injEq]
  refine ⟨rfl, Subtype.ext (congrArg CaptureKind.name hdirection), rfl, rfl, hactor, rfl, ?_, rfl, rfl⟩
  rw [hrefs]
  rfl

/-- Its reduction changes the payload and the marker only. -/
theorem bound_plain (payload : Members) : bound (plain payload false) =
    plain (bound (plain payload false)).payload (bound (plain payload false)).clipped := by
  have hlabel : octets (text "a@x") ≤ maxLabel := by decide
  have hactor : boundActor (plain payload false).actor = ((plain payload false).actor, false) :=
    boundActor_uncut hlabel
  have hrefs : (plain payload false).reduction.refs = [] :=
    List.prefix_nil.1 (@reduction_refs (plain payload false))
  have hbound := @bound_eq (plain payload false)
  rw [reduced, hactor, hrefs] at hbound
  rw [hbound]
  rfl

/-- What is left of a payload whose attachments are dropped. -/
def leftovers : List Members := [[], [(text "attachment_count", .num (.ofNat 70000))]]

theorem leftovers_room : ∀ payload ∈ leftovers, ∀ clipped, RoomForId (plain payload clipped) := by
  have hsmall : ∀ payload ∈ leftovers, ∀ clipped, (canonicalBytes (plain payload clipped).toJson).any
      (·.length + idOctets ≤ maxEnvelopeOctets) = true := by
    decide +kernel
  intro payload hpayload clipped
  obtain ⟨bytes, hbytes, hle⟩ := (Option.any_eq_true _ _).1 (hsmall payload hpayload clipped)
  exact ⟨bytes, hbytes, by simpa using hle⟩

/-- The names in front of the attachments, and where a length would be recorded. -/
theorem names_before : ∀ name ∈ baseNames, (name < text "attachments" → name = text "attachment_count") ∧
    (lengthKey name < text "attachments" → name = text "attachment_count") := by
  decide +kernel

/-- With the attachments goes all but their number. -/
theorem crowd_leaves {ms : Members} {items : List Json} (hassigned : Assigned ms.keys)
    (hnames : ∀ name ∈ ms.keys, name ∈ baseNames)
    (hcount : ms.get? (text "attachment_count") = some (.num (.ofNat 70000)))
    (hitems : ms.get? (text "attachments") = some (.arr items))
    (hcrowd : maxEnvelopeOctets < items.length) :
    (bound (plain ms false)).payload ∈ leftovers := by
  have hnodup : (bound (plain ms false)).payload.keys.Nodup := bound_distinct.keys
  have hplain : ∀ key ∈ [text "attachments", text "attachment_count"],
      key ≠ Members.protoKey ∧ key.getLast? ≠ (text "_length").getLast? := by decide
  obtain ⟨hproto, hlast⟩ := hplain _ List.mem_cons_self
  obtain ⟨hproto', hlast'⟩ := hplain _ (List.mem_cons_of_mem _ List.mem_cons_self)
  refine List.mem_cons.2 ((Members.eq_of_only hnodup fun k v hv ↦ ?_).imp_right List.mem_singleton.2)
  obtain ⟨hlt, hbounded⟩ := get?_bound_of_crowded hassigned.1 hproto (ne_lengthKey hlast) hitems hcrowd hv
  have hbounded' : Members.get? (boundMembers 64 1 [] false ms).1 k = some v := hbounded
  by_cases hmem : k ∈ ms.keys
  · obtain rfl := (names_before k (hnames k hmem)).1 hlt
    rw [get?_boundMembers_plain hassigned.1 hproto' (ne_lengthKey hlast'), hcount] at hbounded'
    exact ⟨rfl, (Option.some.inj hbounded').symm⟩
  · rw [get?_boundMembers_unrecorded hmem] at hbounded'
    · cases hbounded'
    · rintro ⟨name, w⟩ hm rfl
      have hname : name ∈ ms.keys := List.mem_map_of_mem hm
      obtain rfl := (names_before name (hnames name hname)).2 hlt
      rw [Members.get?_of_mem hassigned.1 hm, Option.some.injEq] at hcount
      rw [hcount]
      rfl

theorem said_names : ∀ name ∈ (said body).keys, name ∈ baseNames := by
  intro name hname
  rw [← @basePayload_names asciiPlatform (parsedOf asciiPlatform (fromA body) wide) (fromA body)
    ⟨[], []⟩]
  exact mem_keys_compact hname

theorem get?_said {key : Text} {value : Option Json} (h : (key, value) ∈ basePayload asciiPlatform
    (parsedOf asciiPlatform (fromA body) wide) (fromA body) ⟨[], []⟩) :
    Members.get? (said body) key = value :=
  @get?_payload asciiPlatform _ _ _ ⟨[], none, []⟩ _ _ List.not_mem_nil h

theorem captured_of_room (h : RoomForId (bound (plain (said body) false))) :
    ∃ e, envelopeFromMessage asciiPlatform Servanda.Sample.anyDigest (fromA body) (hexId 0) ⟨[], []⟩
      wide = .ok (some e) ∧ e.content = bound (plain (said body) false) := by
  have hobserved := @observation_fromA body
  have hwith := observationWith_none asciiPlatform (parsedOf asciiPlatform (fromA body) wide)
    (fromA body) (hexId 0) ⟨[], []⟩ wide received.receivedAt
  rw [hobserved] at hwith
  have hdirection : (directionOf asciiPlatform (parsedOf asciiPlatform (fromA body) wide)
      (fromA body).mailbox ⟨[], []⟩).1.name = (plain (said body) false).kind.val :=
    congrArg (fun u : UnidentifiedEnvelope ↦ u.kind.val) hobserved
  have hshort : (plain (said body) false).Short := by
    have hlabels : octets emailSource ≤ maxLabel ∧ octets CaptureKind.emailIn.name ≤ maxLabel ∧
        octets (text "a@x") ≤ maxLabel := by decide
    refine ⟨?_, hlabels.1, hlabels.2.1⟩
    rintro id ⟨⟩
    exact hlabels.2.2
  obtain ⟨e, hbuild, hcontent⟩ := @build_of_room asciiPlatform
    (parsedOf asciiPlatform (fromA body) wide) (fromA body) (hexId 0) ⟨[], []⟩ wide ⟨[], none, []⟩
    Servanda.Sample.anyDigest (plain (said body) false).kind received.receivedAt hdirection
    occurred_fromA (by rw [hwith]; exact hshort) (by rw [hwith]; exact h)
  rw [hwith] at hcontent
  exact ⟨e, hbuild, hcontent⟩

theorem crowd_captured (h : n = 70000) :
    ∃ e, envelopeFromMessage asciiPlatform Servanda.Sample.anyDigest (fromA (boundaryLines (n + 1)))
      (hexId 0) ⟨[], []⟩ wide = .ok (some e) ∧ e.content.payload.get? (text "direction") = none := by
  have hlength := crowd_attachments h.le
  have hcount : Members.get? (said (boundaryLines (n + 1))) (text "attachment_count") =
      count (parsedOf asciiPlatform (fromA (boundaryLines (n + 1))) wide).attachments :=
    get?_said (by simp [basePayload])
  have hitems : Members.get? (said (boundaryLines (n + 1))) (text "attachments") =
      some (.arr ((parsedOf asciiPlatform (fromA (boundaryLines (n + 1))) wide).attachments.map
        attachmentJson)) := get?_said (by simp [basePayload])
  rw [count, hlength] at hcount
  have hnumber : some (Json.num (.ofNat n)) = some (.num (.ofNat 70000)) := by rw [h]
  have hcrowd : maxEnvelopeOctets <
      ((parsedOf asciiPlatform (fromA (boundaryLines (n + 1))) wide).attachments.map
        attachmentJson).length := by
    have hsmall : maxEnvelopeOctets < 70000 := by decide
    rw [List.length_map, hlength, h]
    exact hsmall
  have hleft := crowd_leaves (compact_assigned _) said_names (hcount.trans hnumber) hitems hcrowd
  have hbound := bound_plain (said (boundaryLines (n + 1)))
  obtain ⟨e, hcaptured, hcontent⟩ := @captured_of_room (boundaryLines (n + 1)) (by
    rw [hbound]
    exact leftovers_room _ hleft _)
  refine ⟨e, hcaptured, ?_⟩
  have hnone : ∀ payload ∈ leftovers, Members.get? payload (text "direction") = none := by
    have hother : text "direction" ≠ text "attachment_count" := by decide
    refine List.forall_mem_cons.mpr ⟨rfl, List.forall_mem_singleton.mpr ?_⟩
    rw [Members.get?_cons, if_neg hother]
    rfl
  rw [hcontent]
  exact hnone _ hleft

end

/-- The payload of a message without parts, as it is bounded. -/
def short : Members := (boundObject maxPayloadText (said [])).1.without []

theorem short_fits : tooBig (plain short false) = false ∧
    (∀ clipped, (canonicalBytes (plain short clipped).toJson).any
      (·.length + idOctets ≤ maxEnvelopeOctets) = true) ∧
    isLiteral (text "email_in") (short.get? (text "direction")) = true := by
  decide +kernel

theorem short_captured : ∃ e, envelopeFromMessage asciiPlatform Servanda.Sample.anyDigest (fromA [])
    (hexId 0) ⟨[], []⟩ wide = .ok (some e) ∧
      e.content.payload.get? (text "direction") = some (.str (text "email_in")) := by
  have hlabel : octets (text "a@x") ≤ maxLabel := by decide
  have hactor : boundActor (plain (said []) false).actor = ((plain (said []) false).actor, false) :=
    boundActor_uncut hlabel
  have hreduced : (plain (said []) false).reduced (plain (said []) false).memberBounds =
      plain short false := by
    rw [reduced, hactor]
    rfl
  have hreduction := reduction_of_fits (hreduced ▸ short_fits.1)
  have hpayload : (bound (plain (said []) false)).payload = short := by
    rw [payload_bound, hreduction]
    rfl
  have hbound := bound_plain (said [])
  rw [hpayload] at hbound
  obtain ⟨e, hcaptured, hcontent⟩ := @captured_of_room [] (by
    rw [hbound]
    obtain ⟨bytes, hbytes, hle⟩ := (Option.any_eq_true _ _).1 (short_fits.2.1 _)
    exact ⟨bytes, hbytes, by simpa using hle⟩)
  refine ⟨e, hcaptured, ?_⟩
  have hliteral := short_fits.2.2
  rw [hcontent, hpayload]
  generalize short.get? (text "direction") = value at hliteral
  unfold isLiteral at hliteral
  split at hliteral
  · rw [of_decide_eq_true hliteral]
  · cases hliteral

end Sample

/-- Parts that make the attachments too many for an envelope cost it its direction. -/
theorem crowd_drops_direction : ∃ e e',
    envelopeFromMessage Sample.asciiPlatform Servanda.Sample.anyDigest (Sample.fromA []) (hexId 0)
      ⟨[], []⟩ Sample.wide = .ok (some e) ∧
    envelopeFromMessage Sample.asciiPlatform Servanda.Sample.anyDigest
      (Sample.fromA (boundaryLines (70000 + 1))) (hexId 0) ⟨[], []⟩ Sample.wide = .ok (some e') ∧
    AgreeOnHeader (Sample.wide.limits.getD defaultLimits) (Sample.fromA []).raw
      (Sample.fromA (boundaryLines (70000 + 1))).raw ∧
    e'.content.payload.get? (text "direction") ≠ e.content.payload.get? (text "direction") := by
  obtain ⟨e, hcaptured, hsaid⟩ := Sample.short_captured
  obtain ⟨e', hcaptured', hsaid'⟩ := @Sample.crowd_captured 70000 rfl
  refine ⟨e, e', hcaptured, hcaptured', ?_, ?_⟩
  · exact ⟨51, 53, Sample.fromA_end, Sample.fromA_take.trans Sample.fromA_take.symm⟩
  · rw [hsaid, hsaid']
    nofun

/-- Neither envelope names another sender. -/
theorem crowd_same_sender : ∃ e e',
    Captures Sample.asciiPlatform (Sample.fromA []) (hexId 0) ⟨[], []⟩ Sample.wide
      Servanda.Sample.anyDigest e ∧
    Captures Sample.asciiPlatform (Sample.fromA (boundaryLines (70000 + 1))) (hexId 0) ⟨[], []⟩
      Sample.wide Servanda.Sample.anyDigest e' ∧ SameSender e e' := by
  obtain ⟨e, hcaptured, -⟩ := Sample.short_captured
  obtain ⟨e', hcaptured', -⟩ := @Sample.crowd_captured 70000 rfl
  have hheader : AgreeOnHeader (Sample.wide.limits.getD defaultLimits) (Sample.fromA []).raw
      (Sample.fromA (boundaryLines (70000 + 1))).raw :=
    ⟨51, 53, Sample.fromA_end, Sample.fromA_take.trans Sample.fromA_take.symm⟩
  have hmailbox : (Sample.fromA (boundaryLines (70000 + 1))).mailbox = (Sample.fromA []).mailbox := rfl
  have hdate : (Sample.fromA (boundaryLines (70000 + 1))).internalDate =
      (Sample.fromA []).internalDate := rfl
  exact ⟨e, e', .inl hcaptured, .inl hcaptured', body_names_no_sender hheader hmailbox hdate
    (.inl hcaptured) (.inl hcaptured')⟩

end Servanda.Mime
