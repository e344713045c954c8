import Servanda.Effects

namespace Servanda.Redelivery

open Transitions Serve Recon

/-- Nothing a vault holds is replaced or taken out: bodies stay, and chains are only added to. -/
structure Grown (s s' : Subtree) : Prop where
  edges : ∀ id edge, s.getEdge id = some edge → s'.getEdge id = some edge
  files : ∀ id, s.files id <+: s'.files id

variable {crypto : Crypto} {now : Rfc3339} {budgetNow : ℤ} {s s' s'' : Subtree} {inbox : Inbox}
  {m : WireMessage} {edge : Edge} {a : Assertion}

namespace Grown

theorem refl (s : Subtree) : Grown s s := ⟨fun _ _ h ↦ h, fun _ ↦ List.prefix_rfl⟩

theorem trans (h : Grown s s') (h' : Grown s' s'') : Grown s s'' :=
  ⟨fun id edge he ↦ h'.edges id edge (h.edges id edge he), fun id ↦ (h.files id).trans (h'.files id)⟩

theorem putEdge (h : s.putEdge crypto edge = some s') : Grown s s' := by
  obtain ⟨-, ⟨held, -, -, rfl⟩ | ⟨hnone, rfl⟩⟩ := Subtree.putEdge_cases h
  · exact .refl _
  · refine ⟨fun id other hother ↦ ?_, fun _ ↦ List.prefix_rfl⟩
    have hne : id ≠ edge.edgeId := by
      rintro rfl
      rw [hnone] at hother
      cases hother
    exact (Directory.get?_put_of_ne _ hne).trans hother

theorem appendAssertion (s : Subtree) (a : Assertion) : Grown s (s.appendAssertion a) := by
  refine ⟨fun _ _ h ↦ h, fun id ↦ ?_⟩
  by_cases hid : id = a.edgeId
  · rw [hid, Subtree.files_appendAssertion]
    exact List.prefix_append _ _
  · rw [Subtree.files_appendAssertion_of_ne s hid]

theorem appendAll (s : Subtree) (l : List Assertion) : Grown s (appendAll s l) := by
  induction l generalizing s with
  | nil => exact .refl s
  | cons a l ih => exact (appendAssertion s a).trans (ih _)

theorem received {persona : PublicKeyHex} {raw : Delivery}
    (h : Received crypto now persona s raw s') : Grown s s' := by
  cases h with
  | unstored => exact .refl s
  | proposed hbody howedTo hsender hput hlegal happend =>
    rcases happend with rfl | rfl
    · exact .putEdge hput
    · exact (Grown.putEdge hput).trans (.appendAssertion _ _)
  | asserted => exact .appendAssertion s _
  | reconciled =>
    apply applyReconResponse_induction (.refl s)
    intro before entry s' _ hbefore hentry
    cases hentry with
    | unstored => exact hbefore
    | appended hget hpersona hresponder => exact hbefore.trans (.appendAll _ _)
  | rotated => exact ⟨fun _ _ h ↦ h, fun _ ↦ List.prefix_rfl⟩

theorem ingest (inbox : Inbox) (messages : List Delivery) :
    Grown inbox.vault (inbox.ingest crypto now budgetNow messages).1.vault :=
  Inbox.ingest_induction (.refl _) fun _ _ _ _ hbefore hraw ↦ hbefore.trans (.received hraw)

end Grown

theorem mem_getAssertions {id : Sha256Hex} : a ∈ s.getAssertions id ↔ a ∈ s.files id := by
  have hperm := List.perm_insertionSort
    (fun x y : Assertion × ℕ ↦ fileName x.2 ≤ fileName y.2) (s.files id).zipIdx
  have hmap := hperm.map Prod.fst
  rw [List.zipIdx_map_fst] at hmap
  exact hmap.mem_iff

theorem contains_sig_iff {l : List Assertion} {sig : SignatureHex} :
    (l.map (·.sig)).contains sig = true ↔ ∃ b ∈ l, b.sig = sig := by
  simp

/-- The message verifies and is for this persona: what the inbox asks of every type. -/
structure Delivered (crypto : Crypto) (inbox : Inbox) (m : WireMessage) : Prop where
  verified : crypto.verifyObject (.message m) m.sender = true
  addressed : m.recipient = inbox.persona

theorem ingest_propose (h : Delivered crypto inbox m)
    {payload : Except (Option EdgeName) ProposePayload} (hbody : m.body = .propose payload) :
    inbox.ingest crypto now budgetNow [.message m] =
      inbox.ingestPropose crypto now budgetNow m.sender payload .empty := by
  simp [Inbox.ingest, Inbox.ingestMessage, Delivery.speaksThisVersion, Delivery.verifyMessage,
    h.verified, h.addressed, hbody]

theorem ingest_assert (h : Delivered crypto inbox m)
    {payload : Except (Option EdgeName) Assertion} (hbody : m.body = .assert payload) :
    inbox.ingest crypto now budgetNow [.message m] =
      inbox.ingestAssert crypto now m.sender payload .empty := by
  simp [Inbox.ingest, Inbox.ingestMessage, Delivery.speaksThisVersion, Delivery.verifyMessage,
    h.verified, h.addressed, hbody]

theorem ingest_reconResponse (h : Delivered crypto inbox m) {response : ReconResponse}
    (hbody : m.body = .reconResponse (some response)) :
    inbox.ingest crypto now budgetNow [.message m] =
      ({ inbox with vault :=
          (applyReconResponse crypto inbox.vault inbox.persona m.sender now response).1 },
        { IngestResult.empty with recon :=
          (applyReconResponse crypto inbox.vault inbox.persona m.sender now response).2 }) := by
  simp [Inbox.ingest, Inbox.ingestMessage, Delivery.speaksThisVersion, Delivery.verifyMessage,
    h.verified, h.addressed, hbody, IngestResult.empty]

theorem delivered_of_accepted
    (h : (inbox.ingest crypto now budgetNow [.message m]).2.accepted ≠ []) :
    Delivered crypto inbox m := by
  simp only [Inbox.ingest, List.foldl_cons, List.foldl_nil, Inbox.ingestMessage,
    Delivery.speaksThisVersion, Delivery.verifyMessage, Bool.not_true, Bool.false_eq_true,
    if_false] at h
  by_cases hverified : crypto.verifyObject (.message m) m.sender = true
  · by_cases haddressed : m.recipient = inbox.persona
    · exact ⟨hverified, haddressed⟩
    · simp [hverified, haddressed, IngestResult.discard, IngestResult.empty] at h
  · simp [hverified, IngestResult.discard, IngestResult.empty] at h

/-- What the vault has kept of a message that was accepted. -/
inductive Filed (crypto : Crypto) (inbox : Inbox) (m : WireMessage) : Prop
  | proposal {edge held : Edge} {a : Assertion} (hbody : m.body = .propose (.ok ⟨edge, a⟩))
      (howedTo : edge.owedTo = inbox.persona) (hsender : m.sender = edge.owner)
      (hlegal : ∀ now, AcceptsLast crypto noRotations now edge [] a)
      (hget : inbox.vault.getEdge edge.edgeId = some held)
      (hdigest : crypto.hashCanonical (.edge held) = crypto.hashCanonical (.edge edge))
      (hsig : ∃ b ∈ inbox.vault.files edge.edgeId, b.sig = a.sig)
  | assertion {edge : Edge} {a : Assertion} (hbody : m.body = .assert (.ok a))
      (hget : inbox.vault.getEdge a.edgeId = some edge)
      (hsig : ∃ b ∈ inbox.vault.files edge.edgeId, b.sig = a.sig)

theorem Filed.ingest (h : Filed crypto inbox m) (messages : List Delivery) :
    Filed crypto (inbox.ingest crypto now budgetNow messages).1 m := by
  have hgrown := @Grown.ingest crypto now budgetNow inbox messages
  have hpersona := @Inbox.ingest_persona crypto now inbox budgetNow messages
  cases h with
  | proposal hbody howedTo hsender hlegal hget hdigest hsig =>
    obtain ⟨b, hb, hsig⟩ := hsig
    exact .proposal hbody (howedTo.trans hpersona.symm) hsender hlegal (hgrown.edges _ _ hget)
      hdigest ⟨b, (hgrown.files _).subset hb, hsig⟩
  | assertion hbody hget hsig =>
    obtain ⟨b, hb, hsig⟩ := hsig
    exact .assertion hbody (hgrown.edges _ _ hget) ⟨b, (hgrown.files _).subset hb, hsig⟩

theorem Delivered.ingest (h : Delivered crypto inbox m) (messages : List Delivery) :
    Delivered crypto (inbox.ingest crypto now budgetNow messages).1 m :=
  ⟨h.verified, h.addressed.trans (@Inbox.ingest_persona crypto now inbox budgetNow messages).symm⟩

/-- What storing a proposal that is bound to its edge leaves. -/
theorem surface_filed (hbound : edgeBindingFailure crypto inbox.vault edge = none)
    (hid : a.edgeId = edge.edgeId) :
    (∃ held, (inbox.surface crypto edge a).vault.getEdge edge.edgeId = some held ∧
        crypto.hashCanonical (.edge held) = crypto.hashCanonical (.edge edge)) ∧
      ∃ b ∈ (inbox.surface crypto edge a).vault.files edge.edgeId, b.sig = a.sig := by
  obtain ⟨hbind, hbody⟩ := edgeBindingFailure_eq_none_iff.mp hbound
  have hput : ∃ s, inbox.vault.putEdge crypto edge = some s ∧ ∃ held,
      s.getEdge edge.edgeId = some held ∧
        crypto.hashCanonical (.edge held) = crypto.hashCanonical (.edge edge) := by
    cases hget : inbox.vault.getEdge edge.edgeId with
    | none =>
      exact ⟨{ inbox.vault with edges := inbox.vault.edges.put edge },
        by simp [Subtree.putEdge, hbind, hget], edge, Directory.get?_put_self _ _, rfl⟩
    | some held =>
      have hdigest := hbody held hget
      exact ⟨_, by simp [Subtree.putEdge, hbind, hget, hdigest], held, hget, hdigest⟩
  obtain ⟨s, hput, held, hget, hdigest⟩ := hput
  unfold Inbox.surface
  simp only [hput]
  split_ifs with hsig
  · obtain ⟨b, hb, hsig⟩ := contains_sig_iff.mp hsig
    exact ⟨⟨held, hget, hdigest⟩, b, mem_getAssertions.mp hb, hsig⟩
  · refine ⟨⟨held, hget, hdigest⟩, a, ?_, rfl⟩
    rw [← hid, Subtree.files_appendAssertion]
    simp

/-- The checks on a proposal before any budget is asked. -/
structure Admissible (crypto : Crypto) (now : Rfc3339) (inbox : Inbox) (sender : PublicKeyHex)
    (edge : Edge) (a : Assertion) : Prop where
  bound : edgeBindingFailure crypto inbox.vault edge = none
  addressed : edge.owedTo = inbox.persona
  owned : sender = edge.owner
  legal : AcceptsLast crypto noRotations (some now) edge [] a

variable {sender : PublicKeyHex} {result : IngestResult}

theorem ingestPropose_inadmissible (h : ¬Admissible crypto now inbox sender edge a) :
    ∃ reason, inbox.ingestPropose crypto now budgetNow sender (.ok ⟨edge, a⟩) result =
      (inbox, result.discard (some .propose) (some (.id edge.edgeId)) reason) := by
  unfold Inbox.ingestPropose
  cases hbound : edgeBindingFailure crypto inbox.vault edge with
  | some bound => exact ⟨bound, by simp [hbound]⟩
  | none =>
  cases hlegal : (verifyAssertionChain crypto noRotations (some now) edge [a]).outcomes.head?.bind
      (·.rejectionReason) with
  | some reason =>
    simp only [hbound, hlegal]
    split_ifs
    · exact ⟨_, rfl⟩
    · exact ⟨_, rfl⟩
    · exact ⟨_, rfl⟩
  | none =>
  by_cases howedTo : edge.owedTo = inbox.persona
  · by_cases hsender : sender = edge.owner
    · exact absurd ⟨hbound, howedTo, hsender,
        acceptsLast_of_unrejected (by rwa [List.head?_eq_getElem?] at hlegal)⟩ h
    · exact ⟨.proposerIsNotTheOwner, by simp [hbound, howedTo, hsender]⟩
  · exact ⟨.notAddressedToThisPersona, by simp [hbound, howedTo]⟩

theorem ingestPropose_admissible (h : Admissible crypto now inbox sender edge a) :
    inbox.ingestPropose crypto now budgetNow sender (.ok ⟨edge, a⟩) result =
      if (inbox.vault.getEdge edge.edgeId).isSome &&
          ((inbox.vault.getAssertions edge.edgeId).map (·.sig)).contains a.sig then
        (inbox, result.accept .propose (some edge.edgeId))
      else match (inbox.admission budgetNow sender).2 with
        | some reason => ((inbox.admission budgetNow sender).1, { result with
            suppressed := result.suppressed ++ [(sender, edge.edgeId, reason)] })
        | none => ((inbox.admission budgetNow sender).1.surface crypto edge a,
            result.accept .propose (some edge.edgeId)) := by
  have hlegal : (verifyAssertionChain crypto noRotations (some now) edge [a]).outcomes.head?.bind
      (·.rejectionReason) = none := by
    rw [List.head?_eq_getElem?]
    exact unrejected_of_acceptsLast h.legal
  unfold Inbox.ingestPropose
  simp only [h.bound, h.addressed, h.owned, hlegal, ne_eq, not_true_eq_false, if_false] <;> rfl

theorem accepted_propose {edge : Edge} {a : Assertion}
    (hbody : m.body = .propose (.ok ⟨edge, a⟩))
    (h : (inbox.ingest crypto now budgetNow [.message m]).2.accepted ≠ []) :
    Filed crypto (inbox.ingest crypto now budgetNow [.message m]).1 m := by
  have hdelivered := delivered_of_accepted h
  rw [ingest_propose hdelivered hbody] at h ⊢
  by_cases hadmissible : Admissible crypto now inbox m.sender edge a
  swap
  · obtain ⟨reason, hdiscard⟩ := @ingestPropose_inadmissible crypto now budgetNow inbox edge a
      m.sender .empty hadmissible
    rw [hdiscard] at h
    exact absurd rfl h
  rw [ingestPropose_admissible hadmissible] at h ⊢
  obtain ⟨hbound, howedTo, hsender, hlegal⟩ := hadmissible
  have hfirst := acceptsLast_first_iff.mp hlegal
  have hlegal (now : Option Rfc3339) : AcceptsLast crypto noRotations now edge [] a :=
    acceptsLast_first_iff.mpr hfirst
  split_ifs at h ⊢ with hheld
  · obtain ⟨hsome, hsig⟩ := (Bool.and_eq_true _ _).mp hheld
    obtain ⟨held, hget⟩ := Option.isSome_iff_exists.mp hsome
    obtain ⟨b, hb, hsig⟩ := contains_sig_iff.mp hsig
    exact .proposal hbody howedTo hsender hlegal hget
      ((edgeBindingFailure_eq_none_iff.mp hbound).2 held hget) ⟨b, mem_getAssertions.mp hb, hsig⟩
  · cases hadmission : (inbox.admission budgetNow m.sender).2 with
    | some reason =>
      rw [hadmission] at h
      exact absurd rfl h
    | none =>
      have hvault := Inbox.admission_vault budgetNow inbox m.sender
      have hpersona := Inbox.admission_persona budgetNow inbox m.sender
      obtain ⟨⟨held, hget, hdigest⟩, hsig⟩ := @surface_filed crypto
        (inbox.admission budgetNow m.sender).1 edge a (by rwa [hvault]) hfirst.2.1
      exact .proposal hbody (howedTo.trans (hpersona.symm.trans Inbox.surface_persona.symm)) hsender
        hlegal hget hdigest hsig

/-- Both parties to an assertion still count as such: this persona and its sender. -/
def Recognised (crypto : Crypto) (inbox : Inbox) (sender : PublicKeyHex) (edge : Edge) : Prop :=
  isPartyOrSuccessor edge inbox.persona (partyLineage crypto inbox.vault) = true ∧
    isPartyOrSuccessor edge sender (partyLineage crypto inbox.vault) = true

theorem ingestAssert_unrecognised (hget : inbox.vault.getEdge a.edgeId = some edge)
    (h : ¬Recognised crypto inbox sender edge) :
    ∃ reason, inbox.ingestAssert crypto now sender (.ok a) result =
      (inbox, result.discard (some .assert) (some (.id edge.edgeId)) reason) := by
  unfold Inbox.ingestAssert
  simp only [hget]
  split_ifs with hpersona hsender
  · exact ⟨_, rfl⟩
  · exact ⟨_, rfl⟩
  all_goals exact absurd ⟨by simpa using hpersona, by simpa using hsender⟩ h

theorem ingestAssert_recognised (hget : inbox.vault.getEdge a.edgeId = some edge)
    (h : Recognised crypto inbox sender edge) :
    inbox.ingestAssert crypto now sender (.ok a) result =
      if ((inbox.vault.getAssertions edge.edgeId).map (·.sig)).contains a.sig then (inbox, result)
      else match ((verifyAssertionChain crypto (partyLineage crypto inbox.vault) (some now) edge
          (inbox.vault.getAssertions edge.edgeId ++ [a])).outcomes[
          (inbox.vault.getAssertions edge.edgeId).length]?).bind (·.rejectionReason) with
        | some reason => (inbox, result.discard (some .assert) (some (.id edge.edgeId))
            (.transitionTable reason))
        | none => ({ inbox with vault := inbox.vault.appendAssertion a },
            result.accept .assert (some edge.edgeId)) := by
  unfold Inbox.ingestAssert
  simp only [hget, h.1, h.2, Bool.not_true, Bool.false_eq_true, if_false] <;> rfl

theorem accepted_assert {a : Assertion} (hbody : m.body = .assert (.ok a))
    (h : (inbox.ingest crypto now budgetNow [.message m]).2.accepted ≠ []) :
    Filed crypto (inbox.ingest crypto now budgetNow [.message m]).1 m := by
  have hdelivered := delivered_of_accepted h
  rw [ingest_assert hdelivered hbody] at h ⊢
  cases hget : inbox.vault.getEdge a.edgeId with
  | none => simp [Inbox.ingestAssert, hget, IngestResult.discard, IngestResult.empty] at h
  | some edge =>
  have hid : edge.edgeId = a.edgeId := Directory.name_of_get? hget
  by_cases hrecognised : Recognised crypto inbox m.sender edge
  swap
  · obtain ⟨reason, hdiscard⟩ := @ingestAssert_unrecognised crypto now inbox edge a m.sender .empty
      hget hrecognised
    rw [hdiscard] at h
    exact absurd rfl h
  rw [ingestAssert_recognised hget hrecognised] at h ⊢
  split_ifs at h ⊢ with hheld
  · exact absurd rfl h
  · split at h
    next => exact absurd rfl h
    next =>
      refine .assertion hbody hget ⟨a, ?_, rfl⟩
      rw [hid]
      exact (Subtree.files_appendAssertion inbox.vault a).symm ▸ by simp

/-- An inbox that has accepted a proposal or an assertion, and taken in whatever came since. -/
inductive Took (crypto : Crypto) (m : WireMessage) : Inbox → Prop
  | accepted {inbox : Inbox} {now : Rfc3339} {budgetNow : ℤ}
      (htype : m.body.type = .propose ∨ m.body.type = .assert)
      (h : (inbox.ingest crypto now budgetNow [.message m]).2.accepted ≠ []) :
      Took crypto m (inbox.ingest crypto now budgetNow [.message m]).1
  | later {inbox : Inbox} (h : Took crypto m inbox) (now : Rfc3339) (budgetNow : ℤ)
      (messages : List Delivery) : Took crypto m (inbox.ingest crypto now budgetNow messages).1

/-- A message the inbox has had before: one it accepted, or a response with nothing new in it. -/
inductive Redelivered (crypto : Crypto) (inbox : Inbox) (m : WireMessage) : Prop
  | took (h : Took crypto m inbox)
  | held {response : ReconResponse} (hbody : m.body = .reconResponse (some response))
      (hdelivered : Delivered crypto inbox m)
      (hheld : ∀ entry ∈ response.edges, ∀ a ∈ entry.assertions,
        ∃ b ∈ inbox.vault.getAssertions entry.edgeId, b.sig = a.sig)

/-- A delivery that changes neither the vault nor the budget, and is not reported as discarded. -/
structure Invisible (crypto : Crypto) (now : Rfc3339) (budgetNow : ℤ) (inbox : Inbox)
    (m : WireMessage) : Prop where
  unchanged : (inbox.ingest crypto now budgetNow [.message m]).1 = inbox
  undiscarded : (inbox.ingest crypto now budgetNow [.message m]).2.discarded = []
  reconUndiscarded : (inbox.ingest crypto now budgetNow [.message m]).2.recon.discarded = []

/-- An assertion's two ends still count as parties to its edge, by the rotations held now. -/
def StillParties (crypto : Crypto) (inbox : Inbox) (m : WireMessage) : Prop :=
  ∀ a edge, m.body = .assert (.ok a) → inbox.vault.getEdge a.edgeId = some edge →
    Recognised crypto inbox m.sender edge

theorem Took.filed (h : Took crypto m inbox) : Delivered crypto inbox m ∧ Filed crypto inbox m := by
  induction h with
  | @accepted inbox now budgetNow htype h =>
    refine ⟨(delivered_of_accepted h).ingest _, ?_⟩
    have hdelivered := delivered_of_accepted h
    cases hbody : m.body with
    | propose payload =>
      cases payload with
      | ok payload => exact accepted_propose hbody h
      | error name =>
        rw [ingest_propose hdelivered hbody] at h
        exact absurd rfl h
    | assert payload =>
      cases payload with
      | ok a => exact accepted_assert hbody h
      | error name =>
        rw [ingest_assert hdelivered hbody] at h
        exact absurd rfl h
    | _ => simp [hbody, WireBody.type] at htype
  | later _ now budgetNow messages ih => exact ⟨ih.1.ingest messages, ih.2.ingest messages⟩

theorem filed_proposal_invisible {a : Assertion} {held : Edge} (hdelivered : Delivered crypto inbox m)
    (hbody : m.body = .propose (.ok ⟨edge, a⟩)) (howedTo : edge.owedTo = inbox.persona)
    (hsender : m.sender = edge.owner)
    (hlegal : AcceptsLast crypto noRotations (some now) edge [] a)
    (hget : inbox.vault.getEdge edge.edgeId = some held)
    (hdigest : crypto.hashCanonical (.edge held) = crypto.hashCanonical (.edge edge))
    (hsig : ∃ b ∈ inbox.vault.files edge.edgeId, b.sig = a.sig) :
    Invisible crypto now budgetNow inbox m := by
  have hbind : crypto.edgeIdBindsBody edge = true :=
    (edgeMalformed_eq_none_iff.mp (acceptsLast_first_iff.mp hlegal).1).1
  have hbound : edgeBindingFailure crypto inbox.vault edge = none := by
    refine edgeBindingFailure_eq_none_iff.mpr ⟨hbind, fun other hother ↦ ?_⟩
    rw [hget] at hother
    cases hother
    exact hdigest
  have hsigs : ((inbox.vault.getAssertions edge.edgeId).map (·.sig)).contains a.sig = true := by
    obtain ⟨b, hb, hsig⟩ := hsig
    exact contains_sig_iff.mpr ⟨b, mem_getAssertions.mpr hb, hsig⟩
  have hingest := @ingestPropose_admissible crypto now budgetNow inbox edge a m.sender .empty
    ⟨hbound, howedTo, hsender, hlegal⟩
  rw [hget, hsigs, Option.isSome_some, Bool.and_true, if_pos rfl,
    ← ingest_propose hdelivered hbody] at hingest
  exact ⟨by rw [hingest], by rw [hingest]; rfl, by rw [hingest]; rfl⟩

theorem filed_assertion_invisible_iff {a : Assertion} (hdelivered : Delivered crypto inbox m)
    (hbody : m.body = .assert (.ok a)) (hget : inbox.vault.getEdge a.edgeId = some edge)
    (hsig : ∃ b ∈ inbox.vault.files edge.edgeId, b.sig = a.sig) :
    Invisible crypto now budgetNow inbox m ↔ Recognised crypto inbox m.sender edge := by
  have hsigs : ((inbox.vault.getAssertions edge.edgeId).map (·.sig)).contains a.sig = true := by
    obtain ⟨b, hb, hsig⟩ := hsig
    exact contains_sig_iff.mpr ⟨b, mem_getAssertions.mpr hb, hsig⟩
  have hingest := @ingest_assert crypto now budgetNow inbox m hdelivered _ hbody
  constructor
  · intro h
    by_contra hrecognised
    obtain ⟨reason, hdiscard⟩ := @ingestAssert_unrecognised crypto now inbox edge a m.sender .empty
      hget hrecognised
    have hundiscarded := h.undiscarded
    rw [hingest, hdiscard] at hundiscarded
    cases hundiscarded
  · intro h
    rw [ingestAssert_recognised hget h, if_pos hsigs] at hingest
    exact ⟨by rw [hingest], by rw [hingest]; rfl, by rw [hingest]; rfl⟩

theorem incoming_eq_nil {held assertions : List Assertion}
    (h : ∀ a ∈ assertions, ∃ b ∈ held, b.sig = a.sig) : incoming held assertions = [] := by
  have hfilter : (assertions.filter fun a ↦ !(held.map (·.sig)).contains a.sig) = [] := by
    apply List.filter_eq_nil_iff.mpr
    intro a ha
    simpa using h a ha
  rw [incoming, hfilter]
  rfl

/-- A response with nothing new in it is applied without a trace. -/
theorem applyReconResponse_held {persona responder : PublicKeyHex} {response : ReconResponse}
    (h : ∀ entry ∈ response.edges, ∀ a ∈ entry.assertions,
      ∃ b ∈ s.getAssertions entry.edgeId, b.sig = a.sig) :
    (applyReconResponse crypto s persona responder now response).1 = s ∧
      (applyReconResponse crypto s persona responder now response).2.discarded = [] := by
  obtain ⟨entries⟩ := response
  induction entries using List.reverseRecOn with
  | nil => exact ⟨rfl, rfl⟩
  | append_singleton entries entry ih =>
    obtain ⟨hvault, hdiscarded⟩ := ih fun other hother ↦ h other (List.mem_append_left _ hother)
    have hentry := incoming_eq_nil (h entry (by simp))
    rw [applyReconResponse_snoc]
    generalize applyReconResponse crypto s persona responder now ⟨entries⟩ = acc at hvault hdiscarded ⊢
    obtain ⟨s', result⟩ := acc
    obtain rfl : s' = s := hvault
    unfold applyReconEntry
    cases hget : s'.getEdge entry.edgeId with
    | none => simpa [hget] using hdiscarded
    | some edge =>
      simp only [hget, hentry, judged, List.zip_nil_left, keptOf, discardedOf, List.filter_nil,
        List.map_nil, List.filterMap_nil, List.append_nil]
      split_ifs
      · exact ⟨rfl, hdiscarded⟩
      · exact ⟨rfl, hdiscarded⟩

/-- A message had before is taken in without a trace, unless it is an assertion and one of its two
ends no longer counts as a party to the edge. -/
theorem redelivery_invisible_iff (h : Redelivered crypto inbox m) (now : Rfc3339) (budgetNow : ℤ) :
    Invisible crypto now budgetNow inbox m ↔ StillParties crypto inbox m := by
  cases h with
  | took h =>
    obtain ⟨hdelivered, hfiled⟩ := h.filed
    cases hfiled with
    | proposal hbody howedTo hsender hlegal hget hdigest hsig =>
      refine iff_of_true (filed_proposal_invisible hdelivered hbody howedTo hsender
        (hlegal (some now)) hget hdigest hsig) fun a edge hassert ↦ ?_
      rw [hbody] at hassert
      cases hassert
    | assertion hbody hget hsig =>
      rw [filed_assertion_invisible_iff hdelivered hbody hget hsig]
      refine ⟨fun hrecognised a edge hassert hedge ↦ ?_, fun hstill ↦ hstill _ _ hbody hget⟩
      rw [hbody] at hassert
      cases hassert
      rw [hget] at hedge
      cases hedge
      exact hrecognised
  | held hbody hdelivered hheld =>
    have happlied := @applyReconResponse_held crypto now inbox.vault inbox.persona m.sender _ hheld
    have hingest := @ingest_reconResponse crypto now budgetNow inbox m hdelivered _ hbody
    refine iff_of_true ⟨?_, ?_, ?_⟩ fun a edge hassert ↦ ?_
    · rw [hingest, happlied.1]
    · rw [hingest]
      rfl
    · rw [hingest]
      exact happlied.2
    · rw [hbody] at hassert
      cases hassert

section Forked

open Sample

def creditorInbox : Inbox where
  persona := creditorKey
  vault :=
    { Subtree.empty with
      edges := Directory.empty.put Sample.edge
      files := fun id ↦ if id = Sample.edge.edgeId then [proposal, confirmation] else [] }
  budget := none
  level _ _ := .zero

def succession : Delivery := .message ⟨.rotation (some ownerRotation), nextKey, creditorKey, date 3 3 0,
  0xf896228a8bc577f22dd1ebaf84a743c9125e48150e4bd29eeb0b585fb1756f2aa1ca39829ee93096f301b6931dde05b067c6ac2b1522974ef37b80f59e6d964a⟩

def closingMessage : WireMessage := ⟨.assert (.ok (act .closed nextKey (date 3 3 10) (some evidence)
    0x173f27da9143c2b65a5e1e17863eba6c650b76acfa272141f2e349faca2fbbf9f6777b3995cf8d8053e11e7833479d88151e327a430708fa0d20b93354509f1b)),
  nextKey, creditorKey, date 3 3 10,
  0x3f4aea86a86de42ddccadd5234d649fca58a232f5da0058f09f3fdccaa7080e0d5c17d18644f60fef62c56f879ed1fce63984133bedfc7d492e8df11f0f28558⟩

def strangeKey : PublicKeyHex := 0xfefcd3e7fad61ca289fb7d3b66c52f171af11e43fd137dbcfe0c39c0e967a3f3

/-- The owner's old key names a second successor. -/
def secondSuccession : Delivery := .message ⟨.rotation (some (rotate ownerKey strangeKey (date 3 4 0)
    0xa23dee65427a47846a232842355691a25305719031a9cc4fbdc8cc7c10e87453f52ba0e82e6e797e7747e543d7d5bf4000925fc6969983ca6ee35c7e015fcc00)),
  ownerKey, creditorKey, date 3 4 0,
  0x14d6a776553721af3fe97441ddd6764f72b69d26f2cda3fd5c667a87bf51b5ad3e14e99dda29b371b490eff215d4e6271107d78073d03878e7f475f2bf0a07c6⟩

def rotatedInbox : Inbox := (creditorInbox.ingest Sample.crypto (date 3 3 0) 0 [succession]).1

def closedInbox : Inbox :=
  (rotatedInbox.ingest Sample.crypto (date 3 3 10) 0 [.message closingMessage]).1

def forkedInbox : Inbox := (closedInbox.ingest Sample.crypto (date 3 4 0) 0 [secondSuccession]).1

theorem closing_taken : Took Sample.crypto closingMessage closedInbox :=
  .accepted (.inr rfl) (by decide +kernel)

theorem closing_redelivered :
    Invisible Sample.crypto (date 3 3 11) 0 closedInbox closingMessage := by
  refine (redelivery_invisible_iff (.took closing_taken) (date 3 3 11) 0).mpr ?_
  intro a edge hassert hget
  cases hassert
  have hedge : closedInbox.vault.getEdge Sample.edge.edgeId = some Sample.edge := by decide +kernel
  obtain rfl : Sample.edge = edge := Option.some.inj (hedge.symm.trans hget)
  exact ⟨by decide +kernel, by decide +kernel⟩

/-- The successor's closure is accepted, a second rotation of the owner's old key forks the lineage,
and the closure delivered again is discarded as a stranger's. -/
theorem fork_discards : ¬∀ inbox m, Redelivered Sample.crypto inbox m →
    ∀ now budgetNow, Invisible Sample.crypto now budgetNow inbox m := by
  intro h
  have htook : Took Sample.crypto closingMessage forkedInbox :=
    closing_taken.later (date 3 4 0) 0 [secondSuccession]
  have hundiscarded := (h _ _ (.took htook) (date 3 4 1) 0).undiscarded
  have hdiscarded : (forkedInbox.ingest Sample.crypto (date 3 4 1) 0
      [.message closingMessage]).2.discarded =
      [(some .assert, some (.id Sample.edge.edgeId), .senderIsNotAParty)] := by decide +kernel
  rw [hdiscarded] at hundiscarded
  cases hundiscarded

end Forked

end Servanda.Redelivery
