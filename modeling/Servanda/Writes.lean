import Servanda.Kept

namespace Servanda.Writes

open Transitions Serve Recon

variable (crypto : Crypto) (now : Rfc3339)

structure Stored (n : Sha256Hex → ℕ) (s : Subtree) : Prop where
  kept : Kept crypto now s
  room : Room s n

variable {crypto now} {s : Subtree} {n : Sha256Hex → ℕ} {edge : Edge} {l : List Assertion}
  {a : Assertion} {persona : PublicKeyHex}

namespace Stored

theorem mono {m : Sha256Hex → ℕ} (h : Stored crypto now n s) (hle : ∀ id, m id ≤ n id) :
    Stored crypto now m s := ⟨h.kept, h.room.mono hle⟩

theorem split {m : List Assertion} (h : Stored crypto now (fun i ↦ count (l ++ m) i + n i) s) :
    Stored crypto now (fun i ↦ count l i + (count m i + n i)) s :=
  h.mono fun i ↦ by simp only [count, List.countP_append]; omega

theorem drop (h : Stored crypto now (fun i ↦ count l i + n i) s) : Stored crypto now n s :=
  h.mono fun _ ↦ Nat.le_add_left _ _

theorem appendKept (h : Stored crypto now (fun i ↦ count l i + n i) s)
    (hedge : edgeMalformed crypto edge = none)
    (hbody : ∀ held, s.getEdge edge.edgeId = some held → held = edge)
    (hne : s.files edge.edgeId ++
      keptOf (judged crypto noRotations now edge (s.files edge.edgeId)
        (incoming (s.files edge.edgeId) l)) ≠ []) :
    Stored crypto now n (appendAll { s with edges := s.edges.put edge }
      (keptOf (judged crypto noRotations now edge (s.files edge.edgeId)
        (incoming (s.files edge.edgeId) l)))) := by
  have hlength := @length_keptOf_le crypto noRotations now edge (s.files edge.edgeId) l
  rw [keptOf_judged hedge] at hne hlength ⊢
  refine ⟨h.kept.grow hedge hbody (Replay.path_accepted _ _) hne, ?_⟩
  have hroom : Room { s with edges := s.edges.put edge }
      fun i ↦ (if i = edge.edgeId then count l edge.edgeId else 0) + n i := by
    refine Room.mono (n := fun i ↦ count l i + n i) h.room fun i ↦ ?_
    split_ifs with hi
    · rw [hi]
    · omega
  exact hroom.appendAll (fun a ha ↦ edgeId_of_accepted ha) hlength

theorem reconEntry {entry : ReconEntry} {responder : PublicKeyHex} {result : ReconApplyResult}
    (h : Stored crypto now (fun i ↦ count entry.assertions i + n i) s) :
    Stored crypto now n
      (applyReconEntry crypto persona responder noRotations now (s, result) entry).1 := by
  unfold applyReconEntry
  cases hget : s.getEdge entry.edgeId with
  | none => simpa [hget] using h.drop
  | some edge =>
    have hid : edge.edgeId = entry.edgeId := Directory.name_of_get? hget
    have hmem := Directory.mem_of_get? hget
    simp only [hget]
    split_ifs
    · exact h.drop
    · have hgrown := h.appendKept (h.kept.wellFormed edge hmem)
        (fun held hheld ↦ by
          rw [hid, hget] at hheld
          exact (Option.some.inj hheld).symm)
        (by simp [h.kept.started edge hmem])
      rw [Directory.put_of_get? (by rw [hid]; exact hget), hid] at hgrown
      rw [h.room.getAssertions]
      exact hgrown

theorem reconResponse {response : ReconResponse} {responder : PublicKeyHex}
    (h : Stored crypto now (fun i ↦ count (response.edges.flatMap (·.assertions)) i + n i) s) :
    Stored crypto now n (applyReconResponse crypto s persona responder now response).1 := by
  obtain ⟨entries⟩ := response
  unfold applyReconResponse
  rw [h.kept.lineage]
  generalize (⟨[], [], []⟩ : ReconApplyResult) = result
  induction entries generalizing s result with
  | nil => exact h.drop
  | cons entry entries ih => exact ih (Stored.split h).reconEntry _

theorem appendAssertion {id : Sha256Hex}
    (h : Stored crypto now (fun i ↦ (if i = id then 1 else 0) + n i) s)
    (hid : edge.edgeId = id) (hheld : s.getEdge edge.edgeId = some edge)
    (ha : AcceptsLast crypto noRotations (some now) edge (s.files edge.edgeId) a) :
    Stored crypto now n (s.appendAssertion a) := by
  subst hid
  refine ⟨h.kept.append hheld ha, ?_⟩
  obtain ⟨-, ctx, hj⟩ := acceptsLast_iff.mp ha
  have habout : a.edgeId = edge.edgeId := (judge_ok_iff.mp hj).2.1.aboutEdge
  exact Room.appendAll (l := [a]) h.room (by simpa using habout) le_rfl

theorem enter (h : Stored crypto now n s) (hnil : s.files edge.edgeId = [])
    (hn : n edge.edgeId < 10000) (ha : AcceptsLast crypto noRotations (some now) edge [] a) :
    Stored crypto now n (({ s with edges := s.edges.put edge } : Subtree).appendAssertion a) := by
  refine ⟨h.kept.enter hnil ha, fun id ↦ ?_⟩
  obtain ⟨-, ctx, hj⟩ := acceptsLast_iff.mp ha
  have habout : a.edgeId = edge.edgeId := (judge_ok_iff.mp hj).2.1.aboutEdge
  by_cases hid : id = a.edgeId
  · subst hid
    rw [Subtree.files_appendAssertion, habout, hnil]
    simp only [List.nil_append, List.length_singleton]
    omega
  · rw [Subtree.files_appendAssertion_of_ne _ hid]
    exact h.room id

theorem congr {s' : Subtree} (h : Stored crypto now n s) (hr : s'.rotations = s.rotations)
    (he : s'.edges = s.edges) (hf : s'.files = s.files) : Stored crypto now n s' := by
  refine ⟨h.kept.congr hr he hf, fun id ↦ ?_⟩
  rw [hf]
  exact h.room id

end Stored

theorem proposedByOwner_spec {held new : List Assertion}
    (h : Recovery.proposedByOwner edge ((held ++ new).zip
      (verifyAssertionChain crypto noRotations (some now) edge (held ++ new)).outcomes) = true) :
    edgeMalformed crypto edge = none ∧
      held ++ keptOf (judged crypto noRotations now edge held new) ≠ [] := by
  obtain ⟨v, hv, hacc⟩ := List.any_eq_true.mp h
  have haccepted : v.2.accepted = true := by
    simp only [Bool.and_eq_true] at hacc
    exact hacc.1.1
  constructor
  · cases hm : edgeMalformed crypto edge with
    | none => rfl
    | some reason =>
      have hmem := (List.of_mem_zip hv).2
      simp only [verifyAssertionChain, hm] at hmem
      obtain ⟨i, hi, hv⟩ := List.mem_mapIdx.mp hmem
      rw [← hv] at haccepted
      cases haccepted
  · intro hnil
    obtain ⟨rfl, hkept⟩ := List.append_eq_nil_iff.mp hnil
    rw [keptOf, List.map_eq_nil_iff, List.filter_eq_nil_iff] at hkept
    exact hkept v hv haccepted

variable (crypto) in
/-- No two bodies at hand have the digest of one. -/
def Distinct (bodies : List Edge) : Prop :=
  ∀ e ∈ bodies, ∀ e' ∈ bodies,
    crypto.hashCanonical (.edge e) = crypto.hashCanonical (.edge e') → e = e'

namespace Stored

theorem recoverEntry {entry : RecoverEntry} {result : RecoverApplyResult} {bodies : List Edge}
    (hdistinct : Distinct crypto bodies) (hentry : entry.edge ∈ bodies)
    (hbodies : ∀ e ∈ s.edges.values, e ∈ bodies)
    (h : Stored crypto now (fun i ↦ count entry.assertions i + n i) s) :
    let s' := (Recovery.applyRecoverEntry crypto persona noRotations now (s, result) entry).1
    Stored crypto now n s' ∧ ∀ e ∈ s'.edges.values, e ∈ bodies := by
  obtain ⟨edge, assertions⟩ := entry
  unfold Recovery.applyRecoverEntry
  simp only [h.room.getAssertions]
  split_ifs with hparty hproposed
  · exact ⟨h.drop, hbodies⟩
  · cases edgeBindingFailure crypto s edge <;> exact ⟨h.drop, hbodies⟩
  cases edgeBindingFailure crypto s edge with
  | some bound => exact ⟨h.drop, hbodies⟩
  | none =>
  cases hput : s.putEdge crypto edge with
  | none => exact ⟨h.drop, hbodies⟩
  | some s' =>
  obtain ⟨hedge, hne⟩ := proposedByOwner_spec (by simpa using hproposed)
  have hbody : ∀ held, s.getEdge edge.edgeId = some held →
      crypto.hashCanonical (.edge held) = crypto.hashCanonical (.edge edge) → held = edge :=
    fun held hget ↦ hdistinct held (hbodies held (Directory.mem_of_get? hget)) edge hentry
  obtain ⟨-, ⟨held, hget, hhash, rfl⟩ | ⟨hget, rfl⟩⟩ := Subtree.putEdge_cases hput
  · have hheld : s'.getEdge edge.edgeId = some edge := by rw [hget, hbody held hget hhash]
    have hgrown := h.appendKept hedge (fun other hother ↦ by
      rw [hheld] at hother
      exact (Option.some.inj hother).symm) hne
    rw [Directory.put_of_get? hheld] at hgrown
    refine ⟨hgrown, ?_⟩
    simpa only [edges_appendAll] using hbodies
  · refine ⟨h.appendKept hedge (fun other hother ↦ by
      rw [hget] at hother
      cases hother) hne, ?_⟩
    simp only [edges_appendAll]
    intro e he
    rcases Directory.mem_values_put.mp he with rfl | ⟨he, -⟩
    · exact hentry
    · exact hbodies e he

theorem recoverResponse {response : RecoverResponse}
    (hdistinct : Distinct crypto (s.edges.values ++ response.edges.map (·.edge)))
    (h : Stored crypto now (fun i ↦ count (response.edges.flatMap (·.assertions)) i + n i) s) :
    Stored crypto now n (Recovery.applyRecoverResponse crypto s persona now response).1 := by
  obtain ⟨entries⟩ := response
  unfold Recovery.applyRecoverResponse
  rw [h.kept.lineage]
  have hentries : ∀ entry ∈ entries, entry.edge ∈ s.edges.values ++ entries.map (·.edge) :=
    fun entry hentry ↦ List.mem_append_right _ (List.mem_map_of_mem hentry)
  have hbodies : ∀ e ∈ s.edges.values, e ∈ s.edges.values ++ entries.map (·.edge) :=
    fun e he ↦ List.mem_append_left _ he
  generalize s.edges.values ++ entries.map (·.edge) = bodies at hdistinct hentries hbodies
  generalize (⟨[], []⟩ : RecoverApplyResult) = result
  induction entries generalizing s result with
  | nil => exact h.drop
  | cons entry entries ih =>
    obtain ⟨hentry, hrest⟩ := List.forall_mem_cons.mp hentries
    obtain ⟨hstep, hwithin⟩ := (Stored.split h).recoverEntry hdistinct hentry hbodies
    exact ih hstep hrest hwithin _

end Stored

variable (crypto now) in
/-- A proposal that passes every rule of the inbox, on an edge whose chain has begun without it. -/
structure ProposedAgain (persona : PublicKeyHex) (s : Subtree) (sender : PublicKeyHex) (edge : Edge)
    (a : Assertion) : Prop where
  toPersona : edge.owedTo = persona
  byOwner : sender = edge.owner
  bound : edgeBindingFailure crypto s edge = none
  legal : AcceptsLast crypto noRotations (some now) edge [] a
  begun : s.getAssertions edge.edgeId ≠ []
  unknown : a.sig ∉ (s.getAssertions edge.edgeId).map (·.sig)

namespace Stored

variable {inbox : Inbox} {budgetNow : ℤ} {sender : PublicKeyHex} {result : IngestResult}

theorem surface (h : Stored crypto now (fun i ↦ count [a] i + n i) inbox.vault)
    (hnil : inbox.vault.files edge.edgeId = [])
    (ha : AcceptsLast crypto noRotations (some now) edge [] a) :
    Stored crypto now n (inbox.surface crypto edge a).vault := by
  obtain ⟨-, ctx, hj⟩ := acceptsLast_iff.mp ha
  have habout : a.edgeId = edge.edgeId := (judge_ok_iff.mp hj).2.1.aboutEdge
  unfold Inbox.surface
  cases hput : inbox.vault.putEdge crypto edge with
  | none => exact h.drop
  | some vault =>
    obtain ⟨-, ⟨held, hget, -, -⟩ | ⟨hget, rfl⟩⟩ := Subtree.putEdge_cases hput
    · have hid : held.edgeId = edge.edgeId := Directory.name_of_get? hget
      refine absurd ?_ (h.kept.started held (Directory.mem_of_get? hget))
      rw [hid, hnil]
    · have hroom := h.room edge.edgeId
      have hcount : count [a] edge.edgeId = 1 := by simp [count, habout]
      have hempty : ({ inbox.vault with edges := inbox.vault.edges.put edge } : Subtree).getAssertions
          edge.edgeId = [] := by simp [Subtree.getAssertions, hnil]
      simp only [hempty, List.map_nil, List.contains_nil, Bool.false_eq_true, if_false]
      exact h.drop.enter hnil (by omega) ha

theorem ingestPropose {payload : ProposePayload}
    (h : Stored crypto now (fun i ↦ count [payload.assertion] i + n i) inbox.vault)
    (hagain : ¬ProposedAgain crypto now inbox.persona inbox.vault sender payload.edge
      payload.assertion) :
    Stored crypto now n
      (inbox.ingestPropose crypto now budgetNow sender (.ok payload) result).1.vault := by
  obtain ⟨edge, assertion⟩ := payload
  have hadmission := Inbox.admission_vault budgetNow inbox sender
  unfold Inbox.ingestPropose
  cases hbound : edgeBindingFailure crypto inbox.vault edge with
  | some bound =>
    simp only [hbound]
    exact h.drop
  | none =>
  cases hlegal : (verifyAssertionChain crypto noRotations (some now) edge [assertion]).outcomes.head?.bind
      (·.rejectionReason) with
  | some reason =>
    simp only [hbound, hlegal]
    split_ifs <;> exact h.drop
  | none =>
  have ha : AcceptsLast crypto noRotations (some now) edge [] assertion :=
    acceptsLast_of_unrejected (by rwa [List.head?_eq_getElem?] at hlegal)
  simp only [hbound, hlegal]
  split_ifs with htoPersona hbyOwner hheld
  · exact h.drop
  · exact h.drop
  · exact h.drop
  have hfiles : inbox.vault.files edge.edgeId = [] := by
    by_contra hbegun
    refine hagain ⟨not_not.mp htoPersona, not_not.mp hbyOwner, hbound, ha, ?_, fun hmem ↦ hheld ?_⟩
    · rwa [h.room.getAssertions]
    · have hget : inbox.vault.getEdge edge.edgeId ≠ none := fun hget ↦
        hbegun (h.kept.orphans _ hget)
      simp only [Bool.and_eq_true, List.contains_iff_mem, Option.isSome_iff_ne_none]
      exact ⟨hget, hmem⟩
  cases (inbox.admission budgetNow sender).2 with
  | some reason =>
    simp only [hadmission]
    exact h.drop
  | none =>
    refine Stored.surface ?_ (by rw [hadmission]; exact hfiles) ha
    rw [hadmission]
    exact h

theorem ingestAssert (h : Stored crypto now (fun i ↦ count [a] i + n i) inbox.vault) :
    Stored crypto now n (inbox.ingestAssert crypto now sender (.ok a) result).1.vault := by
  unfold Inbox.ingestAssert
  cases hget : inbox.vault.getEdge a.edgeId with
  | none =>
    simp only [hget]
    exact h.drop
  | some edge =>
  have hid : edge.edgeId = a.edgeId := Directory.name_of_get? hget
  simp only [hget, h.kept.lineage, h.room.getAssertions]
  cases hlegal : (verifyAssertionChain crypto noRotations (some now) edge
      (inbox.vault.files edge.edgeId ++ [a])).outcomes[(inbox.vault.files edge.edgeId).length]?.bind
      (·.rejectionReason) with
  | some reason =>
    simp only
    split_ifs <;> exact h.drop
  | none =>
    simp only
    split_ifs
    · exact h.drop
    · exact h.drop
    · exact h.drop
    · refine Stored.appendAssertion (h.mono fun i ↦ ?_) hid (by rwa [hid])
        (acceptsLast_of_unrejected hlegal)
      by_cases hi : i = a.edgeId
      · simp [count, hi]
      · simp [hi]

end Stored

def assertionsOf : WireBody → List Assertion
  | .propose (.ok payload) => [payload.assertion]
  | .assert (.ok assertion) => [assertion]
  | .reconResponse (some response) => response.edges.flatMap (·.assertions)
  | _ => []

variable (crypto now) in
/-- A message other than a rotation that proposes no edge again. -/
structure Lawful (persona : PublicKeyHex) (s : Subtree) (m : WireMessage) : Prop where
  noRotation : m.body.type ≠ .rotation
  notAgain : ∀ payload, m.body = .propose (.ok payload) →
    ¬ProposedAgain crypto now persona s m.sender payload.edge payload.assertion

namespace Stored

variable {inbox : Inbox} {budgetNow : ℤ} {result : IngestResult}

theorem ingestMessage {raw : Delivery}
    (h : ∀ m, raw = .message m → Stored crypto now (fun i ↦ count (assertionsOf m.body) i + n i)
      inbox.vault ∧ Lawful crypto now inbox.persona inbox.vault m)
    (hn : Stored crypto now n inbox.vault) :
    Stored crypto now n (Inbox.ingestMessage crypto now budgetNow (inbox, result) raw).1.vault := by
  unfold Inbox.ingestMessage
  cases raw with
  | otherVersion => exact hn
  | malformed => exact hn
  | message m =>
  obtain ⟨hroom, hlawful⟩ := h m rfl
  obtain ⟨body, sender, recipient, sentAt, sig⟩ := m
  simp only [Delivery.speaksThisVersion, Delivery.verifyMessage, Bool.not_true, Bool.false_eq_true,
    if_false]
  split_ifs
  swap
  · exact hn
  simp only
  split_ifs
  · exact hn
  cases body with
  | propose payload =>
    cases payload with
    | error name => exact hn
    | ok payload => exact hroom.ingestPropose (hlawful.notAgain payload rfl)
  | assert payload =>
    cases payload with
    | error name => exact hn
    | ok assertion => exact hroom.ingestAssert
  | reconResponse payload =>
    cases payload with
    | none => exact hn
    | some response => exact hroom.reconResponse
  | rotation payload => exact absurd rfl hlawful.noRotation
  | reconRequest payload => cases payload <;> exact hn
  | recoverRequest payload => cases payload <;> exact hn
  | recoverResponse payload => cases payload <;> exact hn
  | publish | unpublish | attestation | revocation => exact hn

end Stored

end Servanda.Writes
