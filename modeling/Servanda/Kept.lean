import Servanda.Inbox
import Servanda.Node
import Servanda.Soundness

namespace Servanda

open Transitions Serve Recon

variable (crypto : Crypto) (now : Rfc3339)

/-- What a node may store, without rotations: edges that are well formed, each with a chain the
table accepts in full at the present clock, and no chain without its edge. -/
structure Kept (s : Subtree) : Prop where
  unrotated : s.listRotations = []
  wellFormed : ∀ edge ∈ s.edges.values, edgeMalformed crypto edge = none
  started : ∀ edge ∈ s.edges.values, s.files edge.edgeId ≠ []
  accepted : ∀ edge ∈ s.edges.values,
    Replay.Path (judge crypto noRotations (some now) edge) .start (s.files edge.edgeId)
      (context crypto noRotations (some now) edge (s.files edge.edgeId))
  orphans : ∀ id, s.getEdge id = none → s.files id = []

/-- Every chain has room for so many more files with a four-digit number. -/
def Room (s : Subtree) (n : Sha256Hex → ℕ) : Prop := ∀ id, (s.files id).length + n id ≤ 10000

def count (assertions : List Assertion) (id : Sha256Hex) : ℕ :=
  assertions.countP (·.edgeId = id)

variable {crypto now} {s : Subtree} {n : Sha256Hex → ℕ} {edge : Edge} {new : List Assertion}
  {a : Assertion} {ctx : ChainState}

theorem Room.getAssertions (h : Room s n) (id : Sha256Hex) : s.getAssertions id = s.files id :=
  Subtree.getAssertions_eq ((Nat.le_add_right _ _).trans (h id))

theorem Room.mono {m : Sha256Hex → ℕ} (h : Room s n) (hle : ∀ id, m id ≤ n id) : Room s m :=
  fun id ↦ (Nat.add_le_add_left (hle id) _).trans (h id)

namespace Kept

theorem empty : Kept crypto now .empty where
  unrotated := rfl
  wellFormed _ h := nomatch h
  started _ h := nomatch h
  accepted _ h := nomatch h
  orphans _ _ := rfl

theorem later (h : Kept crypto now s) {later : Rfc3339} (hle : Date.parse now ≤ Date.parse later) :
    Kept crypto later s := by
  refine ⟨h.unrotated, h.wellFormed, h.started, fun edge hedge ↦ ?_, h.orphans⟩
  have hpath := (judge_filters_later hle).path (h.accepted edge hedge)
  rwa [context, hpath.final_eq]

theorem lineage (h : Kept crypto now s) : partyLineage crypto s = noRotations :=
  partyLineage_eq_noRotations h.unrotated

theorem mem (h : s.getEdge edge.edgeId = some edge) : edge ∈ s.edges.values :=
  Directory.mem_of_get? h

theorem files_eq_nil (h : Kept crypto now s) (hbody : ∀ held, s.getEdge edge.edgeId = some held →
    held = edge) (hedge : edge ∉ s.edges.values) : s.files edge.edgeId = [] := by
  apply h.orphans _
  cases hget : s.getEdge edge.edgeId with
  | none => rfl
  | some held =>
    have hheld := Directory.mem_of_get? hget
    rw [hbody held hget] at hheld
    exact absurd hheld hedge

/-- A store grows by what the table accepts after the chain it holds, under the body it holds. -/
theorem grow (h : Kept crypto now s) (hedge : edgeMalformed crypto edge = none)
    (hbody : ∀ held, s.getEdge edge.edgeId = some held → held = edge)
    (hnew : Replay.Path (judge crypto noRotations (some now) edge)
      (context crypto noRotations (some now) edge (s.files edge.edgeId)) new ctx)
    (hne : s.files edge.edgeId ++ new ≠ []) :
    Kept crypto now (appendAll { s with edges := s.edges.put edge } new) := by
  have habout : ∀ a ∈ new, a.edgeId = edge.edgeId := fun a ha ↦
    edgeId_of_accepted (by rwa [hnew.accepted_eq])
  have hold : Replay.Path (judge crypto noRotations (some now) edge) .start
      (s.files edge.edgeId) (context crypto noRotations (some now) edge (s.files edge.edgeId)) := by
    by_cases hmem : edge ∈ s.edges.values
    · exact h.accepted edge hmem
    · rw [h.files_eq_nil hbody hmem]
      exact .nil _
  have hpath := hold.trans hnew
  have hcases (other : Edge) (ho : other ∈ (s.edges.put edge).values) :
      other = edge ∨ other ∈ s.edges.values ∧ other.edgeId ≠ edge.edgeId :=
    Directory.mem_values_put.mp ho
  rw [appendAll_spec habout]
  refine ⟨h.unrotated, fun other ho ↦ ?_, fun other ho ↦ ?_, fun other ho ↦ ?_, fun id hid ↦ ?_⟩
  · rcases hcases other ho with rfl | ⟨ho, -⟩
    · exact hedge
    · exact h.wellFormed other ho
  · rcases hcases other ho with rfl | ⟨ho, hne'⟩
    · simpa using hne
    · simpa [hne'] using h.started other ho
  · rcases hcases other ho with rfl | ⟨ho, hne'⟩
    · simp only [Function.update_self]
      rwa [context, hpath.final_eq]
    · simpa [hne'] using h.accepted other ho
  · have hid' : id ≠ edge.edgeId := by
      rintro rfl
      rw [Subtree.getEdge, Directory.get?_put_self] at hid
      cases hid
    rw [Subtree.getEdge, Directory.get?_put_of_ne _ hid'] at hid
    simpa [hid'] using h.orphans id hid

theorem extend (h : Kept crypto now s) (hheld : s.getEdge edge.edgeId = some edge)
    (hnew : Replay.Path (judge crypto noRotations (some now) edge)
      (context crypto noRotations (some now) edge (s.files edge.edgeId)) new ctx) :
    Kept crypto now (appendAll s new) := by
  have hmem := mem hheld
  have hgrown := h.grow (h.wellFormed edge hmem) (fun held hget ↦ by
    rw [hheld] at hget
    exact (Option.some.inj hget).symm) hnew (by simp [h.started edge hmem])
  rwa [Directory.put_of_get? hheld] at hgrown

theorem append (h : Kept crypto now s) (hheld : s.getEdge edge.edgeId = some edge)
    (ha : AcceptsLast crypto noRotations (some now) edge (s.files edge.edgeId) a) :
    Kept crypto now (s.appendAssertion a) := by
  obtain ⟨-, ctx, hj⟩ := acceptsLast_iff.mp ha
  exact h.extend hheld (.single hj)

theorem enter (h : Kept crypto now s) (hnil : s.files edge.edgeId = [])
    (ha : AcceptsLast crypto noRotations (some now) edge [] a) :
    Kept crypto now (({ s with edges := s.edges.put edge } : Subtree).appendAssertion a) := by
  obtain ⟨hedge, ctx, hj⟩ := acceptsLast_iff.mp ha
  have hpath : Replay.Path (judge crypto noRotations (some now) edge)
      (context crypto noRotations (some now) edge (s.files edge.edgeId)) [a] ctx := by
    rw [hnil]
    exact .single hj
  refine h.grow hedge (fun held hget ↦ ?_) hpath (by simp)
  have hid : held.edgeId = edge.edgeId := Directory.name_of_get? hget
  refine absurd ?_ (h.started held (Directory.mem_of_get? hget))
  rw [hid, hnil]

theorem replayed (h : Kept crypto now s) (hroom : Room s n) (hedge : edge ∈ s.edges.values) :
    AcceptsAll crypto (partyLineage crypto s) none edge (s.getAssertions edge.edgeId) := by
  have hpath := judge_filters.path (h.accepted edge hedge)
  rw [h.lineage, hroom.getAssertions, acceptsAll_iff (h.wellFormed edge hedge)]
  rwa [context, hpath.final_eq]

theorem congr {s' : Subtree} (h : Kept crypto now s) (hr : s'.rotations = s.rotations)
    (he : s'.edges = s.edges) (hf : s'.files = s.files) : Kept crypto now s' := by
  obtain ⟨h₁, h₂, h₃, h₄, h₅⟩ := h
  constructor
  · rwa [Subtree.listRotations, hr]
  · rwa [he]
  · rwa [he, hf]
  · rwa [he, hf]
  · intro id hid
    rw [Subtree.getEdge, he] at hid
    rw [hf]
    exact h₅ id hid

end Kept

theorem Room.appendAll {l : List Assertion} {id : Sha256Hex} {k : ℕ}
    (h : Room s fun i ↦ (if i = id then k else 0) + n i) (hl : ∀ a ∈ l, a.edgeId = id)
    (hk : l.length ≤ k) : Room (appendAll s l) n := by
  intro i
  have hi := h i
  rw [appendAll_spec hl]
  by_cases hne : i = id
  · subst hne
    simp only [if_true, Function.update_self, List.length_append] at hi ⊢
    omega
  · simp only [if_neg hne, Function.update_of_ne hne] at hi ⊢
    omega

end Servanda
