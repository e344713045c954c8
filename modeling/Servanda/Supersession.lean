import Servanda.Lineage
import Servanda.RotationHistory

namespace Servanda.Supersession

open Transitions Serve Rotation

variable (crypto : Crypto)

def after (inbox : Inbox) (messages : List (PublicKeyHex × Option Rotation)) : Inbox :=
  messages.foldl (fun inbox m ↦ (inbox.ingestRotation crypto m.1 m.2 .empty).1) inbox

def Accepts (inbox : Inbox) (m : PublicKeyHex × Option Rotation) : Prop :=
  (inbox.ingestRotation crypto m.1 m.2 .empty).2 = IngestResult.empty.accept .rotation none

/-- A statement that has nothing to do with either key of a rotation, or repeats it with a date no
later. -/
def LeavesAlone (rotation r : Rotation) : Prop :=
  r.old ≠ rotation.old ∧ r.new ≠ rotation.new ∨
    r.old = rotation.old ∧ r.new = rotation.new ∧
      Date.parse r.rotatedAt ≤ Date.parse rotation.rotatedAt

instance (rotation r : Rotation) : Decidable (LeavesAlone rotation r) :=
  inferInstanceAs (Decidable (_ ∨ _))

/-- One stored statement replaces the key: a repetition of the rotation, dated no later. -/
def Retired (s : Subtree) (rotation : Rotation) : Prop :=
  ∃ r, stored crypto s rotation.old = [r] ∧ r.new = rotation.new ∧
    Date.parse r.rotatedAt ≤ Date.parse rotation.rotatedAt

/-- No assertion that the replaced key dates at the rotation or after it is accepted. -/
def Powerless (s : Subtree) (edge : Edge) (rotation : Rotation) : Prop :=
  ∀ now chain before a, AcceptedAt crypto (partyLineage crypto s) now edge chain before a →
    a.signer = rotation.old → Date.parse a.assertedAt < Date.parse rotation.rotatedAt

/-- No walk from a party of the edge stops at the replaced key. -/
def Passes (s : Subtree) (edge : Edge) (rotation : Rotation) : Prop :=
  ¬StopsAt crypto s edge.owner rotation ∧ ¬StopsAt crypto s edge.owedTo rotation

instance (s : Subtree) (edge : Edge) (rotation : Rotation) :
    Decidable (Passes crypto s edge rotation) :=
  inferInstanceAs (Decidable (_ ∧ _))

variable {crypto} {s : Subtree} {rotation r : Rotation}

theorem mem_stored_put {key : PublicKeyHex} {r' : Rotation} :
    r' ∈ stored crypto (s.putRotation r) key ↔
      (r' = r ∨ r' ∈ s.rotations.values ∧ r'.new ≠ r.new) ∧ genuine crypto r' = true ∧
        r'.old = key := by
  rw [mem_stored]
  exact and_congr_left fun _ ↦ Directory.mem_values_put

theorem Retired.put (h : Retired crypto s rotation) (hr : genuine crypto r = true)
    (halone : LeavesAlone rotation r) : Retired crypto (s.putRotation r) rotation := by
  obtain ⟨r₀, hsole, hnew, hdate⟩ := h
  obtain ⟨hmem, hall⟩ := stored_eq_singleton.mp hsole
  obtain ⟨hvalues, hgenuine, hold⟩ := mem_stored.mp hmem
  rcases halone with ⟨hold', hnew'⟩ | ⟨hold', hnew', hdate'⟩
  · refine ⟨r₀, stored_eq_singleton.mpr ⟨?_, fun r' hr' ↦ ?_⟩, hnew, hdate⟩
    · exact mem_stored_put.mpr ⟨.inr ⟨hvalues, fun heq ↦ hnew' (heq ▸ hnew)⟩, hgenuine, hold⟩
    · obtain ⟨rfl | ⟨hr', -⟩, hg, ho⟩ := mem_stored_put.mp hr'
      · exact absurd ho hold'
      · exact hall r' (mem_stored.mpr ⟨hr', hg, ho⟩)
  · refine ⟨r, stored_eq_singleton.mpr ⟨?_, fun r' hr' ↦ ?_⟩, hnew', hdate'⟩
    · exact mem_stored_put.mpr ⟨.inl rfl, hr, hold'⟩
    · obtain ⟨rfl | ⟨hr', hne⟩, hg, ho⟩ := mem_stored_put.mp hr'
      · rfl
      · obtain rfl := hall r' (mem_stored.mpr ⟨hr', hg, ho⟩)
        exact absurd (hnew.trans hnew'.symm) hne

/-- A statement of any other kind gives the replaced key its power back. -/
theorem Retired.undone (h : Retired crypto s rotation) (hr : genuine crypto r = true)
    (halone : ¬LeavesAlone rotation r) :
    heldBy (partyLineage crypto (s.putRotation r) rotation.old) rotation.old rotation.rotatedAt =
      true := by
  obtain ⟨r₀, hsole, hnew, hdate⟩ := h
  obtain ⟨hmem, hall⟩ := stored_eq_singleton.mp hsole
  obtain ⟨hvalues, hgenuine, hold⟩ := mem_stored.mp hmem
  rw [heldBy_self]
  split
  next r' hr' =>
    obtain ⟨hmem', hall'⟩ := stored_eq_singleton.mp hr'
    obtain ⟨rfl | ⟨hvalues', hne⟩, hg, ho⟩ := mem_stored_put.mp hmem'
    · -- the statement is alone: it repeats the rotation, unless both are stored
      rw [decide_eq_true_iff, ← not_le]
      refine fun hle ↦ halone ?_
      by_cases hnew' : r'.new = rotation.new
      · exact .inr ⟨ho, hnew', hle⟩
      · have hkept : r₀ ∈ stored crypto (s.putRotation r') rotation.old :=
          mem_stored_put.mpr ⟨.inr ⟨hvalues, fun heq ↦ hnew' (heq ▸ hnew)⟩, hgenuine, hold⟩
        obtain rfl := hall' r₀ hkept
        exact absurd hnew hnew'
    · obtain rfl := hall r' (mem_stored.mpr ⟨hvalues', hg, ho⟩)
      refine absurd (.inl ⟨fun hold' ↦ ?_, fun hnew' ↦ hne (hnew.trans hnew'.symm)⟩) halone
      have hboth := hall' r (mem_stored_put.mpr ⟨.inl rfl, hr, hold'⟩)
      exact hne (congrArg Rotation.new hboth.symm)
  next => rfl

theorem Retired.of_shown {party : PublicKeyHex} (hstored : rotation ∈ stored crypto s rotation.old)
    (hshown : ⟨rotation.old, some rotation.rotatedAt⟩ ∈ partyLineage crypto s party) :
    Retired crypto s rotation := by
  rw [partyLineage_apply] at hshown
  have hw := walked (stored crypto s) maxRotationDepth [party] party
  rcases hw.linked.entry hshown with heq | ⟨r, -, hsole, -⟩
  · exact absurd (congrArg PartyKey.supersededAt heq) (by simp)
  · dsimp only at hsole
    obtain rfl : rotation = r := by simpa [hsole] using hstored
    exact ⟨rotation, hsole, rfl, le_rfl⟩

theorem Retired.powerless (h : Retired crypto s rotation) {edge : Edge}
    (hpasses : Passes crypto s edge rotation) : Powerless crypto s edge rotation := by
  intro now chain before a haccepted hsigner
  obtain ⟨-, -, ctx, hj⟩ := acceptedAt_iff.mp haccepted
  obtain ⟨-, hstanding, -⟩ := judge_ok_iff.mp hj
  obtain ⟨r, hsole, hnew, hdate⟩ := h
  have hmem : r ∈ stored crypto s rotation.old := by simp [hsole]
  have hold : r.old = rotation.old := (mem_stored.mp hmem).2.2
  rw [← hold] at hsole
  have hheld {party : PublicKeyHex} (hstops : ¬StopsAt crypto s party rotation)
      (hparty : heldBy (partyLineage crypto s party) a.signer a.assertedAt = true) :
      Date.parse a.assertedAt < Date.parse rotation.rotatedAt := by
    rw [StopsAt, ← hold, ← hnew] at hstops
    obtain ⟨e, he, hkey, hbefore⟩ := entry_of_heldBy hparty
    have hend := supersededAt_of_sole hsole hstops he (hkey.trans (hsigner.trans hold.symm))
    exact lt_of_lt_of_le (hbefore _ hend) hdate
  rcases hstanding.party with ho | hw
  · exact hheld hpasses.1 ho
  · exact hheld hpasses.2 hw

variable {inbox : Inbox} {messages : List (PublicKeyHex × Option Rotation)}

theorem after_snoc (m : PublicKeyHex × Option Rotation) :
    after crypto inbox (messages ++ [m]) =
      ((after crypto inbox messages).ingestRotation crypto m.1 m.2 .empty).1 := by
  simp [after]

theorem Retired.run (h : Retired crypto inbox.vault rotation)
    (halone : ∀ earlier m, earlier ++ [m] <+: messages →
      Accepts crypto (after crypto inbox earlier) m → ∀ r ∈ m.2, LeavesAlone rotation r) :
    Retired crypto (after crypto inbox messages).vault rotation := by
  induction messages using List.reverseRecOn with
  | nil => exact h
  | append_singleton messages m ih =>
    have hbefore := ih fun earlier m' hpre ↦ halone earlier m' (hpre.trans (List.prefix_append _ _))
    rw [after_snoc]
    rcases @Inbox.ingestRotation_cases crypto (after crypto inbox messages) m.1 m.2 .empty with
      ⟨reason, hdiscard⟩ | ⟨r, hr, ⟨encoding, hverified⟩, -, -, haccept⟩
    · rwa [hdiscard]
    · rw [hr] at hverified
      rw [haccept]
      exact hbefore.put (genuine_of_verifyRotation hverified)
        (halone messages m List.prefix_rfl (by rw [Accepts, haccept]) r hr)

/-- Once a stored statement ends a key in a party's lineage, and while the statements accepted
afterwards leave it alone, nothing the key signs from that date on is accepted. -/
theorem powerless_of_leavesAlone {party : PublicKeyHex}
    (hstored : rotation ∈ stored crypto inbox.vault rotation.old)
    (hshown : ⟨rotation.old, some rotation.rotatedAt⟩ ∈ partyLineage crypto inbox.vault party)
    (halone : ∀ earlier m, earlier ++ [m] <+: messages →
      Accepts crypto (after crypto inbox earlier) m → ∀ r ∈ m.2, LeavesAlone rotation r)
    {edge : Edge} (hpasses : Passes crypto (after crypto inbox messages).vault edge rotation) :
    Powerless crypto (after crypto inbox messages).vault edge rotation :=
  ((Retired.of_shown hstored hshown).run halone).powerless hpasses

section SharedSuccessor

open Sample

def successorInbox : Inbox := { RotationHistory.creditorInbox with persona := nextKey }

def otherRotation : Rotation := rotate creditorKey
  0xb4fb55e4e947ad3dcbbdf250914d29e56bcf99a74e24f93127fb3c55eb9b7bfb (date 3 4 0)
  0x955ba0a6e1bb6288ce6b38f48e96030c78782057826d3095733ce42588b2b2746187ee88c1fd0b93cea149b0a23d5e9b69f0a4c397ebf68393a440198ded9a07

theorem creditor_rotates_too : Powerless Sample.crypto
    (after Sample.crypto successorInbox
      [(ownerKey, some ownerRotation), (creditorKey, some otherRotation)]).vault
    Sample.edge ownerRotation := by
  refine @powerless_of_leavesAlone Sample.crypto ownerRotation
    (after Sample.crypto successorInbox [(ownerKey, some ownerRotation)])
    [(creditorKey, some otherRotation)] ownerKey (by decide +kernel) (by decide +kernel)
    (fun earlier m hpre _ r hr ↦ ?_) Sample.edge (by decide +kernel)
  obtain rfl : m = (creditorKey, some otherRotation) :=
    List.mem_singleton.mp (hpre.subset (by simp))
  cases hr
  decide +kernel

def sharedRotation : Rotation := rotate creditorKey nextKey (date 3 4 0)
  0x4887e45c6e4a62e2e44208404103f04b781175d1591ff659c51c5d11d6665f7baab91c87cc0ada159c599bc1da10552d538bc08b3f2d7f863f14c8aaa6f52004

def lateClosure : Assertion := act .closed ownerKey (date 3 5 10) (some evidence)
  0x63ab0c0a53cf93ec6a5ebd05e6ae509dbab2e95db8a217433473b0813a92965d830045a8b8dd01c95ed171722fa072c6e5bc618b11b37cbfa913e81ad7ca020e

/-- The creditor names the same next key, and the owner's old key closes the edge. -/
theorem shared_successor_restores :
    Accepts Sample.crypto successorInbox (ownerKey, some ownerRotation) ∧
    ⟨ownerKey, some (date 3 3 0)⟩ ∈ partyLineage Sample.crypto
      (after Sample.crypto successorInbox [(ownerKey, some ownerRotation)]).vault
      Sample.edge.owner ∧
    Accepts Sample.crypto (after Sample.crypto successorInbox [(ownerKey, some ownerRotation)])
      (creditorKey, some sharedRotation) ∧
    ¬Powerless Sample.crypto
      (after Sample.crypto successorInbox
        [(ownerKey, some ownerRotation), (creditorKey, some sharedRotation)]).vault
      Sample.edge ownerRotation := by
  refine ⟨by rfl, by decide +kernel, by rfl, fun h ↦ ?_⟩
  have hearlier := h none [proposal, confirmation, lateClosure] [proposal, confirmation] lateClosure
    (by decide +kernel) rfl
  exact absurd hearlier (by decide +kernel)

end SharedSuccessor

end Servanda.Supersession
