import Servanda.Replay

/-! Two replicas of one state that each take steps of their own and later the other's. -/

namespace Servanda.Replicas

open Replay

variable {σ α ε : Type*} (step : σ → α → Except ε σ)

/-- Two replicas, each with the items of the other that it has not seen. -/
structure Pair (σ α : Type*) where
  left : σ
  toLeft : List α
  right : σ
  toRight : List α

def Pair.swap (p : Pair σ α) : Pair σ α := ⟨p.right, p.toRight, p.left, p.toLeft⟩

/-- States that stay related when both take an item. -/
structure Congruence (R : σ → σ → Prop) : Prop where
  refl (s : σ) : R s s
  trans {s t u : σ} : R s t → R t u → R s u
  congr {s t s' t' : σ} {a : α} : R s t → step s a = .ok s' → step t a = .ok t' → R s' t'

/-- What the left replica takes of its own, the right one takes in a related state. -/
def Follows (R : σ → σ → Prop) (own : α → Prop) : Prop :=
  ∀ ⦃s t s' a⦄, own a → R s t → step s a = .ok s' → ∃ t', step t a = .ok t'

/-- The items of a list are all taken with another one wherever among them it is put. -/
def Fits (s : σ) (a : α) (l : List α) : Prop :=
  ∀ p q, l = p ++ q → ∃ t, Path step s (p ++ a :: q) t

/-- Two items that are taken in either order leave related states. -/
def Swaps (R : σ → σ → Prop) (s : σ) (a b : α) : Prop :=
  ∀ ⦃sa sab sb sba⦄, step s a = .ok sa → step sa b = .ok sab → step s b = .ok sb →
    step sb a = .ok sba → R sab sba

/-- Once each replica has what it lacks, the two are related. -/
def Agree (R : σ → σ → Prop) (p : Pair σ α) : Prop :=
  ∃ s t, Path step p.left p.toLeft s ∧ Path step p.right p.toRight t ∧ R s t

variable {step} {R : σ → σ → Prop} {p : Pair σ α}

theorem Agree.swap (h : Agree step R p) : Agree step (flip R) p.swap := by
  obtain ⟨s, t, hs, ht, hr⟩ := h
  exact ⟨t, s, ht, hs, hr⟩

theorem Agree.mono {R' : σ → σ → Prop} (h : Agree step R p) (hR : ∀ s t, R s t → R' s t) :
    Agree step R' p := by
  obtain ⟨s, t, hs, ht, hr⟩ := h
  exact ⟨s, t, hs, ht, hR s t hr⟩

theorem Congruence.path (h : Congruence step R) {s t s' t' : σ} {l : List α} (hr : R s t)
    (hs : Path step s l s') (ht : Path step t l t') : R s' t' := by
  induction hs generalizing t with
  | nil =>
    cases ht
    exact hr
  | cons hs _ ih =>
    cases ht with
    | cons ht hrest => exact ih (h.congr hr hs ht) hrest

/-- An item taken before others or after them leaves related states, when it swaps with each. -/
theorem Congruence.insert (h : Congruence step R) {a : α} {l : List α} {s t u : σ}
    (hfits : Fits step s a l)
    (hswaps : ∀ p b q v, l = p ++ b :: q → Path step s p v → Swaps step R v a b)
    (ht : Path step s (a :: l) t) (hu : Path step s (l ++ [a]) u) : R t u := by
  induction l generalizing s t with
  | nil =>
    have heq : t = u := ht.final_eq.symm.trans hu.final_eq
    exact heq ▸ h.refl t
  | cons b l ih =>
    obtain ⟨v, hv⟩ := hfits [b] l rfl
    cases ht with
    | cons hsa ht =>
      cases ht with
      | cons hsab ht =>
        cases hv with
        | cons hsb hv =>
          cases hu with
          | cons hsb' hu =>
            obtain rfl := Except.ok.inj (hsb.symm.trans hsb')
            have htail : Fits step _ a l := fun p q hl ↦ by
              obtain ⟨w, hw⟩ := hfits (b :: p) q (congrArg (b :: ·) hl)
              cases hw with
              | cons hb hw => exact ⟨w, Except.ok.inj (hsb.symm.trans hb) ▸ hw⟩
            have hrest := ih htail (fun p c q w hl hw ↦
              hswaps (b :: p) c q w (congrArg (b :: ·) hl) (.cons hsb hw)) hv hu
            cases hv with
            | cons hsba hv =>
              have hswap := hswaps [] b l s rfl (.nil s) hsa hsab hsb hsba
              exact h.trans (h.path hswap ht hv) hrest

theorem Agree.append (h : Agree step R p) (hR : Congruence step R) {own : α → Prop}
    (hfollows : Follows step R own) {a : α} {s : σ} (ha : own a) (hs : step p.left a = .ok s)
    (hfits : Fits step p.left a p.toLeft)
    (hswaps : ∀ l b m v, p.toLeft = l ++ b :: m → Path step p.left l v → Swaps step R v a b) :
    Agree step R ⟨s, p.toLeft, p.right, p.toRight ++ [a]⟩ := by
  obtain ⟨u, v, hu, hv, hr⟩ := h
  obtain ⟨first, hfirst⟩ := hfits [] p.toLeft rfl
  obtain ⟨last, hlast⟩ := hfits p.toLeft [] (by simp)
  have halike : R first last := hR.insert hfits hswaps hfirst hlast
  obtain ⟨u', hu', hlast⟩ := hlast.split
  obtain rfl : u = u' := hu.final_eq.symm.trans hu'.final_eq
  cases hlast with
  | cons hua hnil =>
    cases hnil
    obtain ⟨v', hva⟩ := hfollows ha hr hua
    cases hfirst with
    | cons hs' hfirst =>
      obtain rfl := Except.ok.inj (hs.symm.trans hs')
      exact ⟨first, v', hfirst, hv.snoc hva, hR.trans halike (hR.congr hr hua hva)⟩

theorem Agree.receive (h : Agree step R p) :
    Agree step R ⟨final step p.left p.toLeft, [], p.right, p.toRight⟩ := by
  obtain ⟨s, t, hs, ht, hr⟩ := h
  exact ⟨s, t, by rw [hs.final_eq]; exact .nil s, ht, hr⟩

theorem Agree.taken (h : Agree step R p) : accepted step p.left p.toLeft = p.toLeft := by
  obtain ⟨s, t, hs, -, -⟩ := h
  exact hs.accepted_eq

theorem Agree.settled (h : Agree step R p) (hleft : accepted step p.left p.toLeft = [])
    (hright : accepted step p.right p.toRight = []) : R p.left p.right := by
  obtain ⟨s, t, hs, ht, hr⟩ := h
  rw [hs.accepted_eq] at hleft
  rw [ht.accepted_eq] at hright
  rw [hleft] at hs
  rw [hright] at ht
  cases hs
  cases ht
  exact hr

end Servanda.Replicas
