import Mathlib.Data.List.Basic

/-!
The first of some candidates that fits, or the last of them where none does.
-/

namespace FirstFit

variable {α β : Type*} {fits : α → Bool} {first : α} {rest more : List α}

def choose (fits : α → Bool) (first : α) : List α → α
  | [] => first
  | next :: rest => if fits first then first else choose fits next rest

theorem choose_of_fits (h : fits first = true) : choose fits first rest = first := by
  cases rest with
  | nil => rfl
  | cons next rest => exact if_pos h

theorem choose_cons_of_not (next : α) (h : fits first = false) :
    choose fits first (next :: rest) = choose fits next rest := by
  rw [choose, if_neg (by simp [h])]

/-- More candidates are tried from the one chosen so far. -/
theorem choose_append :
    choose fits first (rest ++ more) = choose fits (choose fits first rest) more := by
  induction rest generalizing first with
  | nil => rfl
  | cons next rest ih =>
    cases h : fits first with
    | true => rw [choose_of_fits h, choose_of_fits h, choose_of_fits h]
    | false => rw [List.cons_append, choose_cons_of_not next h, choose_cons_of_not next h, ih]

theorem choose_map (f : β → α) (b : β) (bs : List β) :
    choose fits (f b) (bs.map f) = f (choose (fun b ↦ fits (f b)) b bs) := by
  induction bs generalizing b with
  | nil => rfl
  | cons next bs ih =>
    rw [List.map_cons, choose, choose, ih]
    split <;> rfl

theorem choose_mem : choose fits first rest ∈ first :: rest := by
  induction rest generalizing first with
  | nil => exact List.mem_singleton_self _
  | cons next rest ih =>
    rw [choose]
    split
    · exact List.mem_cons_self
    · exact List.mem_cons_of_mem _ ih

/-- What does not fit was the last candidate. -/
theorem choose_fits_or_last : fits (choose fits first rest) = true ∨
    choose fits first rest = (first :: rest).getLast (List.cons_ne_nil _ _) := by
  induction rest generalizing first with
  | nil => exact .inr rfl
  | cons next rest ih =>
    cases h : fits first with
    | true => exact .inl (by rw [choose_of_fits h, h])
    | false =>
      rw [choose_cons_of_not next h, List.getLast_cons (List.cons_ne_nil _ _)]
      exact ih

end FirstFit
