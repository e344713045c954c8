import Mathlib.Data.List.Basic
import Mathlib.Data.UInt

namespace Servanda.Base64

/-- The octets of a byte string six bits at a time, the last group filled with zero bits. -/
def sextets : List UInt8 → List ℕ
  | [] => []
  | [a] => [a.toNat / 4, a.toNat % 4 * 16]
  | [a, b] => [a.toNat / 4, a.toNat % 4 * 16 + b.toNat / 16, b.toNat % 16 * 4]
  | a :: b :: c :: rest =>
    [a.toNat / 4, a.toNat % 4 * 16 + b.toNat / 16, b.toNat % 16 * 4 + c.toNat / 64,
      c.toNat % 64] ++ sextets rest

/-- Six bits at a time back to octets. A single sextet left over is none; spare bits are dropped. -/
def octets : List ℕ → Option (List UInt8)
  | [] => some []
  | [_] => none
  | [p, q] => some [UInt8.ofNat (p * 4 + q / 16)]
  | [p, q, r] => some [UInt8.ofNat (p * 4 + q / 16), UInt8.ofNat (q % 16 * 16 + r / 4)]
  | p :: q :: r :: s :: rest => (octets rest).map fun bytes ↦
      UInt8.ofNat (p * 4 + q / 16) :: UInt8.ofNat (q % 16 * 16 + r / 4) ::
        UInt8.ofNat (r % 4 * 64 + s) :: bytes

theorem ofNat_eq {n : ℕ} {a : UInt8} (h : n = a.toNat) : UInt8.ofNat n = a := by
  rw [h, UInt8.ofNat_toNat]

theorem octets_sextets (l : List UInt8) : octets (sextets l) = some l := by
  induction l using sextets.induct with
  | case1 => rfl
  | case2 a =>
    have ha := a.toNat_lt
    have hfirst := @ofNat_eq (a.toNat / 4 * 4 + a.toNat % 4 * 16 / 16) a (by omega)
    simp only [sextets, octets, hfirst]
  | case3 a b =>
    have hb := b.toNat_lt
    have hfirst := @ofNat_eq (a.toNat / 4 * 4 + (a.toNat % 4 * 16 + b.toNat / 16) / 16) a (by omega)
    have hsecond := @ofNat_eq
      ((a.toNat % 4 * 16 + b.toNat / 16) % 16 * 16 + b.toNat % 16 * 4 / 4) b (by omega)
    simp only [sextets, octets, hfirst, hsecond]
  | case4 a b c rest ih =>
    have hb := b.toNat_lt
    have hc := c.toNat_lt
    have hfirst := @ofNat_eq (a.toNat / 4 * 4 + (a.toNat % 4 * 16 + b.toNat / 16) / 16) a (by omega)
    have hsecond := @ofNat_eq ((a.toNat % 4 * 16 + b.toNat / 16) % 16 * 16 +
      (b.toNat % 16 * 4 + c.toNat / 64) / 4) b (by omega)
    have hthird := @ofNat_eq
      ((b.toNat % 16 * 4 + c.toNat / 64) % 4 * 64 + c.toNat % 64) c (by omega)
    simp only [sextets, List.cons_append, List.nil_append, octets, ih, Option.map_some, hfirst,
      hsecond, hthird]

theorem sextets_lt (l : List UInt8) : ∀ n ∈ sextets l, n < 64 := by
  induction l using sextets.induct with
  | case1 => simp [sextets]
  | case2 a =>
    have ha := a.toNat_lt
    simp only [sextets, List.forall_mem_cons, List.not_mem_nil, false_imp_iff, implies_true,
      and_true]
    omega
  | case3 a b =>
    have ha := a.toNat_lt
    have hb := b.toNat_lt
    simp only [sextets, List.forall_mem_cons, List.not_mem_nil, false_imp_iff, implies_true,
      and_true]
    omega
  | case4 a b c rest ih =>
    have ha := a.toNat_lt
    have hb := b.toNat_lt
    have hc := c.toNat_lt
    simp only [sextets, List.cons_append, List.nil_append, List.forall_mem_cons]
    exact ⟨by omega, by omega, by omega, by omega, ih⟩

/-- The URL-safe alphabet. -/
def urlDigit (n : ℕ) : Char :=
  if n < 26 then Char.ofNat (65 + n)
  else if n < 52 then Char.ofNat (71 + n)
  else if n < 62 then Char.ofNat (n - 4)
  else if n = 62 then '-' else '_'

def urlValue (c : Char) : Option ℕ :=
  if 'A' ≤ c ∧ c ≤ 'Z' then some (c.toNat - 65)
  else if 'a' ≤ c ∧ c ≤ 'z' then some (c.toNat - 71)
  else if '0' ≤ c ∧ c ≤ '9' then some (c.toNat + 4)
  else if c = '-' then some 62
  else if c = '_' then some 63
  else none

theorem urlValue_urlDigit {n : ℕ} (h : n < 64) : urlValue (urlDigit n) = some n := by
  have hall : ∀ i : Fin 64, urlValue (urlDigit i) = some i.val := by decide
  exact hall ⟨n, h⟩

def encodeUrl (bytes : List UInt8) : List Char := (sextets bytes).map urlDigit

def decodeUrl (text : List Char) : Option (List UInt8) := (text.mapM urlValue).bind octets

/-- Whatever is encoded is decoded to the same octets. -/
theorem decodeUrl_encodeUrl (bytes : List UInt8) : decodeUrl (encodeUrl bytes) = some bytes := by
  have hmap : ∀ l : List ℕ, (∀ n ∈ l, n < 64) → (l.map urlDigit).mapM urlValue = some l := by
    intro l
    induction l with
    | nil => exact fun _ ↦ rfl
    | cons n l ih =>
      intro h
      obtain ⟨hn, hl⟩ := List.forall_mem_cons.mp h
      simp [urlValue_urlDigit hn, ih hl]
  rw [decodeUrl, encodeUrl, hmap _ (sextets_lt bytes)]
  exact octets_sextets bytes

end Servanda.Base64
