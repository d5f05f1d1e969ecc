import Mathlib.Data.List.Lex
import Mathlib.Data.Nat.Basic

/-!
# Texts as sequences of 16-bit units

A language whose strings are made of 16-bit units measures and compares texts by these
units: a character beyond the basic plane counts twice, and sorts by its first unit, below
the upper end of the basic plane.
-/

namespace Utf16

def units (c : Char) : List Nat :=
  if c.toNat < 65536 then [c.toNat]
  else [55296 + (c.toNat - 65536) / 1024, 56320 + (c.toNat - 65536) % 1024]

def encode (text : List Char) : List Nat := text.flatMap units

/-- The order of texts by their units. -/
def NotAfter (text text' : String) : Prop := encode text.toList ≤ encode text'.toList

instance : DecidableRel NotAfter := fun text text' =>
  inferInstanceAs (Decidable (encode text.toList ≤ encode text'.toList))

@[simp] theorem encode_nil : encode [] = [] := rfl

@[simp] theorem encode_cons (c : Char) (text : List Char) :
    encode (c :: text) = units c ++ encode text := rfl

theorem units_ne_nil (c : Char) : units c ≠ [] := by
  unfold units
  split <;> simp

theorem length_encode_of_basic {text : List Char} (h : ∀ c ∈ text, c.toNat < 65536) :
    (encode text).length = text.length := by
  induction text with
  | nil => rfl
  | cons c rest ih =>
      have hc : units c = [c.toNat] := if_pos (h c List.mem_cons_self)
      rw [encode_cons, hc, List.singleton_append, List.length_cons, List.length_cons,
        ih fun d hd => h d (List.mem_cons_of_mem c hd)]

/-- A character is not one of the units that stand for a half of a character. -/
theorem toNat_not_surrogate (c : Char) : c.toNat < 55296 ∨ 57343 < c.toNat ∧ c.toNat < 1114112 :=
  c.valid

theorem units_append_inj {c d : Char} {rest rest' : List Nat}
    (h : units c ++ rest = units d ++ rest') : c = d ∧ rest = rest' := by
  have hc := toNat_not_surrogate c
  have hd := toNat_not_surrogate d
  have hchar : c.toNat = d.toNat → c = d := fun heq => Char.toNat_inj.mp heq
  unfold units at h
  split at h <;> split at h <;>
    simp only [List.cons_append, List.nil_append, List.cons.injEq] at h
  · exact ⟨hchar h.1, h.2⟩
  · omega
  · omega
  · exact ⟨hchar (by omega), h.2.2⟩

theorem encode_injective : Function.Injective encode := by
  intro text text' h
  induction text generalizing text' with
  | nil =>
      cases text' with
      | nil => rfl
      | cons d rest' =>
          rw [encode_nil, encode_cons] at h
          exact absurd (List.append_eq_nil_iff.mp h.symm).1 (units_ne_nil d)
  | cons c rest ih =>
      cases text' with
      | nil =>
          rw [encode_nil, encode_cons] at h
          exact absurd (List.append_eq_nil_iff.mp h).1 (units_ne_nil c)
      | cons d rest' =>
          rw [encode_cons, encode_cons] at h
          obtain ⟨rfl, hrest⟩ := units_append_inj h
          rw [ih hrest]

end Utf16
