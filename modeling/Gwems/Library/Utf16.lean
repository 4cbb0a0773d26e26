import Mathlib

/-!
# Strings as UTF-16

A character is one code unit, or two surrogates, which are no characters themselves. So the code
units of a string determine it (`codeUnits_injective`), and comparing strings unit by unit tells
them apart. It is not the order by code points: surrogates come before the units from `0xE000` on.
-/

namespace Gwems

namespace Utf16

/-- The code units of a character. -/
def charUnits (c : Char) : List ℕ :=
  if c.toNat < 0x10000 then [c.toNat]
  else [0xD800 + (c.toNat - 0x10000) / 0x400, 0xDC00 + (c.toNat - 0x10000) % 0x400]

/-- The code units of a string. -/
def codeUnits (s : String) : List ℕ := s.toList.flatMap charUnits

/-- Compare strings by their code units: the first that differ, or else the lengths. -/
def compareTo (s s' : String) : Ordering := compare (codeUnits s) (codeUnits s')

/-- No character is a surrogate. -/
theorem toNat_cases (c : Char) : c.toNat < 0xD800 ∨ 0xDFFF < c.toNat ∧ c.toNat < 0x110000 :=
  c.valid

/-- A character is read back from the front of code units. -/
theorem charUnits_append_inj {c d : Char} {us vs : List ℕ}
    (h : charUnits c ++ us = charUnits d ++ vs) : c = d ∧ us = vs := by
  have hc := toNat_cases c
  have hd := toNat_cases d
  unfold charUnits at h
  split_ifs at h with hc16 hd16 hd16 <;>
    simp only [List.cons_append, List.nil_append, List.cons.injEq] at h
  · exact ⟨Char.toNat_inj.mp h.1, h.2⟩
  · omega
  · omega
  · obtain ⟨hhigh, hlow, hrest⟩ := h
    exact ⟨Char.toNat_inj.mp (by omega), hrest⟩

theorem charUnits_ne_nil (c : Char) : charUnits c ≠ [] := by
  rw [charUnits]
  split_ifs <;> exact List.cons_ne_nil _ _

/-- **A string is determined by its code units.** -/
theorem codeUnits_injective : Function.Injective codeUnits := by
  have hlist : ∀ cs ds : List Char, cs.flatMap charUnits = ds.flatMap charUnits → cs = ds := by
    intro cs
    induction cs with
    | nil =>
      intro ds h
      cases ds with
      | nil => rfl
      | cons d ds => simp [charUnits_ne_nil] at h
    | cons c cs ih =>
      intro ds h
      cases ds with
      | nil => simp [charUnits_ne_nil] at h
      | cons d ds =>
        rw [List.flatMap_cons, List.flatMap_cons] at h
        obtain ⟨rfl, hrest⟩ := charUnits_append_inj h
        rw [ih ds hrest]
  exact fun s s' h => String.toList_injective (hlist _ _ h)

theorem compareTo_eq_iff {s s' : String} : compareTo s s' = .eq ↔ s = s' := by
  rw [compareTo, Std.compare_eq_iff_eq]
  exact codeUnits_injective.eq_iff

end Utf16

end Gwems
