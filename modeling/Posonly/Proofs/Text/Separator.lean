import Posonly.Proofs.Text.Stretch
import Posonly.Signature.Token

/-!
# Padding and separators

Two classes of units that say what may be lost from a parameter list without losing a parameter.
*Padding* is white space and the backslash that joins two lines. *Separators* are padding, commas
and slashes. Units that are no separators are *solid*, and a solid unit is where a run of separators
must end: most arguments about deleted text come down to that.
-/

open List

namespace Posonly.Text

/-- Whether a unit may stand between two tokens: white space, or the backslash that joins lines. -/
def isPadding (u : UInt16) : Bool := isBlank u || u == 0x5C

/-- Whether a unit does no more than separate parameters: padding, a comma or a slash. -/
def isSeparator (u : UInt16) : Bool := isPadding u || u == 0x2C || u == 0x2F

/-- A unit that is no separator stands at an offset. -/
def SolidAt (t : Text) (i : Nat) : Prop := ∃ u, t[i]? = some u ∧ isSeparator u = false

instance (t : Text) (i : Nat) : Decidable (t.SolidAt i) :=
  match h : t[i]? with
  | none => .isFalse fun ⟨_, hu, _⟩ => by rw [h] at hu; cases hu
  | some u =>
    if hs : isSeparator u = false then .isTrue ⟨u, h, hs⟩
    else .isFalse fun ⟨v, hv, hsolid⟩ => by
      rw [h] at hv
      injection hv with hv
      exact hs (hv ▸ hsolid)

variable {t : Text} {a b i : Nat} {u : UInt16} {u : UInt16}

theorem isPadding_of_isBlank (h : isBlank u = true) : isPadding u = true := by
  simp [isPadding, h]

theorem isPadding_of_isSpaceOrTab (h : isSpaceOrTab u = true) : isPadding u = true := by
  simp only [isSpaceOrTab, Bool.or_eq_true, beq_iff_eq] at h
  rcases h with rfl | rfl <;> decide

theorem isPadding_of_isBreak (h : isBreak u = true) : isPadding u = true := by
  simp only [isBreak, Bool.or_eq_true, beq_iff_eq] at h
  rcases h with rfl | rfl <;> decide

theorem isPadding_of_isGapBlank (h : Signature.isGapBlank u = true) : isPadding u = true := by
  simp only [Signature.isGapBlank, Bool.or_eq_true, beq_iff_eq] at h
  rcases h with ((((rfl | rfl) | rfl) | rfl) | rfl) | rfl <;> decide

theorem isSeparator_of_isPadding (h : isPadding u = true) : isSeparator u = true := by
  simp [isSeparator, h]

/-- A solid unit is outside of every run of separators. -/
theorem SolidAt.not_mem (hs : t.SolidAt i) (h : t.Throughout isSeparator a b) : i < a ∨ b ≤ i := by
  obtain ⟨u, hu, hsolid⟩ := hs
  by_cases ha : i < a
  · exact .inl ha
  · by_cases hb : b ≤ i
    · exact .inr hb
    · have := h i u (by omega) (by omega) hu
      rw [hsolid] at this
      cases this

/-! ## Identifiers -/

/-- Separators by their codes: below the digits, some blanks by name, and one row of blanks. -/
theorem isSeparator_cases (h : isSeparator u = true) :
    u.toNat < 0x30 ∨ u ∈ [0x5C, 0xA0, 0x1680, 0x2028, 0x2029, 0x202F, 0x205F, 0x3000, 0xFEFF] ∨
      ∃ k : Fin 11, u.toNat = 0x2000 + k := by
  simp only [isSeparator, isPadding, isBlank, Bool.or_eq_true, Bool.and_eq_true, decide_eq_true_eq,
    beq_iff_eq] at h
  simp only [UInt16.le_iff_toNat_le, UInt16.reduceToNat, ← UInt16.toNat_inj] at h
  by_cases hk : 0x2000 ≤ u.toNat ∧ u.toNat ≤ 0x200A
  · exact .inr (.inr ⟨⟨u.toNat - 0x2000, by omega⟩, by simp; omega⟩)
  · simp only [mem_cons, ← UInt16.toNat_inj, UInt16.reduceToNat, not_mem_nil, or_false]
    omega

/-- No identifier starts with a separator. -/
theorem startsIdentifier_of_isSeparator (h : isSeparator u = true) :
    startsIdentifier u.toNat = false := by
  rcases isSeparator_cases h with hlow | hmem | ⟨k, hk⟩
  · simp only [startsIdentifier, isLetter]
    rw [if_pos (by omega)]
    simp
    omega
  · have hall : ∀ v ∈ ([0x5C, 0xA0, 0x1680, 0x2028, 0x2029, 0x202F, 0x205F, 0x3000, 0xFEFF] :
        List UInt16), startsIdentifier v.toNat = false := by decide +kernel
    exact hall u hmem
  · have hall : ∀ k : Fin 11, startsIdentifier (0x2000 + k) = false := by decide +kernel
    rw [hk]
    exact hall k

/-- Half of a pair is solid. -/
theorem isSeparator_of_surrogate
    (h : isHighSurrogate u = true ∨ isLowSurrogate u = true) : isSeparator u = false := by
  rw [Bool.eq_false_iff]
  intro hs
  have hr : 0xD800 ≤ u.toNat ∧ u.toNat ≤ 0xDFFF := by
    simp only [isHighSurrogate, isLowSurrogate, Bool.and_eq_true, decide_eq_true_eq,
      UInt16.le_iff_toNat_le, UInt16.reduceToNat] at h
    omega
  rcases isSeparator_cases hs with hlow | hmem | ⟨k, hk⟩
  · omega
  · simp only [mem_cons, ← UInt16.toNat_inj, UInt16.reduceToNat, not_mem_nil, or_false] at hmem
    omega
  · omega

end Posonly.Text
