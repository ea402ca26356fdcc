import Posonly.Proofs.Text.Encoding

/-!
# Cutting text at a unit and joining it again

Paths are cut at slashes and manifests at line feeds. Both ways of working with pieces are those of
the library, so its laws apply; what is added here is what pieces look like.
-/

open List

namespace Posonly.Text

variable {separator : UInt16} {t : Text} {ts : List Text}

/-- Cutting is that of the library. -/
theorem splitOn_eq_listSplitOn (separator : UInt16) (t : Text) :
    splitOn separator t = List.splitOn separator t := by
  induction t with
  | nil => rfl
  | cons u rest ih =>
    rw [splitOn, ih]
    unfold List.splitOn
    rw [splitOnP_cons_eq_if_modifyHead]
    split
    · rfl
    · cases h : List.splitOnP (· == separator) rest with
      | nil => exact absurd h (splitOnP_ne_nil _ rest)
      | cons first others => rfl

/-- Joining is that of the library, with the separator as a list. -/
theorem joined_eq_intercalate (separator : Text) (ts : List Text) :
    joined separator ts = separator.intercalate ts := by
  induction ts with
  | nil => rfl
  | cons t ts ih =>
    cases ts with
    | nil => simp [joined]
    | cons s rest => rw [joined, ih, intercalate_cons_cons]; simp

theorem splitOn_joined (h : ∀ t ∈ ts, separator ∉ t) (hne : ts ≠ []) :
    splitOn separator (joined [separator] ts) = ts := by
  rw [splitOn_eq_listSplitOn, joined_eq_intercalate, splitOn_intercalate separator h hne]

theorem joined_splitOn (separator : UInt16) (t : Text) :
    joined [separator] (splitOn separator t) = t := by
  rw [splitOn_eq_listSplitOn, joined_eq_intercalate, intercalate_splitOn]

theorem splitOn_append_cons (separator : UInt16) (a b : Text) :
    splitOn separator (a ++ separator :: b) = splitOn separator a ++ splitOn separator b := by
  rw [splitOn_eq_listSplitOn, splitOn_eq_listSplitOn, splitOn_eq_listSplitOn,
    splitOn_append_cons_self]

theorem splitOn_of_notMem (h : separator ∉ t) : splitOn separator t = [t] := by
  rw [splitOn_eq_listSplitOn, splitOn_eq_singleton h]

theorem splitOn_ne_nil (separator : UInt16) (t : Text) : splitOn separator t ≠ [] := by
  rw [splitOn_eq_listSplitOn]
  exact splitOnP_ne_nil _ t

/-- No piece has the unit in it at which the text was cut. -/
theorem notMem_of_mem_splitOn {piece : Text} (h : piece ∈ splitOn separator t) :
    separator ∉ piece := by
  induction t generalizing piece with
  | nil =>
    rw [splitOn, mem_singleton] at h
    rw [h]
    simp
  | cons u rest ih =>
    rw [splitOn] at h
    split at h
    · rcases mem_cons.mp h with rfl | h
      · simp
      · exact ih h
    · rename_i hu
      cases hrest : splitOn separator rest with
      | nil => exact absurd hrest (splitOn_ne_nil separator rest)
      | cons first others =>
        rw [hrest] at h
        rcases mem_cons.mp h with rfl | h
        · have hfirst : separator ∉ first := ih (by rw [hrest]; simp)
          rw [mem_cons, not_or]
          exact ⟨fun heq => hu (beq_iff_eq.mpr heq.symm), hfirst⟩
        · exact ih (by rw [hrest]; exact mem_cons_of_mem _ h)

/-- Pieces that are joined by a whole unit have no lone surrogate if none of them has one. -/
theorem paired_joined (hs : isSurrogate separator = false) :
    Paired (joined [separator] ts) ↔ ∀ t ∈ ts, Paired t := by
  induction ts with
  | nil => simp [joined, paired_nil]
  | cons t ts ih =>
    cases ts with
    | nil => simp [joined]
    | cons s rest =>
      rw [joined, append_assoc, singleton_append, paired_append_cons hs, ih,
        forall_mem_cons (a := t)]
      simp

end Posonly.Text
