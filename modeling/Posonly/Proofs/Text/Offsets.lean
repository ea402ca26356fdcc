import Posonly.Proofs.Text.Chunks
import Posonly.Proofs.Text.Separator

/-!
# Offsets in a text and in its bytes

An offset of a text is one of its bytes as well, unless it cuts through a pair of surrogates that
come from one character (`WholeAt`). Then the chunks fall into those ahead of the offset and those
behind it, so a range of the text has bytes, and these stand for it (`decode_range`).
-/

open List

namespace Posonly.Text

/-- No pair of surrogates reaches across an offset. -/
def WholeAt (t : Text) : Nat → Prop
  | 0 => True
  | i + 1 => ((t[i]?).any isHighSurrogate && (t[i + 1]?).any isLowSurrogate) = false

instance (t : Text) (k : Nat) : Decidable (t.WholeAt k) :=
  match k with
  | 0 => .isTrue trivial
  | i + 1 => inferInstanceAs
      (Decidable (((t[i]?).any isHighSurrogate && (t[i + 1]?).any isLowSurrogate) = false))

variable {t : Text} {u : UInt16}

/-- A pair does not reach across the end of a separator. -/
theorem wholeAt_behind {i : Nat} (hu : t[i]? = some u) (hs : isSeparator u = true) :
    t.WholeAt (i + 1) := by
  rw [WholeAt, hu, Option.any_some, Bool.and_eq_false_iff]
  refine .inl (Bool.eq_false_iff.mpr fun hhigh => ?_)
  rw [isSeparator_of_surrogate (.inl hhigh)] at hs
  cases hs

/-- Nor across its start. -/
theorem wholeAt_ahead {k : Nat} (hu : t[k]? = some u) (hs : isSeparator u = true) :
    t.WholeAt k := by
  cases k with
  | zero => trivial
  | succ i =>
    rw [WholeAt, hu, Option.any_some, Bool.and_eq_false_iff]
    refine .inr (Bool.eq_false_iff.mpr fun hlow => ?_)
    rw [isSeparator_of_surrogate (.inr hlow)] at hs
    cases hs

/-- A line starts behind a break, which is a separator, or at the start of the text. -/
theorem wholeAt_lineStart (t : Text) (offset : Nat) : t.WholeAt (t.lineStart offset) := by
  induction offset with
  | zero => trivial
  | succ n ih =>
    rw [lineStart]
    split
    · rename_i hbreak
      cases hu : t[n]? with
      | none =>
        rw [hu] at hbreak
        cases hbreak
      | some u =>
        rw [hu, Option.any_some] at hbreak
        exact wholeAt_behind hu (isSeparator_of_isPadding (isPadding_of_isBreak hbreak))
    · exact ih

theorem WholeAt.of_cons {k : Nat} (h : WholeAt (u :: t) (k + 1)) : t.WholeAt k := by
  cases k with
  | zero => trivial
  | succ i => exact h

end Posonly.Text

namespace Posonly.Encoding

namespace Chunk

/-! ## Cutting chunks -/

/-- The chunks ahead of an offset of their units. -/
def ahead : List Chunk → Nat → List Chunk
  | _, 0 | [], _ + 1 => []
  | c :: cs, k + 1 => c :: ahead cs (k + 1 - c.units.length)

/-- The chunks from one offset up to another. -/
def between (cs : List Chunk) (j k : Nat) : List Chunk := (ahead cs k).drop (ahead cs j).length

/-- The chunks from an offset on. -/
def behind (cs : List Chunk) (k : Nat) : List Chunk := cs.drop (ahead cs k).length

theorem ahead_zero (cs : List Chunk) : ahead cs 0 = [] := by cases cs <;> rfl

/-- A greater offset has more chunks ahead of it, and those of the smaller one come first. -/
theorem ahead_mono (cs : List Chunk) {j k : Nat} (h : j ≤ k) : ahead cs j <+: ahead cs k := by
  induction cs generalizing j k with
  | nil => cases j <;> cases k <;> exact nil_prefix
  | cons c cs ih =>
    cases j with
    | zero => exact nil_prefix
    | succ j =>
      obtain ⟨k, rfl⟩ : ∃ m, k = m + 1 := ⟨k - 1, by omega⟩
      exact (prefix_cons_inj c).mpr (ih (by omega))

theorem ahead_prefix (cs : List Chunk) (k : Nat) : ahead cs k <+: cs := by
  induction cs generalizing k with
  | nil => cases k <;> exact nil_prefix
  | cons c cs ih =>
    cases k with
    | zero => exact nil_prefix
    | succ k => exact (prefix_cons_inj c).mpr (ih _)

theorem ahead_append_between {cs : List Chunk} {j k : Nat} (h : j ≤ k) :
    ahead cs j ++ between cs j k = ahead cs k := by
  obtain ⟨rest, hrest⟩ := ahead_mono cs h
  rw [between, ← hrest, drop_left]

theorem ahead_append_behind (cs : List Chunk) (k : Nat) : ahead cs k ++ behind cs k = cs := by
  obtain ⟨rest, hrest⟩ := ahead_prefix cs k
  have hdrop := congrArg (List.drop (ahead cs k).length) hrest
  rw [drop_left] at hdrop
  rw [behind, ← hdrop, hrest]

end Chunk

/-! ## Offsets -/

/-- **The units of the chunks ahead of an offset** are the text up to there. Chunks have one unit at
most, or the two of a pair, which the offset is not allowed to cut. -/
theorem units_ahead (cs : List Chunk) {k : Nat} (hshape : ∀ c ∈ cs, c.units.length ≤ 1 ∨
      ∃ u v, c.units = [u, v] ∧ Text.isHighSurrogate u = true ∧ Text.isLowSurrogate v = true)
    (hk : k ≤ (cs.flatMap Chunk.units).length) (hwhole : Text.WholeAt (cs.flatMap Chunk.units) k) :
    (Chunk.ahead cs k).flatMap Chunk.units = (cs.flatMap Chunk.units).take k := by
  induction cs generalizing k with
  | nil => cases k <;> rfl
  | cons c cs ih =>
    have hrest : ∀ d ∈ cs, _ := fun d hd => hshape d (.tail _ hd)
    cases k with
    | zero => rfl
    | succ k =>
      rw [Chunk.ahead, flatMap_cons, flatMap_cons]
      rw [flatMap_cons] at hk hwhole
      rcases hshape c (by simp) with hshort | ⟨u, v, hunits, hhigh, hlow⟩
      · cases hunits : c.units with
        | nil =>
          rw [hunits] at hk hwhole
          exact ih hrest hk hwhole
        | cons u more =>
          obtain rfl : more = [] := by
            rw [hunits, length_cons] at hshort
            exact length_eq_zero_iff.mp (by omega)
          rw [hunits] at hk hwhole
          rw [length_append, length_singleton] at hk
          rw [length_singleton, Nat.add_sub_cancel, ih hrest (by omega) hwhole.of_cons]
          rfl
      · rw [hunits] at hk hwhole ⊢
        cases k with
        | zero =>
          -- the offset would be between the halves
          refine absurd hwhole ?_
          change ¬ (Text.isHighSurrogate u && Text.isLowSurrogate v) = false
          simp [hhigh, hlow]
        | succ k =>
          rw [length_append] at hk
          change k + 1 + 1 ≤ 1 + 1 + _ at hk
          have hbehind := ih (k := k) hrest (by omega) hwhole.of_cons.of_cons
          change [u, v] ++ (Chunk.ahead cs (k + 1 + 1 - 2)).flatMap Chunk.units = _
          rw [Nat.add_sub_cancel (n := k) (m := 2), hbehind]
          rfl

/-- How many bytes stand ahead of an offset of the text. -/
def byteOffset (e : Encoding) (bytes : Bytes) (k : Nat) : Nat :=
  ((Chunk.ahead (e.chunks bytes) k).flatMap Chunk.bytes).length

section

variable (e : Encoding) (bytes : Bytes) {j k : Nat}

/-- An offset at which the text of some bytes can be cut. -/
structure CutAt (k : Nat) : Prop where
  le : k ≤ (e.decode bytes).length
  whole : (e.decode bytes).WholeAt k

/-- The bytes of the chunks ahead of an offset are the first bytes, as many as its byte offset. -/
theorem bytes_ahead : (Chunk.ahead (e.chunks bytes) k).flatMap Chunk.bytes =
    bytes.take (e.byteOffset bytes k) := by
  have hall := e.bytes_chunks bytes
  rw [← Chunk.ahead_append_behind (e.chunks bytes) k, flatMap_append] at hall
  have htake := congrArg (List.take (e.byteOffset bytes k)) hall
  rwa [byteOffset, take_left] at htake

theorem bytes_behind : (Chunk.behind (e.chunks bytes) k).flatMap Chunk.bytes =
    bytes.drop (e.byteOffset bytes k) := by
  have hall := e.bytes_chunks bytes
  rw [← Chunk.ahead_append_behind (e.chunks bytes) k, flatMap_append] at hall
  have hdrop := congrArg (List.drop (e.byteOffset bytes k)) hall
  rwa [byteOffset, drop_left] at hdrop

theorem bytes_between (h : j ≤ k) : (Chunk.between (e.chunks bytes) j k).flatMap Chunk.bytes =
    (bytes.take (e.byteOffset bytes k)).drop (e.byteOffset bytes j) := by
  rw [← bytes_ahead, ← Chunk.ahead_append_between h, flatMap_append, byteOffset, drop_left']
  rfl

variable {e bytes}

/-- Where a text can be cut, its chunks can: they fall into those of either part. -/
theorem CutAt.ahead (h : e.CutAt bytes k) :
    (Chunk.ahead (e.chunks bytes) k).flatMap Chunk.units = (e.decode bytes).take k := by
  have hunits := e.units_chunks bytes
  have hahead := units_ahead (e.chunks bytes) (k := k) fun c hc => units_of_mem hc
  rw [hunits] at hahead
  exact hahead h.le h.whole

theorem CutAt.behind (h : e.CutAt bytes k) :
    (Chunk.behind (e.chunks bytes) k).flatMap Chunk.units = (e.decode bytes).drop k := by
  have hall := e.units_chunks bytes
  rw [← Chunk.ahead_append_behind (e.chunks bytes) k, flatMap_append, h.ahead] at hall
  have hsplit := (take_append_drop k (e.decode bytes)).symm
  exact append_cancel_left (hall.trans hsplit)

theorem CutAt.between (hj : e.CutAt bytes j) (hk : e.CutAt bytes k) (h : j ≤ k) :
    (Chunk.between (e.chunks bytes) j k).flatMap Chunk.units = (e.decode bytes).slice j k := by
  have hall := hk.ahead
  rw [← Chunk.ahead_append_between h, flatMap_append, hj.ahead] at hall
  have hsplit : (e.decode bytes).take j ++ (e.decode bytes).slice j k = (e.decode bytes).take k :=
    Text.slice_append (a := 0) (Nat.zero_le j) h
  exact append_cancel_left (hall.trans hsplit.symm)

/-- **A range of a text has bytes of its own**: those between the two byte offsets are decoded to
it, whatever stands around them. -/
theorem CutAt.decode_range (hj : e.CutAt bytes j) (hk : e.CutAt bytes k) (h : j ≤ k) :
    e.decode ((bytes.take (e.byteOffset bytes k)).drop (e.byteOffset bytes j)) =
      (e.decode bytes).slice j k := by
  have hahead := (chunks_of_append (Chunk.ahead_append_behind (e.chunks bytes) k).symm).1
  rw [← Chunk.ahead_append_between h] at hahead
  rw [← bytes_between e bytes h, ← units_chunks, (chunks_of_append hahead).2, hj.between hk h]

end

end Posonly.Encoding
