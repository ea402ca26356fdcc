import Mathlib.Data.List.Chain
import Mathlib.Data.List.Sort
import Posonly.Edit

/-!
# The order of edits

Edits are applied by where they start, insertions ahead of what starts at the same offset. This is
the order of one number (`rank`), so sorting edits is sorting by a key, and it leaves edits with the
same key as they came (`filter_inOrder`). In that order two edits overlap exactly when two
neighbours do (`firstOverlap_inOrder_eq_none`).
-/

open List

namespace Posonly.Edit

/-- The place of an edit in the order of application. -/
def rank (e : Edit) : Nat := 2 * e.start + if e.isInsertion then 0 else 1

variable {e a b : Edit} {l as bs : List Edit}

theorem rank_insertion (h : e.start = e.stop) : e.rank = 2 * e.start := by
  simp [rank, isInsertion, h]

/-- An edit need not be applied behind another. -/
def RankLE (a b : Edit) : Prop := a.rank ≤ b.rank

instance : DecidableRel RankLE := fun a b => inferInstanceAs (Decidable (a.rank ≤ b.rank))

instance : Std.Total RankLE := ⟨fun a b => Nat.le_total a.rank b.rank⟩

instance : IsTrans Edit RankLE := ⟨fun _ _ _ => Nat.le_trans⟩

/-- To precede is to have the lower rank. -/
theorem precedes_iff (a b : Edit) : a.precedes b = true ↔ a.rank < b.rank := by
  unfold precedes rank
  simp only [Bool.or_eq_true, decide_eq_true_eq, Bool.and_eq_true, beq_iff_eq, Bool.not_eq_true']
  cases a.isInsertion <;> cases b.isInsertion <;> simp <;> omega

/-! ## Sorting -/

theorem place_eq_orderedInsert (e : Edit) (l : List Edit) :
    place e l = l.orderedInsert RankLE e := by
  induction l with
  | nil => rfl
  | cons f rest ih =>
    rw [place, orderedInsert_cons, ih]
    by_cases h : f.precedes e = true
    · rw [if_pos h, if_neg]
      exact Nat.not_le_of_lt ((precedes_iff f e).mp h)
    · rw [if_neg h, if_pos]
      rw [precedes_iff] at h
      exact Nat.le_of_not_lt h

/-- Putting edits in order is the insertion sort of the library. -/
theorem inOrder_eq_insertionSort (l : List Edit) : inOrder l = l.insertionSort RankLE := by
  induction l with
  | nil => rfl
  | cons e rest ih => rw [inOrder, place_eq_orderedInsert, ih, insertionSort_cons]

theorem inOrder_perm (l : List Edit) : (inOrder l).Perm l := by
  rw [inOrder_eq_insertionSort]
  exact perm_insertionSort RankLE l

theorem inOrder_pairwise (l : List Edit) : (inOrder l).Pairwise RankLE := by
  rw [inOrder_eq_insertionSort]
  exact pairwise_insertionSort RankLE l

theorem mem_inOrder : e ∈ inOrder l ↔ e ∈ l := (inOrder_perm l).mem_iff

theorem inOrder_inOrder (l : List Edit) : inOrder (inOrder l) = inOrder l := by
  rw [inOrder_eq_insertionSort (inOrder l)]
  exact (inOrder_pairwise l).insertionSort_eq

/-- **Sorting is stable**: edits with the same rank stay as they came. -/
theorem filter_inOrder (l : List Edit) {p : Edit → Bool} {n : Nat}
    (hp : ∀ e, p e = true → e.rank = n) : (inOrder l).filter p = l.filter p := by
  have hsame : (l.filter p).Pairwise RankLE := by
    refine pairwise_of_forall_mem_list fun a ha b hb => ?_
    have ha := hp a (mem_filter.mp ha).2
    have hb := hp b (mem_filter.mp hb).2
    exact Nat.le_of_eq (ha.trans hb.symm)
  have hsub : (l.filter p).Sublist (inOrder l) := by
    rw [inOrder_eq_insertionSort]
    exact sublist_insertionSort hsame filter_sublist
  have hself : (l.filter p).filter p = l.filter p :=
    filter_eq_self.mpr fun e he => (mem_filter.mp he).2
  have hfilter := hsub.filter p
  rw [hself] at hfilter
  exact (hfilter.eq_of_length (((inOrder_perm l).filter p).length_eq.symm)).symm

theorem place_eq_cons (h : ∀ f ∈ l, f.precedes e = false) : place e l = e :: l := by
  cases l with
  | nil => rfl
  | cons f rest => rw [place, if_neg (by simp [h f])]

theorem place_append (h : ∀ b ∈ bs, e.rank ≤ b.rank) : place e (as ++ bs) = place e as ++ bs := by
  induction as with
  | nil =>
    refine place_eq_cons fun b hb => ?_
    rw [Bool.eq_false_iff, ne_eq, precedes_iff]
    exact Nat.not_lt_of_le (h b hb)
  | cons a as ih =>
    rw [cons_append, place, place, ih]
    split <;> rfl

/-- Edits that need not be behind any others can be sorted by themselves. -/
theorem inOrder_append (h : ∀ a ∈ as, ∀ b ∈ bs, a.rank ≤ b.rank) :
    inOrder (as ++ bs) = inOrder as ++ inOrder bs := by
  induction as with
  | nil => rfl
  | cons a as ih =>
    rw [cons_append, inOrder, inOrder, ih fun c hc => h c (.tail _ hc)]
    exact place_append fun b hb => h a (.head _) b (mem_inOrder.mp hb)

theorem inOrder_concat (h : ∀ a ∈ as, e.rank < a.rank) : inOrder (as ++ [e]) = e :: inOrder as := by
  induction as with
  | nil => rfl
  | cons a as ih =>
    have hea := (precedes_iff e a).mpr (h a (.head _))
    rw [cons_append, inOrder, inOrder, ih fun c hc => h c (.tail _ hc), place, if_pos hea]

/-- Two edits that came last, of which one must be ahead of all the others and one may be behind
them, end up around the others. -/
theorem inOrder_around {o c : Edit} (ho : ∀ a ∈ as, o.rank < a.rank)
    (hc : ∀ a ∈ as, a.rank ≤ c.rank) (hoc : o.rank ≤ c.rank) :
    inOrder (as ++ [o, c]) = o :: (inOrder as ++ [c]) := by
  have hlast : ∀ a ∈ as ++ [o], ∀ b ∈ [c], a.rank ≤ b.rank := by
    intro a ha b hb
    rw [mem_singleton.mp hb]
    rcases mem_append.mp ha with ha | ha
    · exact hc a ha
    · rwa [mem_singleton.mp ha]
  calc inOrder (as ++ [o, c]) = inOrder ((as ++ [o]) ++ [c]) := by rw [append_assoc]; rfl
    _ = inOrder (as ++ [o]) ++ [c] := inOrder_append hlast
    _ = o :: (inOrder as ++ [c]) := by rw [inOrder_concat ho, cons_append]

theorem filter_place (p : Edit → Bool) (e : Edit) (hl : l.Pairwise RankLE) :
    (place e l).filter p = if p e then place e (l.filter p) else l.filter p := by
  induction l with
  | nil => cases hp : p e <;> simp [place, hp]
  | cons f rest ih =>
    obtain ⟨hf, hrest⟩ := pairwise_cons.mp hl
    rw [place]
    by_cases h : f.precedes e = true
    · rw [if_pos h, filter_cons, ih hrest]
      cases hpf : p f <;> cases hpe : p e <;> simp [hpf, place, h]
    · -- nothing in the list precedes the edit, since all of it is behind its head
      have hnone : ∀ g ∈ (f :: rest).filter p, g.precedes e = false := by
        intro g hg
        rw [Bool.eq_false_iff, ne_eq, precedes_iff]
        rw [precedes_iff] at h
        rcases mem_cons.mp (mem_filter.mp hg).1 with rfl | hg
        · exact h
        · have hle : f.rank ≤ g.rank := hf g hg
          omega
      rw [if_neg h, place_eq_cons hnone, filter_cons]

/-- **Sorting keeps the order of any selection**: some of the sorted edits are those edits sorted.
-/
theorem inOrder_filter (p : Edit → Bool) (l : List Edit) :
    inOrder (l.filter p) = (inOrder l).filter p := by
  induction l with
  | nil => rfl
  | cons e rest ih =>
    rw [inOrder, filter_place p e (inOrder_pairwise rest), filter_cons]
    cases hp : p e with
    | true => simp [inOrder, ih]
    | false => simp [ih]

/-! ## Overlaps -/

/-- The range of an edit is a range. -/
def Valid (e : Edit) : Prop := e.start ≤ e.stop

/-- Two edits keep clear of each other: neither range reaches into the other, and neither insertion
falls inside a range. -/
def Apart (a b : Edit) : Prop := a.stop ≤ b.start ∨ b.stop ≤ a.start

theorem Apart.symm (h : Apart a b) : Apart b a := Or.symm h

theorem firstOverlap_eq_none_iff (l : List Edit) :
    firstOverlap l = none ↔ l.IsChain fun a b => a.stop ≤ b.start := by
  induction l with
  | nil => simp [firstOverlap]
  | cons a rest ih =>
    cases rest with
    | nil => simp [firstOverlap]
    | cons b rest =>
      rw [firstOverlap, isChain_cons_cons, ← ih]
      by_cases h : b.start < a.stop
      · rw [if_pos h]
        exact iff_of_false (by simp) fun hc => by omega
      · rw [if_neg h]
        exact ⟨fun hr => ⟨by omega, hr⟩, fun hr => hr.2⟩

/-- Of two edits that are apart, the one that is applied first ends first. -/
theorem Apart.stop_le (h : Apart a b) (hb : b.Valid) (hab : RankLE a b) : a.stop ≤ b.start := by
  rcases h with h | h
  · exact h
  · unfold Valid at hb
    unfold RankLE rank at hab
    have hstart : a.start = b.start := by split at hab <;> split at hab <;> omega
    have hins : b.isInsertion = true := by simp [isInsertion]; omega
    rw [hins, hstart] at hab
    split at hab
    · rename_i hains
      simp only [isInsertion, beq_iff_eq] at hains
      omega
    · exact absurd hab (by simp)

theorem pairwise_of_isChain (hvalid : ∀ e ∈ l, e.Valid)
    (h : l.IsChain fun a b => a.stop ≤ b.start) : l.Pairwise fun a b => a.stop ≤ b.start := by
  induction l with
  | nil => exact .nil
  | cons a rest ih =>
    obtain ⟨hnext, hrest⟩ := isChain_cons.mp h
    have ih := ih (fun e he => hvalid e (.tail _ he)) hrest
    refine pairwise_cons.mpr ⟨fun c hc => ?_, ih⟩
    cases rest with
    | nil => cases hc
    | cons b rest =>
      have hab := hnext b rfl
      rcases mem_cons.mp hc with rfl | hc
      · exact hab
      · have hbc := (pairwise_cons.mp ih).1 c hc
        have hb := hvalid b (by simp)
        unfold Valid at hb
        omega

/-- **Neighbours tell**: if no two of them overlap in order, no two edits do. -/
theorem firstOverlap_inOrder_eq_none (hvalid : ∀ e ∈ l, e.Valid) :
    firstOverlap (inOrder l) = none ↔ l.Pairwise Apart := by
  have hvalid' : ∀ e ∈ inOrder l, e.Valid := fun e he => hvalid e (mem_inOrder.mp he)
  rw [firstOverlap_eq_none_iff]
  constructor
  · intro h
    refine (inOrder_perm l).pairwise ?_ fun {a b} => Apart.symm
    exact (pairwise_of_isChain hvalid' h).imp fun h => .inl h
  · intro h
    have hapart : (inOrder l).Pairwise Apart :=
      (inOrder_perm l).symm.pairwise h fun {a b} => Apart.symm
    refine List.Pairwise.isChain (((inOrder_pairwise l).and hapart).imp_of_mem ?_)
    intro a b _ hb hab
    exact hab.2.stop_le (hvalid' b hb) hab.1

end Posonly.Edit
