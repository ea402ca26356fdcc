import Posonly.Proofs.Edit.Order
import Posonly.Proofs.Text.Stretch

/-!
# Applying edits

`splice` runs through sorted edits and copies what lies between them. Seen from the source, each of
its offsets contributes a piece of the result by itself: the insertions there, then the text of the
range that starts there, or else its own unit unless a range covers it (`pieceAt`). The result is
these pieces in a row (`splice_inOrder`).

Edits can be taken back: `inverse` gives edits of the result that put the source together again
(`splice_inverse`).
-/

open List Posonly.Text Posonly.Edit

namespace Posonly

namespace Edit

variable {source : Text}

/-- The text that some edits put in, one after the other. -/
def texts (es : List Edit) : Text := es.flatMap (·.text)

/-- Whether an edit replaces the unit at an offset. -/
def covers (i : Nat) (e : Edit) : Bool := decide (e.start ≤ i) && decide (i < e.stop)

/-- What an offset of a source contributes to the result of some edits. -/
def pieceAt (source : Text) (edits : List Edit) (i : Nat) : Text :=
  texts (edits.filter fun e => e.isInsertion && e.start == i) ++
    texts (edits.filter fun e => !e.isInsertion && e.start == i) ++
    if edits.any (covers i) then [] else (source[i]?).toList

theorem rank_even_iff (i : Nat) (e : Edit) :
    e.rank = 2 * i ↔ (e.isInsertion && e.start == i) = true := by
  rw [rank, Bool.and_eq_true, beq_iff_eq]
  cases e.isInsertion with
  | true =>
    simp only [if_true, true_and]
    omega
  | false =>
    simp only [Bool.false_eq_true, if_false, false_and, iff_false]
    omega

theorem rank_odd_iff (i : Nat) (e : Edit) :
    e.rank = 2 * i + 1 ↔ (!e.isInsertion && e.start == i) = true := by
  rw [rank, Bool.and_eq_true, beq_iff_eq]
  cases e.isInsertion with
  | true =>
    simp only [if_true, Bool.not_true, Bool.false_eq_true, false_and, iff_false]
    omega
  | false =>
    simp only [Bool.false_eq_true, if_false, Bool.not_false, true_and]
    omega

theorem pieceAt_inOrder (source : Text) (edits : List Edit) (i : Nat) :
    pieceAt source (inOrder edits) i = pieceAt source edits i := by
  have hins : (inOrder edits).filter (fun e => e.isInsertion && e.start == i) =
      edits.filter fun e => e.isInsertion && e.start == i :=
    filter_inOrder edits fun e => (rank_even_iff i e).mpr
  have hrep : (inOrder edits).filter (fun e => !e.isInsertion && e.start == i) =
      edits.filter fun e => !e.isInsertion && e.start == i :=
    filter_inOrder edits fun e => (rank_odd_iff i e).mpr
  have hany : (inOrder edits).any (covers i) = edits.any (covers i) := (inOrder_perm edits).any_eq
  rw [pieceAt, pieceAt, hins, hrep, hany]

/-- Edits that can be applied from an offset on. -/
structure Applicable (source : Text) (pos : Nat) (es : List Edit) : Prop where
  valid : ∀ e ∈ es, e.Valid
  start_ge : ∀ e ∈ es, pos ≤ e.start
  stop_le : ∀ e ∈ es, e.stop ≤ source.length
  sorted : es.Pairwise RankLE
  clear : es.Pairwise fun a b => a.stop ≤ b.start

variable {pos i a b : Nat} {e f : Edit} {es fs edits : List Edit}

theorem Applicable.tail (h : Applicable source pos (e :: es)) : Applicable source e.stop es where
  valid f hf := h.valid f (.tail _ hf)
  start_ge f hf := (pairwise_cons.mp h.clear).1 f hf
  stop_le f hf := h.stop_le f (.tail _ hf)
  sorted := (pairwise_cons.mp h.sorted).2
  clear := (pairwise_cons.mp h.clear).2

theorem Applicable.sublist (h : Applicable source pos es) (hsub : fs.Sublist es) :
    Applicable source pos fs where
  valid f hf := h.valid f (hsub.subset hf)
  start_ge f hf := h.start_ge f (hsub.subset hf)
  stop_le f hf := h.stop_le f (hsub.subset hf)
  sorted := h.sorted.sublist hsub
  clear := h.clear.sublist hsub

theorem filter_of_lt (h : ∀ e ∈ es, i < e.start) (p : Edit → Bool) :
    es.filter (fun e => p e && e.start == i) = [] := by
  refine filter_eq_nil_iff.mpr fun e he hp => ?_
  rw [Bool.and_eq_true, beq_iff_eq] at hp
  have := h e he
  omega

theorem covers_eq_false (h : i < e.start ∨ e.stop ≤ i) : covers i e = false := by
  rw [covers, Bool.and_eq_false_iff, decide_eq_false_iff_not, decide_eq_false_iff_not]
  omega

theorem pieceAt_of_lt (h : ∀ e ∈ es, i < e.start) : pieceAt source es i = (source[i]?).toList := by
  have hany : es.any (covers i) = false :=
    any_eq_false.mpr fun e he => Bool.eq_false_iff.mp (covers_eq_false (.inl (h e he)))
  rw [pieceAt, filter_of_lt h, filter_of_lt h fun e => !e.isInsertion, hany]
  rfl

theorem pieceAt_cons_of_ne (hne : e.start ≠ i) (h : i < e.start ∨ e.stop ≤ i) :
    pieceAt source (e :: es) i = pieceAt source es i := by
  have hskip : ∀ p : Edit → Bool, (e :: es).filter (fun e => p e && e.start == i) =
      es.filter fun e => p e && e.start == i := by
    intro p
    refine filter_cons_of_neg ?_
    rw [Bool.and_eq_true, beq_iff_eq]
    exact fun h => hne h.2
  rw [pieceAt, hskip, hskip (fun e => !e.isInsertion), any_cons, covers_eq_false h, Bool.false_or]
  rfl

theorem pieceAt_cons_insertion (es : List Edit) (hins : e.isInsertion = true) :
    pieceAt source (e :: es) e.start = e.text ++ pieceAt source es e.start := by
  have hstop : e.start = e.stop := by simpa [isInsertion] using hins
  rw [pieceAt, pieceAt, filter_cons_of_pos (by simp [hins]), filter_cons_of_neg (by simp [hins]),
    any_cons, covers_eq_false (.inr hstop.ge), Bool.false_or]
  simp only [texts, flatMap_cons, append_assoc]

/-- Offsets inside a range contribute its text at its start and nothing else, if all other edits are
behind it. -/
theorem pieceAt_cons_range (hins : e.isInsertion = false) (hlater : ∀ f ∈ es, e.stop ≤ f.start)
    (hi : e.start ≤ i) (hie : i < e.stop) :
    pieceAt source (e :: es) i = if i = e.start then e.text else [] := by
  have hnone : ∀ p : Edit → Bool, es.filter (fun e => p e && e.start == i) = [] :=
    filter_of_lt fun f hf => Nat.lt_of_lt_of_le hie (hlater f hf)
  have hc : (e :: es).any (covers i) = true := by
    rw [any_cons, covers, decide_eq_true hi, decide_eq_true hie]
    rfl
  rw [pieceAt, hc, filter_cons_of_neg (by simp [hins]), hnone, filter_cons,
    hnone fun e => !e.isInsertion, hins]
  by_cases heq : i = e.start
  · simp [heq, texts]
  · have : e.start ≠ i := fun h => heq h.symm
    simp [heq, this, texts]

/-! ## Pieces in a row -/

/-- What the offsets from one up to another contribute. -/
def pieces (source : Text) (es : List Edit) (start stop : Nat) : Text :=
  (range' start (stop - start)).flatMap (pieceAt source es)

theorem pieces_one : pieces source es a (a + 1) = pieceAt source es a := by
  rw [pieces, Nat.add_sub_cancel_left, range'_one, flatMap_singleton]

theorem pieces_append {c : Nat} (hab : a ≤ b) (hbc : b ≤ c) :
    pieces source es a b ++ pieces source es b c = pieces source es a c := by
  have hsplit := range'_append_1 (s := a) (m := b - a) (n := c - b)
  rw [show a + (b - a) = b by omega, show b - a + (c - b) = c - a by omega] at hsplit
  rw [pieces, pieces, pieces, ← hsplit, flatMap_append]

theorem pieces_congr (h : ∀ i, a ≤ i → i < b → pieceAt source es i = pieceAt source fs i) :
    pieces source es a b = pieces source fs a b := by
  refine flatMap_congr fun i hi => ?_
  obtain ⟨h1, h2⟩ := mem_range'_1.mp hi
  exact h i h1 (by omega)

theorem pieces_of_lt (h : ∀ e ∈ es, b ≤ e.start) : pieces source es a b = source.slice a b := by
  induction hn : b - a generalizing a with
  | zero =>
    rw [pieces, hn, slice_of_le (by omega)]
    rfl
  | succ n ih =>
    have hstep : pieces source es a (a + 1) ++ pieces source es (a + 1) b = pieces source es a b :=
      pieces_append (Nat.le_succ a) (by omega)
    have hone : pieces source es a (a + 1) = source.slice a (a + 1) := by
      rw [pieces_one, pieceAt_of_lt fun e he => by have := h e he; omega]
      cases hu : source[a]? with
      | none =>
        rw [slice, drop_eq_nil_of_le]
        · rfl
        · rw [length_take]
          have := getElem?_eq_none_iff.mp hu
          omega
      | some u => rw [slice_unit hu]; rfl
    rw [← hstep, hone, ih (by omega), slice_append (Nat.le_succ a) (by omega)]

/-- An edit contributes its text, and what is behind it does not see it. -/
theorem pieces_cons (h : Applicable source pos (e :: es)) :
    pieces source (e :: es) e.start (source.length + 1) =
      e.text ++ pieces source es e.stop (source.length + 1) := by
  have hvalid : e.start ≤ e.stop := h.valid e (by simp)
  have hstop := h.stop_le e (by simp)
  have hlater := h.tail.start_ge
  have hrest : ∀ q, e.start < q → e.stop ≤ q →
      pieces source (e :: es) q (source.length + 1) = pieces source es q (source.length + 1) :=
    fun q hlt hle => pieces_congr fun i hi _ => pieceAt_cons_of_ne (by omega) (.inr (by omega))
  by_cases hins : e.isInsertion = true
  · have heq : e.start = e.stop := by simpa [isInsertion] using hins
    rw [← pieces_append (Nat.le_succ e.start) (by omega), pieces_one,
      pieceAt_cons_insertion es hins, hrest _ (Nat.lt_succ_self _) (by omega), append_assoc,
      ← pieces_one, pieces_append (Nat.le_succ e.start) (by omega), heq]
  · have hins : e.isInsertion = false := by simpa using hins
    have hlt : e.start < e.stop := by
      have : e.start ≠ e.stop := by simpa [isInsertion] using hins
      omega
    have hfirst : pieces source (e :: es) e.start (e.start + 1) = e.text := by
      rw [pieces_one, pieceAt_cons_range hins hlater (Nat.le_refl _) hlt, if_pos rfl]
    have hcovered : pieces source (e :: es) (e.start + 1) e.stop = [] := by
      refine flatMap_eq_nil_iff.mpr fun i hi => ?_
      obtain ⟨h1, h2⟩ := mem_range'_1.mp hi
      rw [pieceAt_cons_range hins hlater (by omega) (by omega), if_neg (by omega)]
    rw [← pieces_append (Nat.le_succ e.start) (by omega), hfirst,
      ← pieces_append (show e.start + 1 ≤ e.stop by omega) (by omega), hcovered,
      hrest e.stop hlt (Nat.le_refl _)]
    rfl

theorem spliceFrom_eq_pieces (h : Applicable source pos es) (hpos : pos ≤ source.length) :
    spliceFrom source pos es = pieces source es pos (source.length + 1) := by
  induction es generalizing pos with
  | nil =>
    rw [spliceFrom, pieces_of_lt (by simp), slice, take_of_length_le (by omega)]
  | cons e es ih =>
    have hvalid : e.start ≤ e.stop := h.valid e (by simp)
    have hstop := h.stop_le e (by simp)
    have hge := h.start_ge e (by simp)
    have hbefore : pieces source (e :: es) pos e.start = source.slice pos e.start := by
      refine pieces_of_lt fun f hf => ?_
      rcases mem_cons.mp hf with rfl | hf
      · exact Nat.le_refl _
      · exact Nat.le_trans hvalid (h.tail.start_ge f hf)
    rw [spliceFrom, ih h.tail hstop, ← pieces_append hge (by omega), hbefore, pieces_cons h,
      append_assoc]

theorem applicable_inOrder (hvalid : ∀ e ∈ edits, e.Valid)
    (hstop : ∀ e ∈ edits, e.stop ≤ source.length) (hapart : edits.Pairwise Apart) :
    Applicable source 0 (inOrder edits) where
  valid e he := hvalid e (mem_inOrder.mp he)
  start_ge _ _ := Nat.zero_le _
  stop_le e he := hstop e (mem_inOrder.mp he)
  sorted := inOrder_pairwise edits
  clear := pairwise_of_isChain (fun e he => hvalid e (mem_inOrder.mp he))
    ((firstOverlap_eq_none_iff _).mp ((firstOverlap_inOrder_eq_none hvalid).mpr hapart))

/-- **Offset by offset.** Applying edits gives what each offset contributes, in a row. -/
theorem splice_inOrder (h : Applicable source 0 (inOrder edits)) : splice source (inOrder edits) =
      (range (source.length + 1)).flatMap (pieceAt source edits) := by
  rw [splice, spliceFrom_eq_pieces h (Nat.zero_le _), pieces, range_eq_range', Nat.sub_zero]
  exact flatMap_congr fun i _ => pieceAt_inOrder source edits i

/-! ## Sets of edits -/

/-- The change that an edit was made from. -/
def change (e : Edit) : Change := ⟨e.start, e.stop, e.text, e.origin⟩

theorem change_inj (h : e.change = f.change) :
    e.start = f.start ∧ e.stop = f.stop ∧ e.text = f.text := by
  simp only [change, Change.mk.injEq, Int.natCast_inj] at h
  exact ⟨h.1, h.2.1, h.2.2.1⟩

theorem map_change_place (hef : e.change = f.change) (h : es.map change = fs.map change) :
    (place e es).map change = (place f fs).map change := by
  induction es generalizing fs with
  | nil =>
    rw [map_eq_nil_iff.mp h.symm]
    simp [place, hef]
  | cons a es ih =>
    obtain ⟨b, fs, rfl, hab, h⟩ := map_eq_cons_iff.mp h.symm
    obtain ⟨hstart, hstop, _⟩ := change_inj hef
    obtain ⟨hstart', hstop', _⟩ := change_inj hab
    have hprecedes : a.precedes e = b.precedes f := by
      rw [precedes, precedes, isInsertion, isInsertion, isInsertion, isInsertion, hstart, hstop,
        hstart', hstop']
    rw [place, place, hprecedes]
    split
    · rw [map_cons, map_cons, hab, ih h.symm]
    · rw [map_cons, map_cons, map_cons, map_cons, hab, h, hef]

theorem map_change_inOrder (h : es.map change = fs.map change) :
    (inOrder es).map change = (inOrder fs).map change := by
  induction es generalizing fs with
  | nil => rw [map_eq_nil_iff.mp h.symm]
  | cons e es ih =>
    obtain ⟨f, fs, rfl, hfe, h⟩ := map_eq_cons_iff.mp h.symm
    exact map_change_place hfe.symm (ih h.symm)

theorem mem_of_map_change (h : es.map change = fs.map change) (hf : f ∈ fs) :
    ∃ e ∈ es, e.change = f.change := by
  have hmem : f.change ∈ es.map change := h ▸ mem_map_of_mem hf
  exact mem_map.mp hmem

theorem Applicable.congr (h : Applicable source pos es) (heq : es.map change = fs.map change) :
    Applicable source pos fs where
  valid f hf := by
    obtain ⟨e, he, hef⟩ := mem_of_map_change heq hf
    obtain ⟨hstart, hstop, _⟩ := change_inj hef
    have hvalid := h.valid e he
    unfold Valid at hvalid ⊢
    omega
  start_ge f hf := by
    obtain ⟨e, he, hef⟩ := mem_of_map_change heq hf
    have hge := h.start_ge e he
    have := (change_inj hef).1
    omega
  stop_le f hf := by
    obtain ⟨e, he, hef⟩ := mem_of_map_change heq hf
    have hle := h.stop_le e he
    have := (change_inj hef).2.1
    omega
  sorted := by
    -- the rank of an edit can be read off its change
    have hrank : ∀ l : List Edit, l.map rank = (l.map change).map fun c =>
        2 * c.start.toNat + if c.start.toNat == c.stop.toNat then 0 else 1 := by
      intro l
      rw [map_map]
      rfl
    have hsorted : (es.map rank).Pairwise (· ≤ ·) := pairwise_map.mpr h.sorted
    rwa [hrank, heq, ← hrank, pairwise_map] at hsorted
  clear := by
    have hclear : (es.map change).Pairwise fun c d => c.stop.toNat ≤ d.start.toNat :=
      pairwise_map.mpr h.clear
    rw [heq] at hclear
    exact pairwise_map.mp hclear

theorem spliceFrom_congr (h : es.map change = fs.map change) :
    spliceFrom source pos es = spliceFrom source pos fs := by
  induction es generalizing pos fs with
  | nil => rw [map_eq_nil_iff.mp h.symm]
  | cons e es ih =>
    obtain ⟨f, fs, rfl, hfe, h⟩ := map_eq_cons_iff.mp h.symm
    obtain ⟨hstart, hstop, htext⟩ := change_inj hfe
    rw [spliceFrom, spliceFrom, hstart, hstop, htext, ih h.symm]

end Edit

namespace EditSet

theorem add_cases (s : EditSet) (c : Change) :
    (∃ e, s.add c = .ok (e, ⟨s.edits ++ [e]⟩) ∧ e.change = c ∧ e.Valid) ∨
      ((∃ f, s.add c = .error f) ∧ ¬ (0 ≤ c.start ∧ c.start ≤ c.stop)) := by
  unfold add admit?
  split
  · rename_i hbad
    exact .inr ⟨⟨_, rfl⟩, by omega⟩
  · rename_i hgood
    refine .inl ⟨_, rfl, ?_, ?_⟩
    · obtain ⟨start, stop, text, origin⟩ := c
      simp only [change, Change.mk.injEq, and_true]
      dsimp only at hgood
      omega
    · unfold Valid
      dsimp only
      omega

/-- **Taking in changes.** Good ones become edits in their order; a fault means that one was bad. -/
theorem addAll_cases (s : EditSet) (cs : List Change) :
    (∃ es, s.addAll cs = (⟨s.edits ++ es⟩, none) ∧ es.map change = cs ∧ ∀ e ∈ es, e.Valid) ∨
      ((∃ s' f, s.addAll cs = (s', some f)) ∧ ∃ c ∈ cs, ¬ (0 ≤ c.start ∧ c.start ≤ c.stop)) := by
  induction cs generalizing s with
  | nil => exact .inl ⟨[], by simp [addAll], rfl, by simp⟩
  | cons c cs ih =>
    rw [addAll]
    rcases s.add_cases c with ⟨e, hadd, hchange, hvalid⟩ | ⟨⟨f, hadd⟩, hbad⟩
    · rw [hadd]
      dsimp only
      rcases ih ⟨s.edits ++ [e]⟩ with ⟨es, hall, hchanges, hvalids⟩ | ⟨hfault, d, hd, hbad⟩
      · refine .inl ⟨e :: es, by rw [hall, append_assoc]; rfl, ?_, ?_⟩
        · rw [map_cons, hchange, hchanges]
        · intro f hf
          rcases mem_cons.mp hf with rfl | hf
          · exact hvalid
          · exact hvalids f hf
      · exact .inr ⟨hfault, d, mem_cons_of_mem _ hd, hbad⟩
    · rw [hadd]
      exact .inr ⟨⟨s, f, rfl⟩, c, mem_cons_self .., hbad⟩

variable {s s' : EditSet} {cs : List Change} {edits : List Edit} {source text : Text}
  {definition : Option Insertion}

theorem addAll_append {ds : List Change} (h : s.addAll cs = (s', none)) :
    s.addAll (cs ++ ds) = s'.addAll ds := by
  induction cs generalizing s with
  | nil =>
    obtain ⟨rfl, _⟩ := Prod.mk.inj h
    rfl
  | cons c cs ih =>
    rw [cons_append, addAll]
    rw [addAll] at h
    rcases s.add_cases c with ⟨e, hadd, _, _⟩ | ⟨⟨f, hadd⟩, _⟩
    · rw [hadd] at h ⊢
      exact ih h
    · rw [hadd] at h
      exact absurd (Prod.mk.inj h).2 (by simp)

theorem addAll_changes (h : s.addAll cs = (s', none)) :
    s'.edits.map change = s.edits.map change ++ cs := by
  rcases s.addAll_cases cs with ⟨es, hall, hchanges, _⟩ | ⟨⟨_, _, hall⟩, _⟩
  · obtain ⟨rfl, _⟩ := Prod.mk.inj (h.symm.trans hall)
    rw [← hchanges]
    exact map_append
  · exact absurd (Prod.mk.inj (h.symm.trans hall)).2 (by simp)

theorem addAll_numbered (hs : s.edits.map (·.seq) = range s.size)
    (h : s.addAll cs = (s', none)) : s'.edits.map (·.seq) = range s'.size := by
  induction cs generalizing s with
  | nil =>
    obtain ⟨rfl, _⟩ := Prod.mk.inj h
    exact hs
  | cons c cs ih =>
    rw [addAll, add, admit?] at h
    split at h
    · rename_i hadd
      split at hadd
      · cases hadd
      · injection hadd with hadd
        obtain ⟨_, rfl⟩ := Prod.mk.inj hadd
        refine ih ?_ h
        rw [map_append, hs, size, size, length_append]
        exact range_succ.symm
    · exact absurd (Prod.mk.inj h).2 (by simp)

theorem ordered_eq_ok_iff {es : List Edit} : ordered edits = .ok es ↔
      firstOverlap (inOrder edits) = none ∧ es = inOrder edits := by
  unfold ordered
  dsimp only
  split
  · rename_i hover
    rw [hover]
    simp
  · rename_i hover
    rw [hover]
    simp [eq_comm]

/-- The edits of a set and the definition of the decorator ahead of them. -/
def withDefinition (s : EditSet) (definition : Option Insertion) : List Edit :=
  (definition.map definitionEdit).toList ++ s.edits

/-- The definition of the decorator, if it goes in at an offset. -/
def definitionAt (definition : Option Insertion) (i : Nat) : Text :=
  match definition with
  | none => []
  | some d => if d.offset = i then d.text else []

theorem pieceAt_withDefinition (source : Text) (s : EditSet) (definition : Option Insertion)
    (i : Nat) : pieceAt source (s.withDefinition definition) i =
      definitionAt definition i ++ pieceAt source s.edits i := by
  cases definition with
  | none => rfl
  | some d =>
    change pieceAt source (definitionEdit d :: s.edits) i =
      (if d.offset = i then d.text else []) ++ _
    by_cases hi : d.offset = i
    · subst hi
      rw [if_pos rfl]
      exact pieceAt_cons_insertion s.edits (by simp [isInsertion, definitionEdit])
    · rw [if_neg hi, nil_append]
      exact pieceAt_cons_of_ne hi (Nat.lt_or_ge i d.offset)

theorem inOrder_withDefinition (s : EditSet) (definition : Option Insertion) :
    inOrder (withDefinition ⟨inOrder s.edits⟩ definition) =
      inOrder (s.withDefinition definition) := by
  cases definition with
  | none => exact inOrder_inOrder s.edits
  | some d => exact congrArg (place (definitionEdit d)) (inOrder_inOrder s.edits)

/-- **What it takes to apply a set of edits, and what comes of it.** -/
theorem apply_eq_ok_iff : s.apply source definition = .ok text ↔
      firstOverlap (inOrder (s.withDefinition definition)) = none ∧
      (∀ e ∈ s.withDefinition definition, e.stop ≤ source.length) ∧
      text = splice source (inOrder (s.withDefinition definition)) := by
  have hend : (inOrder (s.withDefinition definition)).find?
      (fun e => decide (source.length < e.stop)) = none ↔
        ∀ e ∈ s.withDefinition definition, e.stop ≤ source.length := by
    rw [find?_eq_none]
    constructor
    · intro h e he
      simpa using h e (mem_inOrder.mpr he)
    · intro h e he
      simpa using h e (mem_inOrder.mp he)
  unfold apply
  rw [← withDefinition]
  cases hord : ordered (s.withDefinition definition) with
  | error f =>
    refine iff_of_false (by simp) fun h => ?_
    rw [ordered_eq_ok_iff.mpr ⟨h.1, rfl⟩] at hord
    cases hord
  | ok edits =>
    obtain ⟨hover, rfl⟩ := ordered_eq_ok_iff.mp hord
    dsimp only
    rw [← hend]
    cases hfind : (inOrder (s.withDefinition definition)).find?
        fun e => decide (source.length < e.stop) with
    | none => simp [hover, eq_comm]
    | some e => simp

theorem valid_withDefinition {s : EditSet} (hvalid : ∀ e ∈ s.edits, e.Valid)
    (definition : Option Insertion) : ∀ e ∈ s.withDefinition definition, e.Valid := by
  intro e he
  rcases mem_append.mp he with he | he
  · cases definition with
    | none => cases he
    | some d =>
      rw [Option.map_some, Option.toList_some, mem_singleton] at he
      rw [he]
      exact Nat.le_refl _
  · exact hvalid e he

theorem apply_applicable (s : EditSet) (hvalid : ∀ e ∈ s.edits, e.Valid)
    (h : s.apply source definition = .ok text) :
    Applicable source 0 (inOrder (s.withDefinition definition)) ∧
      text = splice source (inOrder (s.withDefinition definition)) := by
  obtain ⟨hover, hstop, htext⟩ := apply_eq_ok_iff.mp h
  have hvalid := valid_withDefinition hvalid definition
  refine ⟨applicable_inOrder hvalid hstop ?_, htext⟩
  exact (firstOverlap_inOrder_eq_none hvalid).mp hover

theorem ordered_of_applicable (h : Applicable source 0 (inOrder edits)) :
    ordered edits = .ok (inOrder edits) :=
  ordered_eq_ok_iff.mpr ⟨(firstOverlap_eq_none_iff _).mpr h.clear.isChain, rfl⟩

theorem apply_of_applicable
    (h : Applicable source 0 (inOrder (s.withDefinition definition))) :
    s.apply source definition =
      .ok (splice source (inOrder (s.withDefinition definition))) :=
  apply_eq_ok_iff.mpr ⟨(firstOverlap_eq_none_iff _).mpr h.clear.isChain,
    fun e he => h.stop_le e (mem_inOrder.mpr he), rfl⟩

end EditSet

namespace Edit

/-! ## Taking edits back -/

/-- Edits that take back sorted edits of a source from an offset on, where the result has got to
another offset. -/
def inverseFrom (source : Text) (pos out : Nat) : List Edit → List Edit
  | [] => []
  | e :: es =>
    let start := out + (e.start - pos)
    { e with start, stop := start + e.text.length, text := source.slice e.start e.stop } ::
      inverseFrom source e.stop (start + e.text.length) es

/-- Edits of the result that take back sorted edits of a source: what was put in is cut out, and
what was cut out is put back. -/
def inverse (source : Text) (edits : List Edit) : List Edit := inverseFrom source 0 0 edits

variable {x y : Text} {b pos out : Nat} {es edits : List Edit}

theorem slice_append_left {a : Nat} (hx : x.length = a) (hy : b - a = y.length) (z : Text) :
    slice (x ++ (y ++ z)) a b = y := by
  rw [slice, drop_take, ← hx, drop_left', hx, hy, take_left']
  · rfl
  · rfl

theorem spliceFrom_skip {q : Nat} (hpos : pos ≤ q) (h : ∀ e ∈ es, q ≤ e.start) :
    spliceFrom source pos es = source.slice pos q ++ spliceFrom source q es := by
  cases es with
  | nil => rw [spliceFrom, spliceFrom, slice_append_drop hpos]
  | cons e es =>
    have he := h e (by simp)
    rw [spliceFrom, spliceFrom, ← append_assoc, ← append_assoc, slice_append hpos he]

/-- Where some of the edits are taken back, what has been copied of the result so far ends ahead of
a text that is still to be copied. -/
theorem spliceFrom_inverseFrom_filter (p : Origin → Bool) (h : Applicable source pos es) :
    spliceFrom (x ++ (y ++ spliceFrom source pos es)) x.length
        ((inverseFrom source pos (x ++ y).length es).filter fun i => p i.origin) =
      y ++ spliceFrom source pos (es.filter fun e => !p e.origin) := by
  induction es generalizing pos x y with
  | nil => rw [inverseFrom, filter_nil, filter_nil, spliceFrom, drop_left, spliceFrom]
  | cons e es ih =>
    have hvalid : e.start ≤ e.stop := h.valid e (by simp)
    have hstop := h.stop_le e (by simp)
    have hge := h.start_ge e (by simp)
    have hlen : (source.slice pos e.start).length = e.start - pos := by
      rw [length_slice]
      omega
    rw [inverseFrom, spliceFrom]
    cases hp : p e.origin with
    | true =>
      -- the edit is taken back: its text is skipped, and its range is put in again
      rw [filter_cons_of_pos (by simp [hp]), filter_cons_of_neg (by simp [hp]), spliceFrom]
      dsimp only
      have hdone : (x ++ (y ++ source.slice pos e.start) ++ e.text).length =
          (x ++ y).length + (e.start - pos) + e.text.length := by
        simp only [length_append, hlen]
        omega
      have hcopied : slice (x ++ (y ++ (source.slice pos e.start ++ e.text ++
          spliceFrom source e.stop es))) x.length ((x ++ y).length + (e.start - pos)) =
          y ++ source.slice pos e.start := by
        have hsplit := slice_append_left (x := x) (y := y ++ source.slice pos e.start) rfl
          (b := (x ++ y).length + (e.start - pos))
          (by simp only [length_append, hlen]; omega)
          (e.text ++ spliceFrom source e.stop es)
        simpa only [append_assoc] using hsplit
      have hrest := ih h.tail (x := x ++ (y ++ source.slice pos e.start) ++ e.text) (y := [])
      rw [append_nil, hdone, nil_append, nil_append] at hrest
      rw [hcopied]
      simp only [append_assoc] at hrest ⊢
      rw [hrest, spliceFrom_skip (Nat.le_trans hge hvalid), ← slice_append hge hvalid,
        append_assoc]
      intro f hf
      exact h.tail.start_ge f (mem_filter.mp hf).1
    | false =>
      -- the edit stays: its text is part of what is still to be copied
      rw [filter_cons_of_neg (by simp [hp]), filter_cons_of_pos (by simp [hp]), spliceFrom]
      have hrest := ih h.tail (x := x) (y := y ++ source.slice pos e.start ++ e.text)
      have hdone : (x ++ (y ++ source.slice pos e.start ++ e.text)).length =
          (x ++ y).length + (e.start - pos) + e.text.length := by
        simp only [length_append, hlen]
        omega
      rw [hdone] at hrest
      simpa only [append_assoc] using hrest

/-- **Some of the edits can be taken back**, and the others stay as if they had been the only ones.
-/
theorem splice_inverse_filter (p : Origin → Bool) (h : Applicable source 0 edits) :
    splice (splice source edits) ((inverse source edits).filter fun i => p i.origin) =
      splice source (edits.filter fun e => !p e.origin) :=
  spliceFrom_inverseFrom_filter p (x := []) (y := []) h

theorem splice_inverse (h : Applicable source 0 edits) :
    splice (splice source edits) (inverse source edits) = source := by
  have hall := splice_inverse_filter (fun _ => true) h
  simpa [splice, spliceFrom] using hall

/-! ## Where edits end up -/

theorem inverseFrom_spec {done : Text} (h : Applicable source pos es) (hout : done.length = out) :
    Forall₂ (fun e i => i.origin = e.origin ∧ i.text = source.slice e.start e.stop ∧
        (done ++ spliceFrom source pos es).slice i.start i.stop = e.text)
      es (inverseFrom source pos out es) := by
  induction es generalizing pos out done with
  | nil => exact .nil
  | cons e es ih =>
    have hge := h.start_ge e (by simp)
    have hstop := h.stop_le e (by simp)
    have hvalid : e.start ≤ e.stop := h.valid e (by simp)
    have hlen : (done ++ source.slice pos e.start).length = out + (e.start - pos) := by
      rw [length_append, length_slice, hout]
      omega
    rw [inverseFrom, spliceFrom]
    refine .cons ⟨rfl, rfl, ?_⟩ ?_
    · dsimp only
      rw [append_assoc (source.slice pos e.start), ← append_assoc done,
        slice_append_left hlen (by omega)]
    · -- what is spliced so far is what is done for the rest
      have hrest := ih h.tail (show (done ++ source.slice pos e.start ++ e.text).length =
        out + (e.start - pos) + e.text.length by rw [length_append, hlen])
      simpa only [append_assoc] using hrest

/-- **What an inverse is**: it takes out what its edit put in, where that stands in the result, and
puts back what its edit took out. -/
theorem inverse_spec (h : Applicable source 0 edits) :
    Forall₂ (fun e i => i.origin = e.origin ∧ i.text = source.slice e.start e.stop ∧
        (splice source edits).slice i.start i.stop = e.text)
      edits (inverse source edits) := by
  exact inverseFrom_spec h (length_nil (α := UInt16))

/-- **What edits put in** stands in the result where their inverses take it out. -/
theorem spelled_inverse (h : Applicable source 0 edits) :
    Forall₂ (fun e i => i.origin = e.origin ∧
        (splice source edits).slice i.start i.stop = e.text)
      edits (inverse source edits) :=
  (inverse_spec h).imp fun _ _ hpair => ⟨hpair.1, hpair.2.2⟩

theorem inverseFrom_start_ge (h : ∀ e ∈ es, b ≤ e.start) :
    ∀ i ∈ inverseFrom source pos out es, out + (b - pos) ≤ i.start := by
  induction es generalizing pos out b with
  | nil => intro i hi; cases hi
  | cons e es ih =>
    have he := h e (by simp)
    intro i hi
    rw [inverseFrom] at hi
    rcases mem_cons.mp hi with rfl | hi
    · dsimp only
      omega
    · have := ih (b := 0) (fun _ _ => Nat.zero_le _) i hi
      omega

theorem take_splice (h : ∀ e ∈ es, b ≤ e.start) (hlen : b ≤ source.length) :
    (splice source es).take b = source.take b := by
  cases es with
  | nil => rfl
  | cons e es =>
    have he := h e (by simp)
    rw [splice, spliceFrom, slice, drop_zero, append_assoc, take_append,
      take_take, length_take, show b - min e.start source.length = 0 by omega,
      take_zero, append_nil, Nat.min_eq_left he]

theorem place_insertion {e : Edit} (hins : e.isInsertion = true) (h : ∀ f ∈ es, e.start ≤ f.start) :
    place e es = e :: es := by
  refine place_eq_cons fun f hf => ?_
  have hle := h f hf
  rw [precedes, hins]
  simp only [Bool.not_true, Bool.and_false, Bool.or_false, decide_eq_false_iff_not]
  omega

end Edit

end Posonly
