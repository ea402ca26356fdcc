import Posonly.Proofs.Edit.Assembly

/-!
# Edits offset by offset

What a set of edits does to a source can be said of the changes that were asked for, without a word
about sorting: whether two of them clash (`Change.Clashing`), whether one reaches past the end, and
else what each offset contributes (`Change.rewrite`). Sorting and applying give just that
(`EditSet.apply_pointwise`).

The order in which changes are taken in matters only for insertions at one offset: if these keep
their order, the sorted edits are the same (`map_change_inOrder_of_perm`).
-/

open List Posonly.Edit

namespace Posonly

namespace Change

/-- Two changes clash: there is an offset that both replace, or one puts text strictly inside what
the other replaces. -/
def Clashes (c d : Change) : Prop :=
  (∃ p, c.start ≤ p ∧ p < c.stop ∧ d.start ≤ p ∧ p < d.stop) ∨
    (c.start = c.stop ∧ d.start < c.start ∧ c.start < d.stop) ∨
    (d.start = d.stop ∧ c.start < d.start ∧ d.start < c.stop)

/-- Two of some changes clash. -/
def Clashing (cs : List Change) : Prop :=
  ∃ (i j : Nat) (c d : Change), i < j ∧ cs[i]? = some c ∧ cs[j]? = some d ∧ c.Clashes d

/-- Whether a change puts text in at an offset and takes nothing out. -/
def insertsAt (i : Nat) (c : Change) : Bool := c.start == i && c.stop == i

/-- Whether a change replaces a range that starts at an offset. -/
def replacesFrom (i : Nat) (c : Change) : Bool := c.start == i && decide (c.start < c.stop)

/-- Whether a change replaces the unit at an offset. -/
def covers (i : Nat) (c : Change) : Bool := decide (c.start ≤ i) && decide (i < c.stop)

/-- What an offset contributes to the result of some changes: what is put in there, in the order of
the changes, then the text for the range that starts there, or else its own unit unless a range
covers it. -/
def pieceAt (source : Text) (cs : List Change) (i : Nat) : Text :=
  (cs.filter (insertsAt i)).flatMap (·.text) ++ match cs.find? (replacesFrom i) with
    | some c => c.text
    | none => if cs.any (covers i) then [] else (source[i]?).toList

/-- The result of some changes: what each offset contributes, up to the end of the source and with
it. The definition of the decorator goes ahead of all else at its offset. -/
def rewrite (source : Text) (definition : Option Insertion) (cs : List Change) : Text :=
  (List.range (source.length + 1)).flatMap fun i =>
    EditSet.definitionAt definition i ++ pieceAt source cs i

/-- An insertion of the definition of the decorator as a change. -/
def ofInsertion (d : Insertion) : Change := ⟨d.offset, d.offset, d.text, .definition⟩

/-- The changes, and the definition of the decorator ahead of them. -/
def withDefinition (cs : List Change) (definition : Option Insertion) : List Change :=
  (definition.map ofInsertion).toList ++ cs

theorem clashes_iff {c d : Change} (hc : c.start ≤ c.stop) (hd : d.start ≤ d.stop) :
    c.Clashes d ↔ ¬ (c.stop ≤ d.start ∨ d.stop ≤ c.start) := by
  constructor
  · rintro (⟨p, h1, h2, h3, h4⟩ | ⟨h1, h2, h3⟩ | ⟨h1, h2, h3⟩) <;> omega
  · intro h
    by_cases hce : c.start = c.stop
    · exact .inr (.inl ⟨hce, by omega, by omega⟩)
    by_cases hde : d.start = d.stop
    · exact .inr (.inr ⟨hde, by omega, by omega⟩)
    -- both replace something, and the later of their starts lies in both
    · exact .inl ⟨max c.start d.start, by omega, by omega, by omega, by omega⟩

theorem clashing_iff (cs : List Change) : Clashing cs ↔ ¬ cs.Pairwise fun c d => ¬ c.Clashes d := by
  rw [pairwise_iff_getElem]
  constructor
  · rintro ⟨i, j, c, d, hij, hi, hj, hclash⟩ hnone
    obtain ⟨hilt, rfl⟩ := List.getElem?_eq_some_iff.mp hi
    obtain ⟨hjlt, rfl⟩ := List.getElem?_eq_some_iff.mp hj
    exact hnone i j hilt hjlt hij hclash
  · intro h
    by_contra hnone
    refine h fun i j hi hj hij hclash => hnone ?_
    exact ⟨i, j, _, _, hij, getElem?_eq_getElem hi, getElem?_eq_getElem hj, hclash⟩

theorem Clashes.symm {c d : Change} (h : c.Clashes d) : d.Clashes c := by
  rcases h with ⟨p, h1, h2, h3, h4⟩ | h | h
  · exact .inl ⟨p, h3, h4, h1, h2⟩
  · exact .inr (.inr h)
  · exact .inr (.inl h)

theorem clashing_perm {cs ds : List Change} (h : cs.Perm ds) : Clashing cs ↔ Clashing ds := by
  rw [clashing_iff, clashing_iff, h.pairwise_iff fun hno hclash => hno hclash.symm]

end Change

namespace Edit

variable {source : Text}

/-! ## Clashes -/

theorem clashes_change_iff {a b : Edit} (ha : a.Valid) (hb : b.Valid) :
    a.change.Clashes b.change ↔ ¬ Apart a b := by
  unfold Valid at ha hb
  rw [Change.clashes_iff (by simp only [change]; omega) (by simp only [change]; omega), Apart]
  simp only [change]
  omega

theorem clashing_map_change_iff {edits : List Edit} (hvalid : ∀ e ∈ edits, e.Valid) :
    Change.Clashing (edits.map change) ↔ firstOverlap (inOrder edits) ≠ none := by
  rw [Change.clashing_iff, pairwise_map, ne_eq, firstOverlap_inOrder_eq_none hvalid]
  refine not_congr ⟨fun h => h.imp_of_mem ?_, fun h => h.imp_of_mem ?_⟩
  · intro a b ha hb hno
    rwa [clashes_change_iff (hvalid a ha) (hvalid b hb), not_not] at hno
  · intro a b ha hb hapart
    rwa [clashes_change_iff (hvalid a ha) (hvalid b hb), not_not]

theorem firstOverlap_clashes {l : List Edit} (hsorted : l.Pairwise RankLE)
    (hvalid : ∀ e ∈ l, e.Valid)
    {a b : Edit} (h : firstOverlap l = some (a, b)) :
    a ∈ l ∧ b ∈ l ∧ a.change.Clashes b.change := by
  induction l with
  | nil => cases h
  | cons e rest ih =>
    cases rest with
    | nil => cases h
    | cons f rest =>
      rw [firstOverlap] at h
      split at h
      · rename_i hlt
        cases h
        refine ⟨by simp, by simp,
          (clashes_change_iff (hvalid a (by simp)) (hvalid b (by simp))).mpr ?_⟩
        intro hapart
        have hle := hapart.stop_le (hvalid b (by simp)) ((pairwise_cons.mp hsorted).1 b (by simp))
        omega
      · obtain ⟨ha, hb, hclash⟩ := ih (pairwise_cons.mp hsorted).2
          (fun g hg => hvalid g (.tail _ hg)) h
        exact ⟨mem_cons_of_mem _ ha, mem_cons_of_mem _ hb, hclash⟩

/-! ## Offset by offset -/

theorem insertsAt_change (i : Nat) (e : Edit) :
    Change.insertsAt i e.change = (e.isInsertion && e.start == i) := by
  rw [Bool.eq_iff_iff]
  simp only [Change.insertsAt, change, isInsertion, Bool.and_eq_true, beq_iff_eq]
  omega

theorem replacesFrom_change (i : Nat) {e : Edit} (he : e.Valid) :
    Change.replacesFrom i e.change = (!e.isInsertion && e.start == i) := by
  unfold Valid at he
  rw [Bool.eq_iff_iff]
  simp only [Change.replacesFrom, isInsertion, Bool.and_eq_true, beq_iff_eq, decide_eq_true_eq,
    Bool.not_eq_true', beq_eq_false_iff_ne]
  simp only [change]
  omega

theorem covers_change (i : Nat) (e : Edit) : Change.covers i e.change = covers i e := by
  rw [Bool.eq_iff_iff]
  simp only [Change.covers, covers, Bool.and_eq_true, decide_eq_true_eq]
  simp only [change]
  omega

theorem filter_replacing {edits : List Edit} (hvalid : ∀ e ∈ edits, e.Valid)
    (hapart : edits.Pairwise Apart) (i : Nat) :
    (edits.filter fun e => !e.isInsertion && e.start == i) =
      (edits.find? fun e => !e.isInsertion && e.start == i).toList := by
  induction edits with
  | nil => rfl
  | cons e rest ih =>
    obtain ⟨he, hrest⟩ := pairwise_cons.mp hapart
    have ih := ih (fun f hf => hvalid f (.tail _ hf)) hrest
    cases hp : !e.isInsertion && e.start == i with
    | false => rw [filter_cons_of_neg (by simp [hp]), find?_cons_of_neg (by simp [hp]), ih]
    | true =>
      rw [filter_cons_of_pos (by simp [hp]), find?_cons_of_pos (by simp [hp]), Option.toList_some]
      refine congrArg (e :: ·) (filter_eq_nil_iff.mpr fun f hf hpf => ?_)
      -- another one would start where this one does
      have hef := he f hf
      have hvf := hvalid f (.tail _ hf)
      have hve := hvalid e (by simp)
      simp only [Valid, Apart, isInsertion, Bool.and_eq_true, beq_iff_eq, Bool.not_eq_true',
        beq_eq_false_iff_ne] at hp hpf hef hvf hve
      omega

theorem pieceAt_map_change {edits : List Edit} (hvalid : ∀ e ∈ edits, e.Valid)
    (hapart : edits.Pairwise Apart) (i : Nat) :
    pieceAt source edits i = Change.pieceAt source (edits.map change) i := by
  have hins : ((edits.map change).filter (Change.insertsAt i)).flatMap (·.text) =
      texts (edits.filter fun e => e.isInsertion && e.start == i) := by
    rw [filter_map, flatMap_map]
    exact congrArg texts (filter_congr fun e _ => insertsAt_change i e)
  have hfind : (edits.map change).find? (Change.replacesFrom i) =
      (edits.find? fun e => !e.isInsertion && e.start == i).map change := by
    rw [find?_map]
    refine congrArg (Option.map change) ?_
    rw [← head?_filter, ← head?_filter]
    exact congrArg List.head? (filter_congr fun e he => replacesFrom_change i (hvalid e he))
  have hcovered : (edits.map change).any (Change.covers i) = edits.any (covers i) := by
    rw [any_map]
    exact congrArg edits.any (funext fun e => covers_change i e)
  rw [pieceAt, Change.pieceAt, hins, hfind, hcovered, filter_replacing hvalid hapart, append_assoc]
  refine congrArg (_ ++ ·) ?_
  cases hfirst : edits.find? fun e => !e.isInsertion && e.start == i with
  | none => rfl
  | some e =>
    -- the range that starts there covers the offset
    have hmem := mem_of_find?_eq_some hfirst
    have hpe := find?_some hfirst
    have hve := hvalid e hmem
    have hc : edits.any (covers i) = true := by
      refine any_eq_true.mpr ⟨e, hmem, ?_⟩
      simp only [Valid, isInsertion, covers, Bool.and_eq_true, beq_iff_eq, Bool.not_eq_true',
        beq_eq_false_iff_ne, decide_eq_true_eq] at hpe hve ⊢
      omega
    rw [hc, Option.toList_some, texts, flatMap_singleton, Option.map_some]
    exact append_nil _

end Edit

/-! ## The order in which changes are taken in -/

namespace Change

/-- The place of a change in the order of application. -/
def rank (c : Change) : Nat := 2 * c.start.toNat + if c.start.toNat == c.stop.toNat then 0 else 1

theorem mem_iff_of_filter_rank {cs ds : List Change}
    (h : ∀ n, (cs.filter fun c => c.rank == n) = ds.filter fun c => c.rank == n) (c : Change) :
    c ∈ cs ↔ c ∈ ds := by
  have hc := congrArg (c ∈ ·) (h c.rank)
  simpa using hc

/-- Changes in the order of their ranks are known by those of each rank. -/
theorem eq_of_filter_rank {cs ds : List Change} (hcs : cs.Pairwise fun c d => c.rank ≤ d.rank)
    (hds : ds.Pairwise fun c d => c.rank ≤ d.rank)
    (h : ∀ n, (cs.filter fun c => c.rank == n) = ds.filter fun c => c.rank == n) : cs = ds := by
  have hmem := mem_iff_of_filter_rank h
  induction cs generalizing ds with
  | nil => exact (eq_nil_iff_forall_not_mem.mpr fun d hd => absurd ((hmem d).mpr hd) (by simp)).symm
  | cons c cs ih =>
    cases ds with
    | nil => exact absurd ((hmem c).mp (by simp)) (by simp)
    | cons d ds =>
      obtain ⟨hcle, hcs'⟩ := pairwise_cons.mp hcs
      obtain ⟨hdle, hds'⟩ := pairwise_cons.mp hds
      -- both heads are in both lists, so both are of the least rank
      have hrank : d.rank = c.rank := by
        rcases mem_cons.mp ((hmem c).mp (by simp)) with rfl | hc
        · rfl
        rcases mem_cons.mp ((hmem d).mpr (by simp)) with rfl | hd
        · rfl
        exact Nat.le_antisymm (hdle c hc) (hcle d hd)
      obtain rfl : c = d := by
        have hc := h c.rank
        rw [filter_cons_of_pos (by simp), filter_cons_of_pos (by simp [hrank])] at hc
        exact (cons.inj hc).1
      have htail : ∀ n, (cs.filter fun c => c.rank == n) = ds.filter fun c => c.rank == n := by
        intro n
        have hn := h n
        rw [filter_cons, filter_cons] at hn
        split at hn
        · exact (cons.inj hn).2
        · exact hn
      exact congrArg (c :: ·) (ih hcs' hds' htail (mem_iff_of_filter_rank htail))

end Change

namespace Edit

theorem rank_change (e : Edit) : e.change.rank = e.rank := rfl

theorem filter_rank_inOrder (edits : List Edit) (n : Nat) :
    (((inOrder edits).map change).filter fun c => c.rank == n) =
      (edits.map change).filter fun c => c.rank == n := by
  rw [filter_map, filter_map]
  refine congrArg (map change) (filter_inOrder edits (n := n) fun e he => ?_)
  simpa [rank_change] using he

/-- **The order of arrival matters only among insertions at one offset.** -/
theorem map_change_inOrder_of_perm {es fs : List Edit} (hvalid : ∀ e ∈ es, e.Valid)
    (hapart : es.Pairwise Apart) (hperm : (fs.map change).Perm (es.map change))
    (hsame : ∀ i : Nat, (fs.map change).filter (Change.insertsAt i) =
      (es.map change).filter (Change.insertsAt i)) :
    (inOrder fs).map change = (inOrder es).map change := by
  refine Change.eq_of_filter_rank (pairwise_map.mpr (inOrder_pairwise fs))
    (pairwise_map.mpr (inOrder_pairwise es)) fun n => ?_
  rw [filter_rank_inOrder, filter_rank_inOrder]
  obtain ⟨i, rfl | rfl⟩ : ∃ i, n = 2 * i ∨ n = 2 * i + 1 := ⟨n / 2, by omega⟩
  · have heven : ∀ l : List Edit, ((l.map change).filter fun c => c.rank == 2 * i) =
        (l.map change).filter (Change.insertsAt i) := by
      intro l
      rw [filter_map, filter_map]
      refine congrArg (map change) (filter_congr fun e _ => ?_)
      rw [Bool.eq_iff_iff, Function.comp_apply, Function.comp_apply, beq_iff_eq,
        rank_change, insertsAt_change, rank_even_iff]
    rw [heven, heven, hsame]
  · -- at most one edit replaces a range that starts there
    have hone : ((es.map change).filter fun c => c.rank == 2 * i + 1) =
        ((es.find? fun e => !e.isInsertion && e.start == i).map change).toList := by
      rw [Option.toList_map, ← filter_replacing hvalid hapart, filter_map]
      refine congrArg (map change) (filter_congr fun e _ => ?_)
      rw [Bool.eq_iff_iff, Function.comp_apply, beq_iff_eq, rank_change, rank_odd_iff]
    have hsub := hperm.filter fun c => c.rank == 2 * i + 1
    rw [hone] at hsub ⊢
    cases hfirst : es.find? fun e => !e.isInsertion && e.start == i with
    | none =>
      rw [hfirst] at hsub
      exact hsub.eq_nil
    | some e =>
      rw [hfirst] at hsub
      exact perm_singleton.mp hsub

end Edit

/-! ## Sets of edits -/

/-- What a fault says, whichever edits it names. -/
inductive EditVerdict where
  | invalidRange
  | overlapping
  | pastEnd (stop : Nat)
deriving DecidableEq, Repr

def EditFault.verdict : EditFault → EditVerdict
  | .invalidRange .. => .invalidRange
  | .overlap .. => .overlapping
  | .pastEnd stop => .pastEnd stop

namespace EditSet

theorem map_change_withDefinition (s : EditSet) (definition : Option Insertion) :
    (s.withDefinition definition).map change =
      Change.withDefinition (s.edits.map change) definition := by
  rw [withDefinition, map_append, Change.withDefinition]
  cases definition <;> rfl

/-- **Edits can be put in order exactly if no two changes clash**; else two that do are named. -/
theorem ordered_cases {edits : List Edit} (hvalid : ∀ e ∈ edits, e.Valid) :
    (Change.Clashing (edits.map change) ∧ ∃ a b, ordered edits = .error (.overlap a b) ∧
        a ∈ edits ∧ b ∈ edits ∧ a.change.Clashes b.change) ∨
      (¬ Change.Clashing (edits.map change) ∧ edits.Pairwise Apart ∧
        ordered edits = .ok (inOrder edits)) := by
  rw [clashing_map_change_iff hvalid]
  cases hfirst : firstOverlap (inOrder edits) with
  | none =>
    exact .inr ⟨by simp, (firstOverlap_inOrder_eq_none hvalid).mp hfirst,
      ordered_eq_ok_iff.mpr ⟨hfirst, rfl⟩⟩
  | some pair =>
    obtain ⟨a, b⟩ := pair
    obtain ⟨ha, hb, hclash⟩ := firstOverlap_clashes (inOrder_pairwise edits)
      (fun e he => hvalid e (mem_inOrder.mp he)) hfirst
    refine .inl ⟨by simp, a, b, ?_, mem_inOrder.mp ha, mem_inOrder.mp hb, hclash⟩
    unfold ordered
    dsimp only
    rw [hfirst]

section

variable {s : EditSet} (hvalid : ∀ e ∈ s.edits, e.Valid) (source : Text)
  (definition : Option Insertion)

include hvalid

/-- **What comes of applying edits**: two clash, or one reaches past the end, or each offset
contributes its piece. -/
theorem apply_cases : (Change.Clashing ((s.withDefinition definition).map change) ∧
        ∃ a b, s.apply source definition = .error (.overlap a b) ∧ a.change.Clashes b.change) ∨
      (¬ Change.Clashing ((s.withDefinition definition).map change) ∧
        ∃ e ∈ s.withDefinition definition, source.length < e.stop ∧
          s.apply source definition = .error (.pastEnd e.stop)) ∨
      (¬ Change.Clashing ((s.withDefinition definition).map change) ∧
        (∀ e ∈ s.withDefinition definition, e.stop ≤ source.length) ∧ s.apply source definition =
            .ok (Change.rewrite source definition (s.edits.map change))) := by
  have hvalid' := valid_withDefinition hvalid definition
  rcases ordered_cases hvalid' with
    ⟨hclash, a, b, hordered, _, _, hab⟩ | ⟨hclear, hapart, hordered⟩
  · refine .inl ⟨hclash, a, b, ?_, hab⟩
    unfold apply
    rw [← withDefinition, hordered]
  · -- no two clash: the edits are in order, and one may still reach past the end
    cases hfind : (inOrder (s.withDefinition definition)).find?
        fun e => decide (source.length < e.stop) with
    | some e =>
      have hpast := find?_some hfind
      rw [decide_eq_true_eq] at hpast
      refine .inr (.inl ⟨hclear, e, mem_inOrder.mp (mem_of_find?_eq_some hfind), hpast, ?_⟩)
      unfold apply
      rw [← withDefinition, hordered]
      dsimp only
      rw [hfind]
    | none =>
      have hstop : ∀ e ∈ s.withDefinition definition, e.stop ≤ source.length := by
        intro e he
        have hnot := find?_eq_none.mp hfind e (mem_inOrder.mpr he)
        simpa using hnot
      have happlicable := applicable_inOrder hvalid' hstop hapart
      refine .inr (.inr ⟨hclear, hstop, ?_⟩)
      rw [apply_of_applicable happlicable, splice_inOrder happlicable, Change.rewrite]
      refine congrArg Except.ok (flatMap_congr fun i _ => ?_)
      have happart : s.edits.Pairwise Apart := hapart.sublist (sublist_append_right ..)
      rw [pieceAt_withDefinition, pieceAt_map_change hvalid happart]

end

theorem apply_congr {s t : EditSet} {source : Text} {definition : Option Insertion}
    (hs : firstOverlap (inOrder (s.withDefinition definition)) = none)
    (ht : firstOverlap (inOrder (t.withDefinition definition)) = none)
    (h : (inOrder (t.withDefinition definition)).map change =
      (inOrder (s.withDefinition definition)).map change) :
    (t.apply source definition).mapError EditFault.verdict =
      (s.apply source definition).mapError EditFault.verdict := by
  -- whether an edit reaches past the end can be told from its change
  have hfind : ∀ l : List Edit, (l.find? fun e => decide (source.length < e.stop)).map change =
      (l.map change).find? fun c => decide (source.length < c.stop.toNat) := by
    intro l
    rw [find?_map]
    rfl
  have hboth := (hfind (inOrder (t.withDefinition definition))).trans
    ((congrArg _ h).trans (hfind (inOrder (s.withDefinition definition))).symm)
  unfold apply
  rw [← withDefinition, ← withDefinition, ordered_eq_ok_iff.mpr ⟨hs, rfl⟩,
    ordered_eq_ok_iff.mpr ⟨ht, rfl⟩]
  dsimp only
  cases hfs : (inOrder (s.withDefinition definition)).find?
      fun e => decide (source.length < e.stop) with
  | none =>
    rw [hfs, Option.map_none, Option.map_eq_none_iff] at hboth
    rw [hboth]
    exact congrArg (fun text => (Except.ok text).mapError _) (spliceFrom_congr h)
  | some e =>
    rw [hfs, Option.map_some] at hboth
    obtain ⟨f, hft, hchange⟩ := Option.map_eq_some_iff.mp hboth
    rw [hft]
    exact congrArg (fun stop => Except.error (EditVerdict.pastEnd stop))
      (change_inj hchange).2.1

theorem addAll_good {cs : List Change} (hcs : ∀ c ∈ cs, 0 ≤ c.start ∧ c.start ≤ c.stop) :
    ∃ s : EditSet, ({} : EditSet).addAll cs = (s, none) ∧ s.edits.map change = cs ∧
      ∀ e ∈ s.edits, e.Valid := by
  rcases ({} : EditSet).addAll_cases cs with ⟨es, hadd, hchange, hvalid⟩ | ⟨_, c, hc, hbad⟩
  · exact ⟨⟨es⟩, hadd, hchange, hvalid⟩
  · exact absurd (hcs c hc) hbad

section

variable {s t : EditSet} {cs ds : List Change} (hvalid : ∀ e ∈ s.edits, e.Valid)
  (hchange : s.edits.map change = cs)

include hvalid hchange

theorem sorted_spec : ((∃ a b, s.sorted = .error (.overlap a b)) ↔ Change.Clashing cs) ∧
    (¬ Change.Clashing cs → ∃ es, s.sorted = .ok es) := by
  rcases ordered_cases hvalid with ⟨hclash, a, b, hordered, _⟩ | ⟨hclear, _, hordered⟩
  · rw [hchange] at hclash
    exact ⟨iff_of_true ⟨a, b, hordered⟩ hclash, fun hclear => absurd hclash hclear⟩
  · rw [hchange] at hclear
    refine ⟨iff_of_false ?_ hclear, fun _ => ⟨_, hordered⟩⟩
    rintro ⟨a, b, herror⟩
    cases hordered.symm.trans herror

/-- **Applying reports a clash, or else an edit past the end, or else rewrites the source.** -/
theorem apply_spec (source : Text) (definition : Option Insertion) :
    ((∃ a b, s.apply source definition = .error (.overlap a b)) ↔
      Change.Clashing (Change.withDefinition cs definition)) ∧
    (∀ a b, s.apply source definition = .error (.overlap a b) → a.change.Clashes b.change) ∧
    (¬ Change.Clashing (Change.withDefinition cs definition) →
      ((∃ stop, s.apply source definition = .error (.pastEnd stop)) ↔
        ∃ c ∈ Change.withDefinition cs definition, source.length < c.stop) ∧
      ((∀ c ∈ Change.withDefinition cs definition, c.stop ≤ source.length) →
        s.apply source definition = .ok (Change.rewrite source definition cs))) := by
  have hcases := apply_cases hvalid source definition
  have hmap := s.map_change_withDefinition definition
  rw [hchange] at hcases hmap
  rw [hmap] at hcases
  rcases hcases with
    ⟨hclash, a, b, happly, hab⟩ | ⟨hclear, e, he, hpast, happly⟩ | ⟨hclear, hin, happly⟩
  · -- two clash
    refine ⟨iff_of_true ⟨a, b, happly⟩ hclash, fun a' b' happly' => ?_,
      fun hclear => absurd hclash hclear⟩
    cases happly.symm.trans happly'
    exact hab
  · -- one reaches past the end
    have hexists : ∃ c ∈ Change.withDefinition cs definition, (source.length : Int) < c.stop :=
      ⟨e.change, hmap ▸ mem_map_of_mem he, Int.ofNat_lt.mpr hpast⟩
    rw [happly]
    refine ⟨iff_of_false (by simp) hclear, by simp,
      fun _ => ⟨iff_of_true ⟨_, rfl⟩ hexists, fun hin => ?_⟩⟩
    obtain ⟨c, hc, hlt⟩ := hexists
    exact absurd (hin c hc) (Int.not_le.mpr hlt)
  · -- all of them fit
    have hnone : ¬ ∃ c ∈ Change.withDefinition cs definition, (source.length : Int) < c.stop := by
      rintro ⟨c, hc, hlt⟩
      rw [← hmap] at hc
      obtain ⟨e, he, rfl⟩ := mem_map.mp hc
      exact absurd (hin e he) (Nat.not_le.mpr (Int.ofNat_lt.mp hlt))
    rw [happly]
    exact ⟨iff_of_false (by simp) hclear, by simp,
      fun _ => ⟨iff_of_false (by simp) hnone, fun _ => rfl⟩⟩

variable (hvalid' : ∀ e ∈ t.edits, e.Valid) (hchange' : t.edits.map change = ds)
  (hperm : ds.Perm cs)
  (hsame : ∀ i : Nat, ds.filter (Change.insertsAt i) = cs.filter (Change.insertsAt i))

include hvalid' hchange' hperm hsame

theorem sorted_perm : (t.sorted.map (·.map change)).mapError EditFault.verdict =
    (s.sorted.map (·.map change)).mapError EditFault.verdict := by
  subst hchange hchange'
  have hclash := Change.clashing_perm hperm
  rw [sorted, sorted]
  rcases ordered_cases hvalid with ⟨hcs, a, b, hordered, _⟩ | ⟨hcs, hapart, hordered⟩
  · rcases ordered_cases hvalid' with ⟨_, a', b', hordered', _⟩ | ⟨hds, _⟩
    · rw [hordered, hordered']
      rfl
    · exact absurd (hclash.mpr hcs) hds
  · rcases ordered_cases hvalid' with ⟨hds, _⟩ | ⟨_, _, hordered'⟩
    · exact absurd (hclash.mp hds) hcs
    · rw [hordered, hordered']
      exact congrArg (fun l => (Except.ok l).mapError EditFault.verdict)
        (map_change_inOrder_of_perm hvalid hapart hperm hsame)

theorem apply_perm (source : Text) (definition : Option Insertion) :
    (t.apply source definition).mapError EditFault.verdict =
      (s.apply source definition).mapError EditFault.verdict := by
  have hmap := s.map_change_withDefinition definition
  have hmap' := t.map_change_withDefinition definition
  rw [hchange] at hmap
  rw [hchange'] at hmap'
  have hperm' : ((t.withDefinition definition).map change).Perm
      ((s.withDefinition definition).map change) := by
    rw [hmap, hmap']
    exact hperm.append_left _
  have hsame' :
      ∀ i : Nat, ((t.withDefinition definition).map change).filter (Change.insertsAt i) =
      ((s.withDefinition definition).map change).filter (Change.insertsAt i) := by
    intro i
    rw [hmap, hmap', Change.withDefinition, Change.withDefinition, filter_append, filter_append,
      hsame i]
  have hs := valid_withDefinition hvalid definition
  have ht := valid_withDefinition hvalid' definition
  have hclash := Change.clashing_perm hperm'
  by_cases hcs : Change.Clashing ((s.withDefinition definition).map change)
  · -- both sets report an overlap, if not of the same two edits
    have hds := hclash.mpr hcs
    rw [hmap] at hcs
    rw [hmap'] at hds
    obtain ⟨a, b, happly⟩ := (apply_spec hvalid hchange source definition).1.mpr hcs
    obtain ⟨a', b', happly'⟩ := (apply_spec hvalid' hchange' source definition).1.mpr hds
    rw [happly, happly']
    rfl
  · have hds := mt hclash.mp hcs
    rw [clashing_map_change_iff hs, not_not] at hcs
    rw [clashing_map_change_iff ht, not_not] at hds
    have hapart := (firstOverlap_inOrder_eq_none hs).mp hcs
    exact apply_congr hcs hds (map_change_inOrder_of_perm hs hapart hperm' hsame')

end

/-- **Edits act offset by offset.** Let changes with good ranges be taken in, in any order. Sorting
and applying report an overlap exactly if two of them clash, the definition of the decorator counted
as an insertion by the latter; and the two edits that are named do clash. Applying reports further
an edit past the end exactly if there is one. Else the result is what each offset of the source
contributes, up to its end and with it.

So the order in which the changes are taken in matters only among insertions at one offset: where
these keep their order, the sorted edits, the text and the verdicts are the same. -/
theorem apply_pointwise (cs : List Change) (hcs : ∀ c ∈ cs, 0 ≤ c.start ∧ c.start ≤ c.stop) :
    ∃ s : EditSet, ({} : EditSet).addAll cs = (s, none) ∧
      ((∃ a b, s.sorted = .error (.overlap a b)) ↔ Change.Clashing cs) ∧
      (¬ Change.Clashing cs → ∃ es, s.sorted = .ok es) ∧
      (∀ source definition,
        ((∃ a b, s.apply source definition = .error (.overlap a b)) ↔
          Change.Clashing (Change.withDefinition cs definition)) ∧
        (∀ a b, s.apply source definition = .error (.overlap a b) → a.change.Clashes b.change) ∧
        (¬ Change.Clashing (Change.withDefinition cs definition) →
          ((∃ stop, s.apply source definition = .error (.pastEnd stop)) ↔
            ∃ c ∈ Change.withDefinition cs definition, source.length < c.stop) ∧
          ((∀ c ∈ Change.withDefinition cs definition, c.stop ≤ source.length) →
            s.apply source definition = .ok (Change.rewrite source definition cs)))) ∧
      ∀ ds : List Change, ds.Perm cs →
        (∀ i : Nat, ds.filter (Change.insertsAt i) = cs.filter (Change.insertsAt i)) →
        ∃ t : EditSet, ({} : EditSet).addAll ds = (t, none) ∧
          (t.sorted.map (·.map change)).mapError EditFault.verdict =
            (s.sorted.map (·.map change)).mapError EditFault.verdict ∧
          ∀ source definition, (t.apply source definition).mapError EditFault.verdict =
            (s.apply source definition).mapError EditFault.verdict := by
  obtain ⟨s, hadd, hchange, hvalid⟩ := addAll_good hcs
  obtain ⟨hover, hsorted⟩ := sorted_spec hvalid hchange
  refine ⟨s, hadd, hover, hsorted, apply_spec hvalid hchange, fun ds hperm hsame => ?_⟩
  obtain ⟨t, hadd', hchange', hvalid'⟩ := addAll_good fun d hd => hcs d (hperm.mem_iff.mp hd)
  exact ⟨t, hadd', sorted_perm hvalid hchange hvalid' hchange' hperm hsame,
    apply_perm hvalid hchange hvalid' hchange' hperm hsame⟩

/-- A range with insertions at both of its borders, two of them at its start. -/
def borderChanges : List Change :=
  [⟨4, 4, "Z", .wrapClose⟩, ⟨2, 4, "R", .marker⟩, ⟨2, 2, "X", .wrapOpen⟩, ⟨2, 2, "Y", .wrapOpen⟩]

/-- The same with the range and the insertion behind it taken in last. -/
def borderChangesLate : List Change :=
  [⟨2, 2, "X", .wrapOpen⟩, ⟨2, 2, "Y", .wrapOpen⟩, ⟨4, 4, "Z", .wrapClose⟩, ⟨2, 4, "R", .marker⟩]

theorem apply_pointwise_borders :
    (∀ c ∈ borderChanges, 0 ≤ c.start ∧ c.start ≤ c.stop) ∧ borderChangesLate.Perm borderChanges ∧
    (∀ i : Nat, borderChangesLate.filter (Change.insertsAt i) =
      borderChanges.filter (Change.insertsAt i)) ∧
    Change.rewrite "abcdef" (some ⟨2, "D"⟩) borderChanges = "abDXYRZef" ∧
    ∃ s t : EditSet, ({} : EditSet).addAll borderChanges = (s, none) ∧
      ({} : EditSet).addAll borderChangesLate = (t, none) ∧
      s.apply "abcdef" (some ⟨2, "D"⟩) = .ok "abDXYRZef" ∧
      (t.apply "abcdef" (some ⟨2, "D"⟩)).mapError EditFault.verdict = .ok "abDXYRZef" ∧
      ∃ a b, s.apply "abcdef" (some ⟨3, "D"⟩) = .error (.overlap a b) := by
  have hgood : ∀ c ∈ borderChanges, 0 ≤ c.start ∧ c.start ≤ c.stop := by decide
  have hperm : borderChangesLate.Perm borderChanges := by decide
  have hsame : ∀ i : Nat, borderChangesLate.filter (Change.insertsAt i) =
      borderChanges.filter (Change.insertsAt i) := by
    have hstart : ∀ c ∈ borderChanges, c.start = 2 ∨ c.start = 4 := by decide
    intro i
    by_cases h2 : i = 2
    · subst h2; rfl
    by_cases h4 : i = 4
    · subst h4; rfl
    have hnone : ∀ c ∈ borderChanges, ¬ Change.insertsAt i c = true := by
      intro c hc hat
      rw [Change.insertsAt, Bool.and_eq_true, beq_iff_eq, beq_iff_eq] at hat
      have := hstart c hc
      omega
    rw [filter_eq_nil_iff.mpr hnone,
      filter_eq_nil_iff.mpr fun c hc => hnone c (hperm.mem_iff.mp hc)]
  obtain ⟨s, hadd, _, _, happly, hlate⟩ := apply_pointwise borderChanges hgood
  obtain ⟨t, hadd', _, happly'⟩ := hlate borderChangesLate hperm hsame
  have hresult : s.apply "abcdef" (some ⟨2, "D"⟩) = .ok "abDXYRZef" := by
    rw [show s = (({} : EditSet).addAll borderChanges).1 by rw [hadd]]
    rfl
  obtain ⟨hover, _, hclear⟩ := happly "abcdef" (some ⟨2, "D"⟩)
  have hrewrite := (hclear fun hclash => by
    obtain ⟨a, b, herror⟩ := hover.mpr hclash
    cases hresult.symm.trans herror).2 (by decide)
  -- the definition at an offset inside the range clashes with it
  have hclash : Change.Clashing (Change.withDefinition borderChanges (some ⟨3, "D"⟩)) :=
    ⟨0, 2, _, _, by decide, rfl, rfl, .inr (.inl ⟨rfl, by decide, by decide⟩)⟩
  exact ⟨hgood, hperm, hsame, Except.ok.inj (hrewrite.symm.trans hresult),
    s, t, hadd, hadd', hresult,
    by rw [happly', hresult]; rfl, (happly "abcdef" (some ⟨3, "D"⟩)).1.mpr hclash⟩

end EditSet

end Posonly
