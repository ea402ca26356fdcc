import Posonly.Proofs.Signature.Acceptance

/-!
# The names of an extraction

The parameters ahead of the marker are named by the heads of their groups. `ListsNames` says what
their list is: one name for each group that is headed by one, in the order of the source, each apart
from the next by at least a comma, and all of them ahead of the marker.

A name is the text at its range, with one exception. A gap may start between the two halves of a
surrogate pair, and an identifier looked for there is found one unit earlier (`Spells`). Its token
then reaches one unit too far and takes in what comes behind it, such as the comma that ends the
parameter.
-/

open List

namespace Posonly.Signature

/-! ## Heads and cuts -/

section Cut

variable {α : Type} {cut : α → Bool} {l : List α} {R S : α → α → Prop}

/-- Ahead of a head that is not the first one stands an element at which the list was cut. -/
theorem exists_cut_of_mem_tail (h : l.Pairwise R) {t : α}
    (ht : t ∈ (cutAt cut l).tail.filterMap head?) : ∃ c ∈ l, cut c = true ∧ R c t := by
  induction l with
  | nil => cases ht
  | cons a rest ih =>
    obtain ⟨ha, hrest⟩ := pairwise_cons.mp h
    rw [cutAt] at ht
    split at ht
    · rename_i hcut
      exact ⟨a, mem_cons_self .., hcut, ha t ((cutAt_heads_sublist cut rest).subset ht)⟩
    · have htail : t ∈ (cutAt cut rest).tail.filterMap head? := by
        cases hc : cutAt cut rest with
        | nil => exact absurd hc (cutAt_ne_nil cut rest)
        | cons g gs => simpa [hc] using ht
      obtain ⟨c, hc, hcut, hR⟩ := ih hrest htail
      exact ⟨c, mem_cons_of_mem _ hc, hcut, hR⟩

/-- **Two heads are related by way of the cut between them.** -/
theorem cutAt_heads_pairwise (h : l.Pairwise R)
    (hS : ∀ a c t, c ∈ l → cut c = true → R a c → R c t → S a t) :
    ((cutAt cut l).filterMap head?).Pairwise S := by
  induction l with
  | nil => exact Pairwise.nil
  | cons a rest ih =>
    obtain ⟨ha, hrest⟩ := pairwise_cons.mp h
    have hpieces := ih hrest fun b c t hc => hS b c t (.tail _ hc)
    have htails : ∀ t ∈ (cutAt cut rest).tail.filterMap head?,
        ∃ c ∈ rest, cut c = true ∧ R c t := fun t ht => exists_cut_of_mem_tail hrest ht
    rw [cutAt]
    split
    · exact hpieces
    · cases hc : cutAt cut rest with
      | nil => exact absurd hc (cutAt_ne_nil cut rest)
      | cons g gs =>
        rw [hc] at hpieces htails
        refine pairwise_cons.mpr ⟨fun t ht => ?_, ?_⟩
        · obtain ⟨c, hmem, hcut, hR⟩ := htails t ht
          exact hS a c t (.tail _ hmem) hcut (ha c hmem) hR
        · exact hpieces.sublist ((sublist_cons_self g gs).filterMap _)

end Cut

variable {source : Text} {tokens : List Token} {target : Target} {scope : ScopeKind}
  {e : Extraction} {children : List Tree} {start stop : Nat}

/-- Between the heads of two groups there is a comma, so one ends before the next starts. -/
theorem Laid.heads_apart (h : Laid source tokens) :
    ((groups tokens).filterMap head?).Pairwise fun s t => s.stop < t.start := by
  refine cutAt_heads_pairwise (h.pairwise.filter _) fun s c t hc hcomma hsc hct => ?_
  have hone := ((h.spelled c (mem_filter.mp hc).1).unit hcomma).2
  omega

/-! ## Names in the source -/

/-- An offset between the halves of a surrogate pair. -/
def SplitsPair (source : Text) (i : Nat) : Prop :=
  0 < i ∧ (source[i]?).any Text.isLowSurrogate = true ∧
    (source[i - 1]?).any Text.isHighSurrogate = true

/-- A name is the text at its range. One that starts between the halves of a surrogate pair may be
the text one unit earlier. -/
def Spells (source : Text) (p : Parameter) : Prop :=
  source.slice p.start p.stop = p.name ∨
    SplitsPair source p.start ∧ source.slice (p.start - 1) (p.stop - 1) = p.name

theorem slice_take_drop (source : Text) (i n : Nat) :
    source.slice i (i + ((source.drop i).take n).length) = (source.drop i).take n := by
  rw [Text.slice, drop_take, Nat.add_sub_cancel_left]
  exact (prefix_iff_eq_take.mp (List.take_prefix n _)).symm

/-- An identifier that is looked for inside of a pair is the text one unit earlier. -/
theorem spells_identifierAt (source : Text) (i : Nat) :
    Spells source ⟨identifierAt source i, i, i + (identifierAt source i).length⟩ := by
  unfold Spells identifierAt
  dsimp only
  split
  · rename_i hbetween
    simp only [Bool.and_eq_true, decide_eq_true_eq] at hbetween
    obtain ⟨⟨hpos, hlow⟩, hhigh⟩ := hbetween
    refine .inr ⟨⟨hpos, hlow, hhigh⟩, ?_⟩
    rw [show ∀ n, i + n - 1 = i - 1 + n by omega]
    exact slice_take_drop source (i - 1) _
  · exact .inl (slice_take_drop source i _)

theorem spells_of_mem_tokenize {t : Token}
    (hin : ∀ c ∈ children, c.start ≤ c.stop ∧ c.stop ≤ stop)
    (ht : t ∈ tokenize source start stop children) (hkind : t.kind = .name) :
    Spells source ⟨t.text, t.start, t.stop⟩ := by
  rcases mem_tokenize hin ht with ⟨c, hc, hcl⟩ | ⟨i, e, _, _, hlex⟩
  · cases hcl with
    | name => exact .inl rfl
    | _ => cases hkind
  · cases hlex with
    | name => exact spells_identifierAt source i
    | _ => cases hkind

/-! ## Lists of names -/

/-- **What the names of an extraction are.** -/
structure ListsNames (source : Text) (tokens : List Token) (e : Extraction) : Prop where
  /-- There is one for each group ahead of the marker that is headed by a name. -/
  groups : ∃ before marker rest after, MarkedOnce tokens before marker rest after ∧
    e.marker = marker.range ∧ e.names = before.filterMap named?
  apart : e.names.Pairwise fun p q => p.stop < q.start
  ahead : ∀ p ∈ e.names, p.start ≤ p.stop ∧ p.stop < e.marker.start
  spelled : ∀ p ∈ e.names, Spells source p
  span : e.span.start ≤ e.marker.start ∧ e.marker.stop ≤ e.span.stop

theorem named?_eq_some {g : List Token} {p : Parameter} (h : named? g = some p) :
    ∃ t, g.head? = some t ∧ t.kind = .name ∧ p = ⟨t.text, t.start, t.stop⟩ := by
  obtain ⟨t, ht, rfl⟩ := Option.map_eq_some_iff.mp h
  obtain ⟨hhead, hkind⟩ := Option.filter_eq_some_iff.mp ht
  exact ⟨t, hhead, by simpa using hkind, rfl⟩

/-- An extraction comes from tokens that are marked once, and has the names of the groups ahead. -/
theorem markedOnce_of_extract
    (h : extract source tokens target scope = .ok (some e)) :
    ∃ before marker rest after, MarkedOnce tokens before marker rest after ∧
      e.marker = marker.range ∧ e.names = before.filterMap named? := by
  obtain ⟨_, _, marker, index, hx⟩ := extract_eq_some h
  rcases extract_answers source tokens target scope with ⟨_, hnone⟩ |
    ⟨⟨before, m, rest, after, hmarked, _⟩, _⟩ | ⟨_, _, _, _, _, herr, _⟩
  · exact absurd (h.symm.trans hnone) (by simp)
  · obtain ⟨ahead, i, behind, hheads, _⟩ := hmarked.heads_ahead
    have hmem : (m, i) ∈ heads tokens := by rw [hheads]; simp
    obtain ⟨rfl, rfl⟩ := Prod.mk.injEq .. ▸ hx.only _ hmem hmarked.slash
    exact ⟨before, m, rest, after, hmarked, hx.markerRange, hx.names.trans hmarked.names⟩
  · exact absurd (h.symm.trans herr) (by simp)

/-- **The names of an extraction** from tokens that lie well and whose names are spelled in the
source. -/
theorem listsNames_of_laid (hlaid : Laid source tokens)
    (hspells : ∀ t ∈ tokens, t.kind = .name → Spells source ⟨t.text, t.start, t.stop⟩)
    (h : extract source tokens target scope = .ok (some e)) : ListsNames source tokens e := by
  obtain ⟨_, _, m, index, hx⟩ := extract_eq_some h
  obtain ⟨c?, hrun⟩ := hx.run hlaid
  obtain ⟨before, marker, rest, after, hmarked, hrange, hnames⟩ := markedOnce_of_extract h
  have hsub : ((groups tokens).filterMap head?).Sublist tokens :=
    (cutAt_heads_sublist _ _).trans filter_sublist
  have hapart := hlaid.heads_apart
  rw [hmarked.cut, filterMap_append] at hsub hapart
  obtain ⟨hbefore, _, hmarker⟩ := pairwise_append.mp hapart
  -- a name of the list is the head of a group ahead of the marker
  have hhead : ∀ p ∈ e.names, ∃ t ∈ before.filterMap head?, t.kind = .name ∧
      p = ⟨t.text, t.start, t.stop⟩ := by
    intro p hp
    rw [hnames] at hp
    obtain ⟨g, hg, hgp⟩ := mem_filterMap.mp hp
    obtain ⟨t, ht, hkind, rfl⟩ := named?_eq_some hgp
    exact ⟨t, mem_filterMap.mpr ⟨g, hg, ht⟩, hkind, rfl⟩
  have hmem : ∀ t ∈ before.filterMap head?, t ∈ tokens :=
    fun t ht => hsub.subset (mem_append_left _ ht)
  refine ⟨⟨before, marker, rest, after, hmarked, hrange, hnames⟩, ?_, ?_, ?_, hrun.start_le, ?_⟩
  · rw [hnames, pairwise_filterMap]
    refine (pairwise_filterMap.mp hbefore).imp fun {g g'} hgg p hp q hq => ?_
    obtain ⟨s, hs, _, rfl⟩ := named?_eq_some hp
    obtain ⟨t, ht, _, rfl⟩ := named?_eq_some hq
    exact hgg s hs t ht
  · intro p hp
    obtain ⟨t, ht, _, rfl⟩ := hhead p hp
    rw [hrange]
    exact ⟨(hlaid.range t (hmem t ht)).1, hmarker t ht marker (.head _)⟩
  · intro p hp
    obtain ⟨t, ht, hkind, rfl⟩ := hhead p hp
    exact hspells t (hmem t ht) hkind
  · have hone := ((hlaid.spelled m (mem_of_getElem? (mem_heads hx.head))).unit hx.slash).2
    have hlt := hrun.lt_stop
    rw [hx.markerRange] at hlt ⊢
    exact Nat.le_trans (Nat.le_of_eq hone) hlt

theorem listsNames_tokenize
    (hle : start ≤ stop) (hlen : stop ≤ source.length)
    (hin : ∀ c ∈ children, c.start ≤ c.stop ∧ c.stop ≤ stop)
    (h : extract source (tokenize source start stop children) target scope = .ok (some e)) :
    ListsNames source (tokenize source start stop children) e :=
  listsNames_of_laid (laid_tokenize hle hlen hin)
    (fun _ ht hkind => spells_of_mem_tokenize hin ht hkind) h

end Posonly.Signature
