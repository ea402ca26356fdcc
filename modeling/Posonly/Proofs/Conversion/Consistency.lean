import Posonly.Proofs.Conversion.Preservation

/-!
# The edits of a conversion do not collide

A deleted stretch is a run of separators, and no solid unit lies in one. So two stretches keep clear
of each other as soon as something solid is known to stand between them. For the marker of a
signature there is a name ahead of it and a closing bracket or the end of a body behind it, both
inside the signature (`Placed`). Signatures in a tree are side by side or one inside the other, and
a signature inside another one stands wholly ahead of the marker of that one or wholly behind it.
With insertions it is the same: they go next to something solid or to the start of a line.
-/

open List Posonly.Tree Posonly.Decorator

namespace Posonly.Conversion

open Posonly.Signature

variable {source : Text} {n : Tree} {scope : ScopeKind} {e : Extraction} {c : Contribution}
  {j : Job} {k : Tree}

/-- What keeps the deleted text of a signature in its place. -/
structure Placed (source : Text) (n : Tree) (e : Extraction) : Prop where
  run : ∃ c?, MarkerRun source e.marker.start c? e.span
  /-- A name stands ahead of it. -/
  ahead : ∃ a, n.start ≤ a ∧ a < e.span.start ∧ source.SolidAt a
  /-- Something of the signature stands behind it. -/
  behind : ∃ z, e.span.stop ≤ z ∧ z < n.stop ∧ source.SolidAt z
  /-- No signature inside has the marker in it. -/
  clear : ∀ c ∈ n.children, ∀ k ∈ c.preorder, IsSignature k →
    e.marker.start < k.start ∨ k.stop ≤ e.marker.start

/-- **Every extraction from a tight tree is kept in its place.** -/
theorem signatureAt_placed (hn : ∀ m ∈ n.preorder, m.Orderly) (hlen : n.stop ≤ source.length)
    (htight : ∀ m ∈ n.preorder, m.TightNode source)
    (h : signatureAt source n scope = .ok (some e)) : Placed source n e := by
  obtain ⟨lo, hi, region, tokens, target, hsite, hext⟩ := signatureAt_site hn hlen h
  obtain ⟨_, _, marker, index, hx⟩ := extract_eq_some hext
  obtain ⟨c?, hrun⟩ := hx.run hsite.laid
  have hmem : marker ∈ tokenize source lo hi region :=
    hsite.tokens_sublist.subset (mem_of_getElem? (mem_heads hx.head))
  have hlayout : Layout source lo hi (tokenize source lo hi region) :=
    layout_tokenize hsite.inOrder.le hsite.inOrder.mem_le
  have hrange := hlayout.mem_range hmem
  have hm : e.marker.start = marker.start := by rw [hx.markerRange]; rfl
  have hone := ((hsite.laid.spelled marker (mem_of_getElem? (mem_heads hx.head))).unit hx.slash).2
  refine ⟨⟨c?, hrun⟩, ?_, ?_, ?_⟩
  · obtain ⟨t, ht, hsolid, hlt⟩ := hx.exists_solid hsite.laid fun t ht hkind =>
      solidAt_of_mem_tokenize hsite.inOrder.mem_le
        (fun d hd hk => ((htight d (hsite.below d hd)).opens (.inl hk)).2)
        (hsite.tokens_sublist.subset ht) hkind
    have := (hlayout.mem_range (hsite.tokens_sublist.subset ht)).1
    exact ⟨t.start, Nat.le_trans hsite.start_le this, hlt, hsolid⟩
  · obtain ⟨z, hhi, hzn, hz⟩ := hsite.closes (htight n (self_mem_preorder n))
    have hstart := hrun.start_le
    rcases hz.not_mem hrun.separators with hbefore | hbehind
    · omega
    · exact ⟨z, hbehind, hzn, hz⟩
  · intro c hc k hk hsig
    rcases hsite.encloses htight c hc k hk hsig with ⟨d, hd, hkd⟩ | hout | hout
    · have hdn := hsite.below d hd
      have hdord : ∀ m ∈ d.preorder, m.Orderly := fun m hm => hn m (mem_preorder_trans hdn hm)
      have hdrange := preorder_range hn hdn
      have hkrange := preorder_range hdord hkd
      rcases tokenize_apart hsite.inOrder hmem d hd with hcl | hbefore | hbehind
      · -- the node would hold separators only, but it holds the start of a signature
        have hseps := hcl.separators (by omega) hdrange.2.1 hx.slash
        have hopens := (htight k (mem_preorder_trans hdn hkd)).opens (.inr hsig)
        rcases hopens.2.not_mem hseps with h | h
        · omega
        · have := hopens.1
          omega
      · exact .inl (by omega)
      · exact .inr (by omega)
    · exact .inr (by omega)
    · exact .inl (by omega)

/-! ## Two deletions -/

theorem Placed.stop_le (h : Placed source n e) {i : Nat} (hi : source.SolidAt i)
    (hm : e.marker.start ≤ i) : e.span.stop ≤ i := by
  obtain ⟨c?, hrun⟩ := h.run
  have := hrun.start_le
  rcases hi.not_mem hrun.separators with hbefore | hbehind
  · omega
  · exact hbehind

theorem Placed.lt_start (h : Placed source n e) {i : Nat} (hi : source.SolidAt i)
    (hm : i ≤ e.marker.start) : i < e.span.start := by
  obtain ⟨c?, hrun⟩ := h.run
  have := hrun.lt_stop
  rcases hi.not_mem hrun.separators with hbefore | hbehind
  · exact hbefore
  · omega

/-- **Two deletions keep clear of each other**, whether their signatures are side by side or one is
inside the other. -/
theorem Placed.apart {x : Extraction} (hk : Placed source k x) (hn : Placed source n e)
    (hsig : IsSignature k) (hahead : Tree.Ahead k n) :
    x.span.stop ≤ e.span.start ∨ e.span.stop ≤ x.span.start := by
  obtain ⟨a, hka, hax, hasolid⟩ := hk.ahead
  obtain ⟨z, hxz, hzk, hzsolid⟩ := hk.behind
  rcases hahead with hside | ⟨c, hc, hkc⟩
  · obtain ⟨a', hna, hae, _⟩ := hn.ahead
    exact .inl (by omega)
  · rcases hn.clear c hc k hkc hsig with hbefore | hbehind
    · have := hn.stop_le hasolid (by omega)
      exact .inr (by omega)
    · have := hn.lt_start hzsolid (by omega)
      exact .inl (by omega)

/-! ## A deletion and an insertion -/

theorem Placed.insertion_clear {origin : Origin} {offset : Nat} (h : Placed source n e)
    (htight : k.TightNode source) (hins : InsertsAt source k origin offset) :
    offset ≤ e.span.start ∨ e.span.stop ≤ offset := by
  obtain ⟨c?, hrun⟩ := h.run
  by_contra hin
  cases hins with
  | opens hk =>
    rcases (htight.opens (.inr (.inr hk))).2.not_mem hrun.separators with h | h <;> omega
  | closes hk =>
    obtain ⟨hlt, hz⟩ := htight.closes hk
    rcases hz.not_mem hrun.separators with h | h <;> omega
  | @line q hk hle hqn hblank hq =>
    -- the line starts inside the deleted text and is blank up to something solid
    have hsolid : source.SolidAt q := by
      rcases hq with rfl | hq
      · exact (htight.opens (.inr (.inl hk))).2
      · exact hq
    have hstop : e.span.stop ≤ q := by
      rcases hsolid.not_mem hrun.separators with h | h
      · omega
      · exact h
    have hbreak : BreakAt source (source.lineStart k.start - 1) :=
      Text.break_before_lineStart (by omega)
    have hno : ¬ BreakAt source (source.lineStart k.start) :=
      not_breakAt_of_throughout hblank (Nat.le_refl _) (by omega)
    obtain ⟨c, hc, hlec⟩ := hrun.line _ (by omega) (by omega) hbreak hno
    obtain ⟨_, hcs, hcomma⟩ := hrun.comma c hc
    exact absurd (hblank c _ hlec (by omega) hcomma) (by decide)

/-! ## All changes -/

/-- Two changes keep clear of each other. -/
def ChangesApart (c d : Change) : Prop := c.stop ≤ d.start ∨ d.stop ≤ c.start

theorem ChangesApart.symm {c d : Change} (h : ChangesApart c d) : ChangesApart d c := Or.symm h

theorem Inserted.apart {m : Tree} {c d : Change} (hc : Inserted source n c)
    (hd : Inserted source m d) : ChangesApart c d := by
  obtain ⟨i, _, hcs, hce⟩ := hc
  obtain ⟨k, _, hds, hde⟩ := hd
  unfold ChangesApart
  omega

theorem Placed.inserted_apart {c : Change} (h : Placed source n e)
    (htight : k.TightNode source) (hc : Inserted source k c) :
    ChangesApart c (markerChange e) := by
  obtain ⟨offset, hins, hcs, hce⟩ := hc
  have := h.insertion_clear htight hins
  unfold ChangesApart markerChange
  dsimp only
  omega

/-- What a contribution comes from: a signature of a tight tree, whose marker is taken out with text
put in around it. -/
structure Sound (source : Text) (n : Tree) (c : Contribution) : Prop where
  signature : IsSignature n
  tight : n.TightNode source
  placed : Placed source n c.extraction
  changes : ∃ before after, c.changes = before ++ markerChange c.extraction :: after ∧
    ∀ x ∈ before ++ after, Inserted source n x

theorem Sound.mem_changes (h : Sound source n c) {x : Change}
    (hx : x ∈ c.changes) : x = markerChange c.extraction ∨ Inserted source n x := by
  obtain ⟨before, after, heq, hins⟩ := h.changes
  rw [heq] at hx
  by_cases hmark : x = markerChange c.extraction
  · exact .inl hmark
  · exact .inr (hins x (by simpa [hmark] using hx))

theorem Sound.pairwise (h : Sound source n c) :
    c.changes.Pairwise ChangesApart := by
  obtain ⟨before, after, heq, hins⟩ := h.changes
  rw [heq, pairwise_middle fun {x y} => ChangesApart.symm]
  refine pairwise_cons.mpr ⟨fun x hx => ?_, ?_⟩
  · exact (h.placed.inserted_apart h.tight (hins x hx)).symm
  · exact pairwise_of_forall_mem_list fun x hx y hy => (hins x hx).apart (hins y hy)

theorem Sound.apart {m : Tree} {c d : Contribution} (hc : Sound source m c) (hd : Sound source n d)
    (hahead : Tree.Ahead m n) : ∀ x ∈ c.changes, ∀ y ∈ d.changes, ChangesApart x y := by
  intro x hx y hy
  rcases hc.mem_changes hx with rfl | hx
  · rcases hd.mem_changes hy with rfl | hy
    · have := hc.placed.apart hd.placed hc.signature hahead
      unfold ChangesApart markerChange
      dsimp only
      omega
    · exact (hc.placed.inserted_apart hd.tight hy).symm
  · rcases hd.mem_changes hy with rfl | hy
    · exact hd.placed.inserted_apart hc.tight hx
    · exact hx.apart hy

theorem Contributes.sound (hn : ∀ m ∈ n.preorder, m.Orderly)
    (hlen : n.stop ≤ j.source.length) (htight : ∀ m ∈ n.preorder, m.TightNode j.source)
    (h : Contributes j n (some c)) : Sound j.source n c := by
  cases h with
  | @signature scope e ctx changes hsig hctx hch =>
    have hkind := isSignature_of_signatureAt hsig
    exact
      { signature := hkind
        tight := htight n (self_mem_preorder n)
        placed := signatureAt_placed hn hlen htight hsig
        changes := changesAt_cases hctx.source hkind hch }

theorem marked_pairwise {ns : List Tree} {cs : List (Option Contribution)}
    {Q : Contribution → Contribution → Prop} (h : List.Forall₂ (Contributes j) ns cs)
    (hns : ns.Pairwise fun m n => ∀ c d, Contributes j m (some c) →
      Contributes j n (some d) → Q c d) :
    (marked cs).Pairwise Q := by
  induction h with
  | nil => exact .nil
  | @cons n c ns cs hn hrest ih =>
    obtain ⟨hhead, htail⟩ := pairwise_cons.mp hns
    cases c with
    | none => exact ih htail
    | some c =>
      refine pairwise_cons.mpr ⟨fun d hd => ?_, ih htail⟩
      obtain ⟨m, hm, hcon⟩ := exists_contributor hrest hd
      exact hhead m hm c d hn hcon

/-! ## Whole sources -/

theorem firstMarked_le {ts : List Tree} {css : List (List (Option Contribution))}
    {start stop s : Nat}
    (h : List.Forall₂ (fun t cs => List.Forall₂ (Contributes j) t.postorder cs) ts css)
    (hord : Tree.InOrder start stop ts) (hts : ∀ t ∈ ts, ∀ n ∈ t.preorder, n.Orderly)
    (hfirst : firstMarked ts css = some s) :
    s ≤ stop ∧ ∀ c ∈ marked css.flatten,
      ∃ n ∈ Tree.postorderAll ts, Contributes j n (some c) ∧ s ≤ n.start := by
  induction h generalizing start with
  | nil => cases hfirst
  | @cons t cs ts css ht hrest ih =>
    obtain ⟨_, hle, hord'⟩ := hord
    have hstop := hord'.le
    rw [firstMarked] at hfirst
    rw [Tree.postorderAll]
    by_cases hempty : (marked cs).isEmpty = true
    · -- nothing in the first statement: the rest decides
      rw [if_pos hempty] at hfirst
      obtain ⟨hs, hall⟩ := ih hord' (fun t ht => hts t (.tail _ ht)) hfirst
      refine ⟨hs, fun c hc => ?_⟩
      rw [flatten_cons, marked, filterMap_append] at hc
      rcases mem_append.mp hc with hc | hc
      · rw [← marked, List.isEmpty_iff.mp hempty] at hc
        cases hc
      · obtain ⟨n, hn, hcon⟩ := hall c hc
        exact ⟨n, mem_append_right _ hn, hcon⟩
    · rw [if_neg hempty] at hfirst
      cases hfirst
      refine ⟨by omega, fun c hc => ?_⟩
      obtain ⟨n, hn, hcon⟩ := exists_contributor
        (rel_append ht (contributes_of_statements hrest)) hc
      refine ⟨n, hn, hcon, ?_⟩
      rcases mem_append.mp hn with hn | hn
      · exact (preorder_range (hts t (by simp)) (mem_postorder.mp hn)).1
      · obtain ⟨t', ht', hn⟩ := mem_postorderAll.mp hn
        have h1 := hord'.mem_range ht'
        have h2 := preorder_range (hts t' (.tail _ ht'))
          (mem_postorder.mp hn)
        omega

section

variable {j : Job} {tree : Tree} {css : List (List (Option Contribution))} {scan : Scan}
  {d : Insertion}

theorem Scanned.sound (hwf : tree.WellFormed j.source.length) (htight : tree.Tight j.source)
    (hn : n ∈ Tree.postorderAll tree.children) (h : Contributes j n (some c)) :
    Sound j.source n c := by
  obtain ⟨hord, hlen⟩ := walked_orderly hwf hn
  obtain ⟨t, ht, hnt⟩ := mem_postorderAll.mp hn
  have hmem := mem_preorder_of_child ht (mem_postorder.mp hnt)
  exact h.sound hord hlen fun m hm => htight m (mem_preorder_trans hmem hm)

section

variable (h : Scanned j tree css scan) (hwf : tree.WellFormed j.source.length)

include h hwf

theorem Scanned.pairwise (htight : tree.Tight j.source) : scan.edits.edits.Pairwise Edit.Apart := by
  have hchanges : ((marked css.flatten).flatMap (·.changes)).Pairwise ChangesApart := by
    refine pairwise_flatMap.mpr ⟨fun c hc => ?_, ?_⟩
    · obtain ⟨n, hn, hcon⟩ := exists_contributor h.contributes hc
      exact (Scanned.sound hwf htight hn hcon).pairwise
    · have hself := hwf.2 tree (self_mem_preorder tree)
      have hbelow : ∀ t ∈ tree.children, ∀ n ∈ t.preorder, n.Orderly := fun t ht =>
        forall_preorder_child hwf.2 ht
      have hahead := postorderAll_pairwise hself.2 hbelow fun t ht =>
        postorder_pairwise (hbelow t ht)
      refine marked_pairwise h.contributes (hahead.imp_of_mem fun {m n} hm hn hmn c d hc hd => ?_)
      exact (Scanned.sound hwf htight hm hc).apart (Scanned.sound hwf htight hn hd) hmn
  rw [← h.changes, pairwise_map] at hchanges
  refine hchanges.imp fun {a b} hab => ?_
  unfold ChangesApart Edit.change at hab
  unfold Edit.Apart
  dsimp only at hab
  omega

theorem Scanned.stop_le {e : Edit} (he : e ∈ scan.edits.edits) : e.stop ≤ j.source.length := by
  obtain ⟨n, hn, scope, x, hsig, hmark | ⟨offset, hins, _, hstop⟩⟩ := edit_cases h he
  · obtain ⟨hord, hlen⟩ := walked_orderly hwf hn
    obtain ⟨c?, hrun⟩ := signatureAt_run hord hlen hsig
    have hspan := hrun.stop_le
    have hstop : (e.stop : Int) = x.span.stop := congrArg Change.stop hmark
    omega
  · obtain ⟨hord, hlen⟩ := walked_orderly hwf hn
    have hoff := hins.le_stop (hord n (self_mem_preorder n)).1
    have hstop : (e.stop : Int) = offset := hstop
    omega

/-- **Nothing is edited ahead of the line of the statement noted first.** -/
theorem Scanned.line_le {s : Nat} (hat : scan.definitionAt = some s) :
    j.source.lineStart s ≤ j.source.length ∧
      ∀ e ∈ scan.edits.edits, j.source.lineStart s ≤ e.start := by
  have hfirst : firstMarked tree.children css = some s := by
    have hdef := h.definitionAt
    rw [hat] at hdef
    split at hdef
    · cases hdef
    · exact hdef.symm
  obtain ⟨hs, hall⟩ := firstMarked_le h.statements (hwf.2 tree (self_mem_preorder tree)).2
    (fun t ht => forall_preorder_child hwf.2 ht) hfirst
  have hline := Text.lineStart_le j.source s
  have hlen := hwf.1
  refine ⟨by omega, fun e he => ?_⟩
  obtain ⟨c, hc, hec⟩ := h.mem_marked he
  obtain ⟨n, hn, hcon, hsn⟩ := hall c hc
  obtain ⟨hord, hstop⟩ := walked_orderly hwf hn
  -- the signature starts on that line or below, and all it changes is on its lines
  have hmono : j.source.lineStart s ≤ j.source.lineStart n.start := Text.lineStart_mono hsn
  obtain ⟨⟨scope, hsig⟩, hmark | ⟨offset, hins, hstart, _⟩⟩ := hcon.mem_changes hec
  · have hspan := signatureAt_line hord hstop hsig
    have hstart : (e.start : Int) = c.extraction.span.start := congrArg Change.start hmark
    omega
  · have hoffset := hins.lineStart_le (hord n (self_mem_preorder n)).1
    have hstart : (e.start : Int) = offset := hstart
    omega

end

theorem definitionInsertion_cases (j : Job) (s : Nat) :
    (Text.occursIn (definition j.options.style)
        (j.source.take (j.source.lineStart s)) = true ∧
      j.definitionInsertion (some s) = none) ∨
    (Text.occursIn (definition j.options.style)
        (j.source.take (j.source.lineStart s)) = false ∧
      ∃ before after, j.definitionInsertion (some s) = some
        ⟨j.source.lineStart s, before ++ definition j.options.style ++ after⟩) := by
  unfold Job.definitionInsertion
  dsimp only
  split
  · rename_i hfound
    exact .inl ⟨hfound, rfl⟩
  · rename_i hfound
    exact .inr ⟨Bool.eq_false_iff.mpr hfound, _, _, rfl⟩

theorem definitionInsertion_eq_none_iff (j : Job) (s : Nat) :
    j.definitionInsertion (some s) = none ↔ Text.occursIn (definition j.options.style)
      (j.source.take (j.source.lineStart s)) = true := by
  rcases definitionInsertion_cases j s with ⟨hthere, hnone⟩ | ⟨hthere, before, after, hsome⟩
  · exact iff_of_true hnone hthere
  · rw [hsome, hthere]
    exact iff_of_false (by simp) (by simp)

theorem definitionInsertion_offset {s : Nat}
    (hd : j.definitionInsertion (some s) = some d) : d.offset = j.source.lineStart s := by
  rcases definitionInsertion_cases j s with ⟨_, hnone⟩ | ⟨_, before, after, hsome⟩
  · rw [hnone] at hd
    cases hd
  · rw [hsome] at hd
    injection hd with hd
    rw [← hd]

section

variable (h : Scanned j tree css scan) (hwf : tree.WellFormed j.source.length)

include h hwf

/-- **The definition of the decorator keeps clear of all edits**: it goes ahead of the first
signature with a marker. -/
theorem Scanned.definition_clear
    (hd : j.definitionInsertion scan.definitionAt = some d) :
    d.offset ≤ j.source.length ∧ ∀ e ∈ scan.edits.edits, d.offset ≤ e.start := by
  cases hat : scan.definitionAt with
  | none => rw [hat] at hd; cases hd
  | some s =>
    rw [hat] at hd
    rw [definitionInsertion_offset hd]
    exact h.line_le hwf hat

theorem Scanned.withDefinition_apart (htight : tree.Tight j.source) :
    (∀ e ∈ scan.edits.withDefinition (j.definitionInsertion scan.definitionAt),
        e.Valid ∧ e.stop ≤ j.source.length) ∧
      (scan.edits.withDefinition (j.definitionInsertion scan.definitionAt)).Pairwise
        Edit.Apart := by
  have hedits : ∀ e ∈ scan.edits.edits, e.Valid ∧ e.stop ≤ j.source.length := fun e he =>
    ⟨h.valid e he, h.stop_le hwf he⟩
  unfold EditSet.withDefinition
  cases hd : j.definitionInsertion scan.definitionAt with
  | none => exact ⟨hedits, h.pairwise hwf htight⟩
  | some d =>
    obtain ⟨hlen, hclear⟩ := h.definition_clear hwf hd
    refine ⟨fun e he => ?_, pairwise_cons.mpr
      ⟨fun e he => .inl (hclear e he), h.pairwise hwf htight⟩⟩
    rcases mem_cons.mp he with rfl | he
    · exact ⟨Nat.le_refl _, hlen⟩
    · exact hedits e he

theorem Scanned.applicable (htight : tree.Tight j.source) :
    (∃ text, scan.edits.apply j.source (j.definitionInsertion scan.definitionAt) = .ok text) ∧
      scan.edits.sorted = .ok (Edit.inOrder scan.edits.edits) := by
  obtain ⟨hinside, hapart⟩ := h.withDefinition_apart hwf htight
  constructor
  · exact ⟨_, EditSet.apply_eq_ok_iff.mpr
      ⟨(Edit.firstOverlap_inOrder_eq_none fun e he => (hinside e he).1).mpr hapart,
        fun e he => (hinside e he).2, rfl⟩⟩
  · exact EditSet.ordered_eq_ok_iff.mpr
      ⟨(Edit.firstOverlap_inOrder_eq_none h.valid).mpr (h.pairwise hwf htight), rfl⟩

end

end

theorem spanValid_of_wellFormed {tree : Tree} (hwf : tree.WellFormed j.source.length) :
    ∀ n ∈ Tree.postorderAll tree.children, SpanValid j n := by
  intro n hn scope e hsig
  obtain ⟨hord, hlen⟩ := walked_orderly hwf hn
  obtain ⟨c?, hrun⟩ := signatureAt_run hord hlen hsig
  exact Nat.le_of_lt hrun.lt

/-- **A conversion never gets in its own way.** For any source with a well-formed and tight tree, a
conversion without linting fails only because the source is invalid or malformed. The walk leaves no
scope open, and its edits, that with the definition of the decorator included, are valid ranges
inside the source of which no two overlap. -/
theorem convert_consistent (parse : Text → Tree) (source : Text) (options : Options)
    (hlint : options.lint = false) (hwf : (parse source).WellFormed source.length)
    (htight : (parse source).Tight source) :
    (∀ f, convertResolved parse source options = .error f →
      f.cause.kind = .parse ∨ f.cause.kind = .malformed) ∧
    ∀ scan, visitScript ⟨source, options⟩ (parse source) = .ok scan →
      scan.scopes.scopes = [] ∧
      (∀ e ∈ scan.edits.withDefinition
          (Job.definitionInsertion ⟨source, options⟩ scan.definitionAt),
        e.start ≤ e.stop ∧ e.stop ≤ source.length) ∧
      (scan.edits.withDefinition
        (Job.definitionInsertion ⟨source, options⟩ scan.definitionAt)).Pairwise Edit.Apart := by
  constructor
  · intro f hf
    -- without linting a conversion fails exactly as its run does
    have hrun : Job.run ⟨source, options⟩ (parse source) = .error f := by
      unfold convertResolved at hf
      cases hr : Job.run ⟨source, options⟩ (parse source) with
      | error f' => rw [hr] at hf; exact hf
      | ok r => rw [hr] at hf; simp [bind, Except.bind, hlint, pure, Except.pure] at hf
    rcases run_cases ⟨source, options⟩ (parse source) with ⟨css, scan, _, hscanned, hfin⟩ |
      ⟨f', herr, hmalformed⟩
    · rw [hrun] at hfin
      cases hfin with
      | rejected hkind => exact Or.inl hkind
      | inapplicable hfault =>
        -- the edits of a walk fit together, so they are not refused
        obtain ⟨⟨text, happly⟩, hsorted⟩ := hscanned.applicable hwf htight
        rcases hfault with h | h
        · rw [happly] at h
          exact absurd h (by simp)
        · rw [hsorted] at h
          exact absurd h (by simp)
    · rw [hrun] at herr
      injection herr with herr
      rw [herr]
      exact Or.inr (hmalformed (spanValid_of_wellFormed hwf))
  · intro scan hscan
    have hspec := visitScript_spec ⟨source, options⟩ (parse source)
    rw [hscan] at hspec
    obtain ⟨css, hscanned⟩ := hspec
    exact ⟨hscanned.scopes, hscanned.withDefinition_apart hwf htight⟩

/-- The options that are used when none are given. -/
def plainOptions : Options :=
  { indentation := defaultIndentation, lineSeparator := .lf, pep8 := true
    filename := unknownFilename, version := defaultVersion, decorator := defaultDecorator
    dismiss := false, lint := false, mangling := .all }

theorem convert_consistent_nested :
    nestedTree.WellFormed nestedSource.length ∧ nestedTree.Tight nestedSource ∧
      (∀ f, convertResolved (fun _ => nestedTree) nestedSource plainOptions = .error f →
        f.cause.kind = .parse ∨ f.cause.kind = .malformed) ∧
      ∃ scan, visitScript ⟨nestedSource, plainOptions⟩ nestedTree = .ok scan ∧
        scan.edits.edits.length = 5 ∧ scan.scopes.scopes = [] ∧
        (scan.edits.withDefinition
          (Job.definitionInsertion ⟨nestedSource, plainOptions⟩ scan.definitionAt)).Pairwise
            Edit.Apart := by
  have hwf : nestedTree.WellFormed nestedSource.length := by decide +kernel
  have htight : nestedTree.Tight nestedSource := by decide +kernel
  have hfive : (visitScript ⟨nestedSource, plainOptions⟩ nestedTree).toOption.map
      (·.edits.edits.length) = some 5 := by decide +kernel
  obtain ⟨hfail, hscan⟩ :=
    convert_consistent (fun _ => nestedTree) nestedSource plainOptions rfl hwf htight
  obtain ⟨scan, hvisit, hfive⟩ := ok_of_toOption hfive
  obtain ⟨hscopes, _, hapart⟩ := hscan scan hvisit
  exact ⟨hwf, htight, hfail, scan, hvisit, hfive, hscopes, hapart⟩

end Posonly.Conversion
