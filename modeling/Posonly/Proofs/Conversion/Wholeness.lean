import Posonly.Proofs.Conversion.Consistency
import Posonly.Proofs.Edit.Bytes
import Posonly.Proofs.Text.Lines

/-!
# A conversion keeps characters whole

A character outside the basic plane is a pair of surrogates, and an edit between the two would break
it. A deletion has separators at both its ends; a decorator and the definition go to the start of a
line; only a lambda is wrapped where the parser says, and so it is up to the parser that it starts
and stops between characters (`WholeLambdas`). What is put in ends with a bracket or a line
separator, and so it does not run into the character behind it (`convert_whole`).
-/

open List Posonly.Text Posonly.Decorator

namespace Posonly

/-- Lambdas start and stop between characters. -/
def Tree.WholeLambdas (source : Text) (tree : Tree) : Prop :=
  ∀ n ∈ tree.preorder, n.kind = .lambdaExpression → source.WholeAt n.start ∧ source.WholeAt n.stop

instance (source : Text) (tree : Tree) : Decidable (tree.WholeLambdas source) :=
  inferInstanceAs (Decidable (∀ n ∈ tree.preorder, n.kind = .lambdaExpression →
    source.WholeAt n.start ∧ source.WholeAt n.stop))

/-! ## What is put in -/

theorem LineSeparator.text_closed (s : LineSeparator) : s.text ≠ [] ∧ s.text.Closed := by
  cases s <;> decide

namespace Printer

theorem closed_times {t : Text} (h : t.Closed) (n : Nat) : (times n t).Closed := by
  induction n with
  | zero => exact closed_nil
  | succ n ih => exact closed_append h ih

/-- What printing leaves as it is: the separator, and what has been printed before. -/
structure Extends (p q : Printer) : Prop where
  separator : q.separator = p.separator
  output : p.output <+: q.output

theorem Extends.rfl {p : Printer} : p.Extends p := ⟨Eq.refl _, prefix_rfl⟩

theorem Extends.trans {p q r : Printer} (h : p.Extends q) (h' : q.Extends r) : p.Extends r :=
  ⟨h'.separator.trans h.separator, h.output.trans h'.output⟩

theorem newline_extends (p : Printer) : p.Extends p.newline := ⟨rfl, prefix_append _ _⟩

theorem segment_extends (p : Printer) (t : Text) : p.Extends (p.segment t) := by
  unfold segment
  split
  · exact .rfl
  · exact ⟨rfl, (prefix_append _ _).trans (prefix_append _ _)⟩

/-- Lines are printed one by one, and none takes back what is there. -/
theorem write_extends (p : Printer) (t : Text) : p.Extends (p.write t) := by
  have hlines : ∀ (ls : List Text) (p : Printer),
      p.Extends (ls.foldl (fun p line => p.newline.segment line) p) := by
    intro ls
    induction ls with
    | nil => exact fun _ => .rfl
    | cons l ls ih =>
      exact fun p => p.newline_extends.trans ((p.newline.segment_extends l).trans (ih _))
  unfold write
  split
  · exact .rfl
  · exact (p.segment_extends _).trans (hlines _ _)

theorem writeLine_extends (p : Printer) (t : Text) : p.Extends (p.writeLine t) :=
  (p.write_extends t).trans (newline_extends _)

theorem output_writeLine (p : Printer) {t : Text} (hne : t ≠ []) (h : ∀ u ∈ t, isBreak u = false) :
    ∃ before, (p.writeLine t).output = before ++ t ++ p.separator := by
  have hwrite : p.write t = p.segment t := by rw [write, lines_of_no_break h]; rfl
  have hempty : ¬ (t.isEmpty = true) := by simpa using hne
  refine ⟨p.output ++ if p.atLineStart then times p.level p.indentation else [], ?_⟩
  change (p.write t).output ++ (p.write t).separator = _
  rw [(p.write_extends t).separator, hwrite, segment, if_neg hempty]

end Printer

namespace Decorator

mutual

theorem Block.print_extends (p : Printer) : ∀ b : Block, p.Extends (b.print p)
  | .line text => p.writeLine_extends text
  | .nested blocks =>
    ⟨(Block.printAll_extends p.indent blocks).separator,
      (Block.printAll_extends p.indent blocks).output⟩

theorem Block.printAll_extends (p : Printer) :
    ∀ blocks : List Block, p.Extends (Block.printAll p blocks)
  | [] => .rfl
  | b :: rest => (Block.print_extends p b).trans (Block.printAll_extends (b.print p) rest)

end

theorem Block.printAll_append (p : Printer) (bs cs : List Block) :
    Block.printAll p (bs ++ cs) = Block.printAll (Block.printAll p bs) cs := by
  induction bs generalizing p with
  | nil => rfl
  | cons b bs ih => exact ih (b.print p)

theorem code_eq (name : Text) :
    ∃ first inner, code name = [.line first, .nested (inner ++ [.line "return caller"])] := by
  obtain ⟨first, inner, hcode, hinner⟩ : ∃ first inner, code name = [.line first, .nested inner] ∧
      inner = inner.dropLast ++ [.line "return caller"] := ⟨_, _, rfl, rfl⟩
  exact ⟨first, inner.dropLast, by rw [hcode, ← hinner]⟩

/-- **The definition ends with its last line** and the separator behind it. -/
theorem definition_ends (style : Style) :
    ∃ before : Text, definition style = before ++ "return caller" ++ style.separator := by
  obtain ⟨first, inner, hcode⟩ := code_eq style.decorator
  let p : Printer := { indentation := style.indentation, separator := style.separator }
  let q := Block.printAll (p.writeLine first).indent inner
  have hprint : definition style = (q.writeLine "return caller").output := by
    rw [definition, hcode, Block.printAll, Block.printAll, Block.printAll, Block.print, Block.print,
      Block.printAll_append]
    rfl
  have hsep : q.separator = style.separator :=
    (Block.printAll_extends _ inner).separator.trans (p.writeLine_extends first).separator
  rw [hprint, ← hsep]
  exact q.output_writeLine (by decide) (by decide)

theorem definition_closed {style : Style} (hne : style.separator ≠ [])
    (h : style.separator.Closed) : (definition style).Closed := by
  obtain ⟨before, hdefinition⟩ := definition_ends style
  rw [hdefinition]
  exact closed_append_right hne h _

end Decorator

namespace Conversion

open Posonly.Signature

/-- A text that is put in for a signature: a line above a function, or a call around a lambda. -/
inductive PutIn (style : Style) : Text → Prop where
  | line {indent : Text} (call : Text) : (∀ u ∈ indent, Text.isSpaceOrTab u = true) →
      PutIn style (indent ++ "@" ++ call ++ style.separator)
  | opens (names : List Text) (quote : QuoteMark) :
      PutIn style (call style.decorator names quote ++ "(")
  | closes : PutIn style ")"

variable {n : Tree} {ctx : Context} {changes : List Change} {statement : Option Nat}
  {d : Insertion} {e : Extraction}

/-- **What is put in for a signature**: nothing for its marker, else a line or a call. -/
theorem changesAt_texts (h : changesAt n e ctx = .ok changes) :
    ∀ c ∈ changes, c = markerChange e ∨ PutIn ctx.style c.text := by
  intro c hc
  cases asked_of_changesAt h with
  | dismissed => exact .inl (mem_singleton.mp hc)
  | line _ hindent =>
    rcases mem_pair.mp hc with rfl | rfl
    · exact .inl rfl
    · exact .inr (.line _ hindent)
  | around =>
    rcases mem_cons.mp hc with rfl | hc
    · exact .inr (.opens ..)
    · rcases mem_pair.mp hc with rfl | rfl
      · exact .inl rfl
      · exact .inr .closes

theorem changesAt_closed (h : changesAt n e ctx = .ok changes)
    (hne : ctx.style.separator ≠ []) (hseparator : ctx.style.separator.Closed) :
    ∀ c ∈ changes, c.text.Closed := by
  intro c hc
  rcases changesAt_texts h c hc with rfl | htext
  · exact closed_nil
  · generalize c.text = text at htext
    cases htext with
    | line => exact closed_append_right hne hseparator _
    | opens => exact closed_append_right (by decide) (by decide) _
    | closes => exact closed_append_right (b := ")") (by decide) (by decide) []

variable {j : Job} {tree : Tree} {css : List (List (Option Contribution))} {scan : Scan}

theorem definitionInsertion_closed (hd : j.definitionInsertion statement = some d) :
    d.text.Closed := by
  obtain ⟨hne, hseparator⟩ := j.options.lineSeparator.text_closed
  have hblock : (definition j.options.style).Closed :=
    definition_closed hne hseparator
  have hblank := Printer.closed_times hseparator
  unfold Job.definitionInsertion at hd
  generalize definition j.options.style = block at hd hblock
  split at hd
  · cases hd
  · dsimp only at hd
    split at hd
    · cases hd
    · injection hd with hd
      rw [← hd]
      refine closed_append (closed_append ?_ hblock) ?_
      · split
        · exact hblank _
        · exact closed_nil
      · split
        · exact hblank _
        · exact closed_nil

/-- No edit of a scan ends with half of a character. -/
theorem Scanned.edit_closed (h : Scanned j tree css scan) {e : Edit} (he : e ∈ scan.edits.edits) :
    e.text.Closed := by
  obtain ⟨c, hc, hec⟩ := h.mem_marked he
  obtain ⟨n, _, hcon⟩ := exists_contributor h.contributes hc
  cases hcon with
  | signature _ hctx hchanges =>
    obtain ⟨hne, hseparator⟩ := j.options.lineSeparator.text_closed
    exact changesAt_closed hchanges (by rw [hctx.style]; exact hne)
      (by rw [hctx.style]; exact hseparator) _ hec

/-! ## Where it is put in -/

/-- **No edit of a scan cuts a character**, at either of its ends. -/
theorem Scanned.edit_whole (h : Scanned j tree css scan) (htree : tree.WellFormed j.source.length)
    (hlambdas : tree.WholeLambdas j.source) {e : Edit} (he : e ∈ scan.edits.edits) :
    j.source.WholeAt e.start ∧ j.source.WholeAt e.stop := by
  obtain ⟨n, hn, scope, x, hsig, hmark | ⟨offset, hins, hstart, hstop⟩⟩ := edit_cases h he
  · -- a deletion starts and ends with a separator
    obtain ⟨hord, hlen⟩ := walked_orderly htree hn
    obtain ⟨c?, hrun⟩ := signatureAt_run hord hlen hsig
    have hlt := hrun.lt
    have hle := hrun.stop_le
    have hstart : (e.start : Int) = x.span.start := congrArg Change.start hmark
    have hstop : (e.stop : Int) = x.span.stop := congrArg Change.stop hmark
    rw [show e.start = x.span.start by omega, show e.stop = x.span.stop by omega]
    constructor
    · have hu := getElem?_eq_getElem (l := j.source) (i := x.span.start) (by omega)
      exact wholeAt_ahead hu (hrun.separators _ _ (Nat.le_refl _) hlt hu)
    · obtain ⟨i, hi⟩ : ∃ i, x.span.stop = i + 1 := ⟨x.span.stop - 1, by omega⟩
      have hu := getElem?_eq_getElem (l := j.source) (i := i) (by omega)
      rw [hi]
      exact wholeAt_behind hu (hrun.separators _ _ (by omega) (by omega) hu)
  · have hstart : (e.start : Int) = offset := hstart
    have hstop : (e.stop : Int) = offset := hstop
    rw [show e.start = offset by omega, show e.stop = offset by omega, and_self]
    obtain ⟨t, ht, hnt⟩ := Tree.mem_postorderAll.mp hn
    have hmem := Tree.mem_preorder_of_child ht (Tree.mem_postorder.mp hnt)
    generalize e.change.origin = origin at hins
    cases hins with
    | line => exact wholeAt_lineStart _ _
    | opens hk => exact (hlambdas n hmem hk).1
    | closes hk => exact (hlambdas n hmem hk).2

theorem definition_whole (hd : j.definitionInsertion statement = some d) :
    j.source.WholeAt d.offset := by
  cases statement with
  | none => cases hd
  | some s =>
    rw [definitionInsertion_offset hd]
    exact wholeAt_lineStart _ _

/-- **All that a conversion does keeps characters whole.** The result is the source with the edits
made; they start and stop between characters, and what they put in does not end with half of one. -/
theorem convert_whole {parse : Text → Tree} {source : Text} {values : OptionValues} {r : Result}
    (hrun : convert parse source values = .ok r) (htree : (parse source).WellFormed source.length)
    (hlambdas : (parse source).WholeLambdas source) :
    Edit.Applicable source 0 r.applied ∧ r.text = Edit.splice source r.applied ∧
      ∀ e ∈ r.applied, source.WholeAt e.start ∧ source.WholeAt e.stop ∧ e.text.Closed := by
  obtain ⟨options, hjob⟩ := run_of_convert hrun
  obtain ⟨css, scan, hscanned, happlicable, htext, hedits⟩ := applied_of_run hjob
  refine ⟨happlicable, htext, fun e he => ?_⟩
  rcases hedits e he with he | ⟨d, hd, rfl⟩
  · obtain ⟨hstart, hstop⟩ := hscanned.edit_whole htree hlambdas he
    exact ⟨hstart, hstop, hscanned.edit_closed he⟩
  · have hwhole := definition_whole hd
    exact ⟨hwhole, hwhole, definitionInsertion_closed hd⟩

end Conversion

end Posonly
