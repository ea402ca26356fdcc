import Posonly.Proofs.Conversion.Definition
import Posonly.Proofs.Conversion.FixedPoint
import Posonly.Proofs.Conversion.Wholeness

/-!
# Blank lines around the definition

The definition of the decorator is set apart by two blank lines on either side. Those above it are
counted in the source and made up by separators put in behind the break that ends the line above.
That is where the count can go wrong: a line feed put in behind a carriage return makes one break
with it and no blank line (`Text.lines_append_lineFeed`), and then there is one blank line instead
of two. Below the definition no such thing happens, since the definition ends with a separator
itself and what comes next starts with a line that shows something (`convert_spaced`).
-/

open List Posonly.Decorator Posonly.Text

namespace Posonly

/-! ## Blank lines at the end of a text -/

theorem LineSeparator.text_lf : LineSeparator.lf.text = [lineFeed] := by decide

theorem LineSeparator.head?_text {s : LineSeparator} (h : s.text.head? = some lineFeed) :
    s = .lf := by
  cases s with
  | lf => rfl
  | crlf | cr => exact absurd h (by decide)

namespace Text

variable {t x y : Text} {u : UInt16}

/-- How many blank lines a text that ends with a break ends with. -/
def blankTail (t : Text) : Nat := ((lines t).dropLast.reverse.takeWhile isAllBlank).length

theorem blankLinesAbove_eq (t : Text) (o : Nat) : t.blankLinesAbove o = blankTail (t.take o) := rfl

theorem lines_append_separator (s : LineSeparator) (h : ¬ Joins x s.text) :
    lines (x ++ s.text) = lines x ++ [[]] := by
  have hsep : lines s.text = [[], []] := by cases s <;> decide
  obtain ⟨above, hx⟩ := exists_lines x
  rw [lines_append h, hsep, hx, dropLast_concat]
  simp

theorem not_joins_separator (s : LineSeparator) (x : Text) : ¬ Joins (x ++ s.text) s.text := by
  intro hj
  obtain rfl := LineSeparator.head?_text hj.2
  have hlast := hj.1
  rw [LineSeparator.text_lf, getLast?_concat] at hlast
  exact absurd (Option.some.inj hlast) (by decide)

theorem lines_append_times (s : LineSeparator) (h : ¬ Joins x s.text) (n : Nat) :
    lines (x ++ Printer.times n s.text) = lines x ++ replicate n [] := by
  induction n generalizing x with
  | zero => simp [Printer.times]
  | succ n ih =>
    have hone : x ++ Printer.times (n + 1) s.text = (x ++ s.text) ++ Printer.times n s.text := by
      rw [append_assoc]
      rfl
    rw [hone, ih (not_joins_separator s x), lines_append_separator s h, append_assoc]
    rfl

theorem lines_append_lineFeed (h : x.getLast? = some carriageReturn) :
    lines (x ++ [lineFeed]) = lines x := by
  obtain ⟨z, rfl⟩ := getLast?_eq_some_iff.mp h
  have hz : ∀ rest, ¬ Joins z (carriageReturn :: rest) := by
    intro rest hj
    exact absurd (Option.some.inj hj.2) (by decide)
  rw [append_assoc, singleton_append, lines_append (hz [lineFeed]), lines_append (hz [])]
  rfl

theorem lastLine_of_isBreak (h : x.getLast? = some u) (hu : isBreak u = true) :
    lastLine x = [] := by
  have hnew : ∀ z v, isBreak v = true → ¬ Joins z [v] → lastLine (z ++ [v]) = [] := by
    intro z v hv hz
    have hlines : lines (z ++ [v]) = ((lines z).dropLast ++ [lastLine z]) ++ [[]] := by
      rw [lines_append hz, show lines [v] = [[], []] by simp [lines, hv]]
      simp
    exact lastLine_of_lines hlines
  obtain ⟨z, rfl⟩ := getLast?_eq_some_iff.mp h
  by_cases hz : Joins z [u]
  · -- the two make one break, and with the first of them the line has ended already
    obtain rfl : u = lineFeed := Option.some.inj hz.2
    rw [lastLine, lines_append_lineFeed hz.1]
    obtain ⟨w, rfl⟩ := getLast?_eq_some_iff.mp hz.1
    exact hnew w carriageReturn (by decide) fun hj => absurd hj.2 (by decide)
  · exact hnew z u hu hz

theorem mem_lastLine (h : x.getLast? = some u) (hu : isBreak u = false) : u ∈ lastLine x := by
  obtain ⟨z, rfl⟩ := getLast?_eq_some_iff.mp h
  have hz : ¬ Joins z [u] := by
    intro hj
    obtain rfl : u = lineFeed := Option.some.inj hj.2
    exact absurd hu (by decide)
  have hlines := lines_append hz
  rw [lines_of_no_break (t := [u]) (by simpa using hu)] at hlines
  rw [lastLine_of_lines hlines]
  exact mem_append_right _ (mem_singleton.mpr rfl)

theorem length_takeWhile_replicate (n : Nat) (ls : List Text) :
    ((replicate n [] ++ ls).takeWhile isAllBlank).length =
      n + (ls.takeWhile isAllBlank).length := by
  rw [takeWhile_append_of_pos, length_append, length_replicate]
  intro l hl
  rw [eq_of_mem_replicate hl]
  rfl

theorem blankTail_append_times (s : LineSeparator) (hlast : lastLine x = [])
    (h : ¬ Joins x s.text) (n : Nat) :
    blankTail (x ++ Printer.times n s.text) = n + blankTail x := by
  obtain ⟨above, hx⟩ := exists_lines x
  have hlines : lines (x ++ Printer.times n s.text) = (above ++ replicate n []) ++ [[]] := by
    rw [lines_append_times s h, hx, hlast, append_assoc, append_assoc,
      ← replicate_succ', replicate_succ, singleton_append]
  rw [blankTail, blankTail, hlines, hx, dropLast_concat, dropLast_concat,
    reverse_append, reverse_replicate, length_takeWhile_replicate]

/-- Behind a line that shows something, the first separator only ends it. -/
theorem blankTail_of_shown (s : LineSeparator) (hlast : isAllBlank (lastLine x) = false)
    (h : ¬ Joins x s.text) (n : Nat) : blankTail (x ++ Printer.times (n + 1) s.text) = n := by
  obtain ⟨above, hx⟩ := exists_lines x
  have hlines : lines (x ++ Printer.times (n + 1) s.text) =
      ((above ++ [lastLine x]) ++ replicate n []) ++ [[]] := by
    rw [lines_append_times s h, hx, append_assoc, append_assoc, append_assoc, ← replicate_succ']
  rw [blankTail, hlines, dropLast_concat, reverse_append, reverse_replicate,
    length_takeWhile_replicate, reverse_concat, takeWhile_cons_of_neg (by simp [hlast])]
  rfl

/-- **The blank lines that separators make up.** If the first of them runs into the break ahead of
it then one is missing. -/
theorem blankTail_made_up (s : LineSeparator) (h : x.getLast? = some u) (hu : isBreak u = true)
    (n : Nat) :
    blankTail (x ++ Printer.times (n - blankTail x) s.text) =
      if u = carriageReturn ∧ s = .lf ∧ blankTail x < n then n - 1 else max n (blankTail x) := by
  have hlast := lastLine_of_isBreak h hu
  by_cases hk : blankTail x < n
  · obtain ⟨m, hm⟩ : ∃ m, n - blankTail x = m + 1 := ⟨n - blankTail x - 1, by omega⟩
    by_cases hj : Joins x s.text
    · -- the first separator completes the break ahead of it, and only the others add lines
      obtain rfl : u = carriageReturn := Option.some.inj (h.symm.trans hj.1)
      obtain rfl := LineSeparator.head?_text hj.2
      have hlf := lines_append_lineFeed h
      have hfirst : x ++ Printer.times (m + 1) LineSeparator.lf.text =
          (x ++ [lineFeed]) ++ Printer.times m LineSeparator.lf.text := by
        rw [append_assoc, ← LineSeparator.text_lf]
        rfl
      have htail : blankTail (x ++ [lineFeed]) = blankTail x := by rw [blankTail, hlf, blankTail]
      rw [if_pos ⟨rfl, rfl, hk⟩, hm, hfirst, blankTail_append_times, htail]
      · omega
      · rwa [lastLine, hlf]
      · rw [← LineSeparator.text_lf]
        exact not_joins_separator _ _
    · have hno : ¬ (u = carriageReturn ∧ s = .lf ∧ blankTail x < n) := by
        intro hseam
        obtain ⟨hcr, hs, _⟩ := hseam
        subst hcr hs
        exact hj ⟨h, by rw [LineSeparator.text_lf]; rfl⟩
      rw [if_neg hno, blankTail_append_times s hlast hj]
      omega
  · have hnone : n - blankTail x = 0 := by omega
    rw [if_neg (fun hc => hk hc.2.2), hnone]
    have : x ++ Printer.times 0 s.text = x := append_nil x
    rw [this]
    omega

/-- Separators that are put in at the start of a line make up the blank lines above it. -/
theorem blankLinesAbove_made_up (source rest : Text) {s : Nat}
    (hlen : source.lineStart s ≤ source.length)
    (hpos : 0 < source.lineStart s) (sep : LineSeparator) (n : Nat) {made : Text}
    (hmade : made = Printer.times (n - source.blankLinesAbove (source.lineStart s)) sep.text) :
    blankLinesAbove (source.take (source.lineStart s) ++ (made ++ rest))
        (source.lineStart s + made.length) =
      if source[source.lineStart s - 1]? = some carriageReturn ∧ sep = .lf ∧
          source.blankLinesAbove (source.lineStart s) < n then n - 1
      else max n (source.blankLinesAbove (source.lineStart s)) := by
  obtain ⟨u, hu, hbreak⟩ := break_before_lineStart hpos
  have hlast : (source.take (source.lineStart s)).getLast? = some u := by
    rw [getLast?_take, if_neg (by omega), hu]
    rfl
  have htake : (source.take (source.lineStart s) ++ (made ++ rest)).take
      (source.lineStart s + made.length) = source.take (source.lineStart s) ++ made := by
    rw [← append_assoc, take_left' (by simp [hlen])]
  rw [blankLinesAbove_eq, htake, hmade]
  simp only [hu, Option.some_inj]
  exact blankTail_made_up sep hlast hbreak n

/-! ## First lines -/

/-- The first line of a text shows something. -/
def Shows (t : Text) : Prop := isAllBlank (firstLine t) = false

theorem shows_iff : Shows t ↔ ∃ v ∈ firstLine t, isBlank v = false := by
  rw [Shows, isAllBlank, all_eq_false]
  simp

theorem isBreak_of_not_blank (h : isBlank u = false) : isBreak u = false := by
  rw [Bool.eq_false_iff]
  intro hbreak
  rw [isBreak, Bool.or_eq_true, beq_iff_eq, beq_iff_eq] at hbreak
  rcases hbreak with rfl | rfl
  · exact absurd h (by decide)
  · exact absurd h (by decide)

theorem isBlank_of_not_separator (h : isSeparator u = false) : isBlank u = false := by
  rw [Bool.eq_false_iff]
  intro hblank
  rw [isSeparator_of_isPadding (isPadding_of_isBlank hblank)] at h
  cases h

theorem shows_cons (h : isBlank u = false) : Shows (u :: t) := by
  refine shows_iff.mpr ⟨u, ?_, h⟩
  rw [firstLine, takeWhile_cons_of_pos (by simp [isBreak_of_not_blank h])]
  exact mem_cons_self ..

theorem Shows.append_left (h : Shows y) (hx : ∀ v ∈ x, isBreak v = false) : Shows (x ++ y) := by
  obtain ⟨v, hv, hblank⟩ := shows_iff.mp h
  refine shows_iff.mpr ⟨v, ?_, hblank⟩
  rw [firstLine, takeWhile_append_of_pos (by simpa using hx)]
  exact mem_append_right x hv

theorem Shows.append_right (h : Shows x) (y : Text) : Shows (x ++ y) := by
  obtain ⟨v, hv, hblank⟩ := shows_iff.mp h
  refine shows_iff.mpr ⟨v, ?_, hblank⟩
  have hpre : firstLine x <+: firstLine (x ++ y) := by
    rw [firstLine, firstLine, takeWhile_append]
    split
    · rename_i hall
      rw [IsPrefix.eq_of_length (List.takeWhile_prefix _) hall]
      exact prefix_append _ _
    · exact prefix_rfl
  exact hpre.subset hv

theorem shows_of_isIdentifier (h : t.isIdentifier = true) : Shows t := by
  unfold isIdentifier at h
  split at h
  · cases h
  · rename_i first rest hcodes
    rw [Bool.and_eq_true] at h
    have hsolid : ∀ v : UInt16, startsIdentifier v.toNat = true → isBlank v = false := by
      intro v hv
      refine isBlank_of_not_separator (Bool.eq_false_iff.mpr fun hs => ?_)
      rw [startsIdentifier_of_isSeparator hs] at hv
      cases hv
    fun_cases codePoints t with
    | case1 => cases hcodes
    | case2 v =>
      rw [codePoints] at hcodes
      injection hcodes with hfirst
      subst hfirst
      exact shows_cons (hsolid v h.1)
    | case3 v w rest' hpair =>
      rw [Bool.and_eq_true] at hpair
      exact shows_cons (isBlank_of_not_separator (isSeparator_of_surrogate (.inl hpair.1)))
    | case4 v w rest' hpair =>
      rw [codePoints, if_neg hpair] at hcodes
      injection hcodes with hfirst
      subst hfirst
      exact shows_cons (hsolid v h.1)

end Text

/-! ## The definition and what comes behind it -/

namespace Decorator

theorem blankTail_definition (o : Options) (ahead : Text) (n : Nat) :
    blankTail (ahead ++ (definition o.style ++ Printer.times n o.lineSeparator.text)) = n := by
  obtain ⟨before, hdef⟩ := definition_ends o.style
  have hlast : (ahead ++ before ++ "return caller").getLast? = some 0x72 := by
    rw [getLast?_append]
    rfl
  have hend : ahead ++ (definition o.style ++ Printer.times n o.lineSeparator.text) =
      ahead ++ before ++ "return caller" ++ Printer.times (n + 1) o.lineSeparator.text := by
    rw [hdef]
    simp only [append_assoc]
    rfl
  rw [hend]
  refine blankTail_of_shown _ ?_ ?_ n
  · rw [isAllBlank, all_eq_false]
    exact ⟨0x72, mem_lastLine hlast (by decide), by decide⟩
  · intro hj
    exact absurd (Option.some.inj (hlast.symm.trans hj.1)) (by decide)

end Decorator

variable {source : Text}

/-- Ahead of a solid unit on its line, a text goes on with a line that shows something, if whatever
is put in ahead of that unit does. -/
theorem Edit.shows_spliceFrom {p i : Nat} {es : List Edit} (hpi : p ≤ i)
    (hline : source.Throughout (fun u => !isBreak u) p i) (hsolid : source.SolidAt i)
    (hes : ∀ e ∈ es, e.start ≤ i → Shows e.text) : Shows (spliceFrom source p es) := by
  obtain ⟨u, hu, hs⟩ := hsolid
  have hblank := isBlank_of_not_separator hs
  have hclear : ∀ b ≤ i, ∀ v ∈ source.slice p b, isBreak v = false := by
    intro b hb v hv
    have hall := all_slice.mpr (hline.mono (Nat.le_refl p) hb)
    simpa using all_eq_true.mp hall v hv
  have hcopied : ∀ b, i < b → Shows (source.slice p b) := by
    intro b hb
    rw [← slice_append hpi (Nat.le_of_lt hb), ← slice_append (Nat.le_succ i) hb,
      slice_unit hu]
    exact (shows_cons hblank).append_left (hclear i (Nat.le_refl i))
  cases es with
  | nil =>
    rw [spliceFrom, ← slice_append_drop (Nat.le_succ_of_le hpi)]
    exact (hcopied (i + 1) (Nat.lt_succ_self i)).append_right _
  | cons e es =>
    rw [spliceFrom]
    refine Shows.append_right ?_ _
    -- the first edit is ahead of the unit and shows itself, or the unit is copied
    by_cases he : e.start ≤ i
    · exact (hes e (.head _) he).append_left (hclear e.start he)
    · exact (hcopied e.start (by omega)).append_right _

namespace Conversion

open Posonly.Signature

theorem PutIn.shows {style : Style} {text : Text} (h : PutIn style text)
    (hname : style.decorator.isIdentifier = true) : Shows text := by
  cases h with
  | @line indent call hindent =>
    -- the line of a decorator starts with the blanks of its function
    rw [append_assoc, append_assoc]
    refine Shows.append_left (shows_cons (u := 0x40) (by decide)) fun v hv => ?_
    have hblank := hindent v hv
    rw [isSpaceOrTab, Bool.or_eq_true, beq_iff_eq, beq_iff_eq] at hblank
    rcases hblank with rfl | rfl <;> decide
  | opens names quote =>
    rw [call, append_assoc, append_assoc, append_assoc]
    exact (shows_of_isIdentifier hname).append_right _
  | closes => exact shows_cons (u := 0x29) (by decide)

variable {j : Job} {tree : Tree} {css : List (List (Option Contribution))} {scan : Scan}
  {d : Insertion}

theorem Scanned.exists_statement (h : Scanned j tree css scan) {s : Nat}
    (hat : scan.definitionAt = some s) :
    firstMarked tree.children css = some s ∧ ∃ t ∈ tree.children, t.start = s := by
  have hdef := h.definitionAt
  rw [hat] at hdef
  split at hdef
  · cases hdef
  · refine ⟨hdef.symm, ?_⟩
    rw [firstMarked_eq h.statements .module, eq_comm, Option.map_eq_some_iff] at hdef
    obtain ⟨t, hfind, hstart⟩ := hdef
    exact ⟨t, mem_of_find?_eq_some hfind, hstart⟩

/-- **What is put in ahead of the first statement with a marker** shows on its first line. A
deletion does not start there: up to its marker it is padding, and the statement would start with
that. -/
theorem Scanned.edit_shows (h : Scanned j tree css scan) (hwf : tree.WellFormed j.source.length)
    (hname : j.options.decorator.isIdentifier = true) {s : Nat} (hat : scan.definitionAt = some s)
    (hsolid : j.source.SolidAt s) {e : Edit} (he : e ∈ scan.edits.edits) (hle : e.start ≤ s) :
    Shows e.text := by
  obtain ⟨_, hall⟩ := firstMarked_le h.statements (hwf.2 tree (Tree.self_mem_preorder tree)).2
    (fun t ht => Tree.forall_preorder_child hwf.2 ht) (h.exists_statement hat).1
  obtain ⟨c, hc, hec⟩ := h.mem_marked he
  obtain ⟨n, hn, hcon, hsn⟩ := hall c hc
  obtain ⟨hord, hstop⟩ := walked_orderly hwf hn
  cases hcon with
  | signature hsig hctx hchanges =>
    rcases changesAt_texts hchanges _ hec with hmark | htext
    · -- the statement would start in the deleted stretch, which holds nothing solid
      obtain ⟨c?, hrun⟩ := signatureAt_run hord hstop hsig
      have hstart : (e.start : Int) = _ := congrArg Change.start hmark
      dsimp only [markerChange] at hstart
      have hlow := signatureAt_start_le hord hstop hsig
      have hhigh := hrun.lt_stop
      rcases hsolid.not_mem hrun.separators with hbefore | hbehind <;> omega
    · exact htext.shows (by rw [hctx.style]; exact hname)

theorem definitionInsertion_spaced {s : Nat}
    (hd : j.definitionInsertion (some s) = some d) (hpep8 : j.options.pep8 = true) :
    ∃ before, (0 < j.source.lineStart s → before = Printer.times
        (2 - j.source.blankLinesAbove (j.source.lineStart s)) j.options.lineSeparator.text) ∧
      d = ⟨j.source.lineStart s, before ++ definition j.options.style ++
        Printer.times 2 j.options.lineSeparator.text⟩ := by
  unfold Job.definitionInsertion at hd
  generalize definition j.options.style = block at hd ⊢
  dsimp only at hd
  split at hd
  · cases hd
  · injection hd with hd
    simp only [hpep8, true_and] at hd
    exact ⟨_, fun hpos => if_pos hpos, hd.symm⟩

theorem Scanned.text_eq (h : Scanned j tree css scan) (hwf : tree.WellFormed j.source.length)
    (hd : j.definitionInsertion scan.definitionAt = some d) {text : Text}
    (happly : scan.edits.apply j.source (j.definitionInsertion scan.definitionAt) = .ok text) :
    text = j.source.take d.offset ++ d.text ++
      Edit.spliceFrom j.source d.offset (Edit.inOrder scan.edits.edits) := by
  obtain ⟨_, htext⟩ := scan.edits.apply_applicable h.valid happly
  have hclear := (h.definition_clear hwf hd).2
  have hfirst : Edit.inOrder (scan.edits.withDefinition (some d)) =
      EditSet.definitionEdit d :: Edit.inOrder scan.edits.edits :=
    Edit.place_insertion (by simp [EditSet.definitionEdit, Edit.isInsertion])
      fun e he => hclear e (Edit.mem_inOrder.mp he)
  rw [htext, hd, hfirst]
  rfl

theorem isIdentifier_of_resolve {values : OptionValues} {options : Options}
    (h : values.resolve source = .ok options) : options.decorator.isIdentifier = true := by
  have hread := (OptionValues.resolve_eq_ok_iff.mp h).decorator
  unfold readDecorator at hread
  split at hread
  · rename_i hname
    injection hread with hread
    rw [← hread]
    exact (Bool.and_eq_true _ _ ▸ hname).1
  · cases hread

/-- **The definition is set apart by two blank lines.** Above it there are two, or as many as the
source has there if those are more, unless a line feed is put in behind a carriage return: then
there is one. Below it there are exactly two, and then a line that shows something. -/
theorem convert_spaced (parse : Text → Tree) (source : Text) (values : OptionValues) (r : Result)
    (d : Insertion) (hrun : convert parse source values = .ok r) (hd : r.definition = some d)
    (hpep8 : r.options.pep8 = true) (htree : (parse source).WellFormed source.length)
    (hsolid : ∀ t ∈ (parse source).children, source.SolidAt t.start) :
    ∃ before after : Text,
      d.text = before ++ definition r.options.style ++ after ∧
      r.text = source.take d.offset ++ d.text ++ Edit.spliceFrom source d.offset r.edits ∧
      (0 < d.offset → r.text.blankLinesAbove (d.offset + before.length) =
        if source[d.offset - 1]? = some carriageReturn ∧ r.options.lineSeparator = .lf ∧
            source.blankLinesAbove d.offset < 2 then 1
        else max 2 (source.blankLinesAbove d.offset)) ∧
      after = Printer.times 2 r.options.lineSeparator.text ∧
      r.text.blankLinesAbove (d.offset + d.text.length) = 2 ∧
      Shows (r.text.drop (d.offset + d.text.length)) := by
  obtain ⟨options, hres, hresolved⟩ := convert_eq_ok_iff.mp hrun
  have hname := isIdentifier_of_resolve hres
  obtain ⟨css, scan, _, hscanned, hfin⟩ :=
    finished_of_run (convertResolved_eq_ok_iff.mp hresolved).1
  cases hfin with
  | unchanged => exact absurd hd (by simp)
  | @assembled text hne happly hsorted =>
    dsimp only at hd hpep8 ⊢
    -- the result is the source up to the line of the first statement with a marker, the definition,
    -- and the rest of the source with its edits
    have htext := hscanned.text_eq htree hd happly
    have hlen := (hscanned.definition_clear htree hd).1
    obtain ⟨s, hat⟩ : ∃ s, scan.definitionAt = some s := by
      cases hat : scan.definitionAt with
      | none => rw [hat] at hd; exact absurd hd (by simp [Job.definitionInsertion])
      | some s => exact ⟨s, rfl⟩
    obtain ⟨before, hbefore, rfl⟩ := definitionInsertion_spaced (hat ▸ hd) hpep8
    obtain ⟨_, t, ht, hts⟩ := hscanned.exists_statement hat
    have hstart : source.SolidAt s := hts ▸ hsolid t ht
    have hnext : Shows (Edit.spliceFrom source (source.lineStart s)
        (Edit.inOrder scan.edits.edits)) := by
      refine Edit.shows_spliceFrom (lineStart_le source s)
        (lineStart_throughout source s) hstart fun e he hle => ?_
      exact hscanned.edit_shows htree hname hat hstart (Edit.mem_inOrder.mp he) hle
    dsimp only at htext hlen ⊢
    have hahead : (source.take (source.lineStart s) ++ (before ++
        definition options.style ++ Printer.times 2 options.lineSeparator.text)).length =
        source.lineStart s + (before ++ definition options.style ++
          Printer.times 2 options.lineSeparator.text).length := by
      rw [length_append, length_take, Nat.min_eq_left hlen]
    refine ⟨before, _, rfl, htext, ?_, rfl, ?_, ?_⟩
    · intro hpos
      rw [htext, append_assoc, append_assoc, append_assoc]
      exact blankLinesAbove_made_up source _ hlen hpos _ 2 (hbefore hpos)
    · rw [blankLinesAbove_eq, htext, take_left' hahead, append_assoc,
        ← append_assoc]
      exact blankTail_definition options _ 2
    · rw [htext, drop_left' hahead]
      exact hnext

/-- A function with a line above it. Its lines end with carriage returns. -/
def seamSource : Text := "import os\rdef f(a, /):\r    pass\r"

/-- Its tree. -/
def seamTree : Tree :=
  .node .script ⟨0, 32⟩ [
    .node (.other "ImportStatement") ⟨0, 9⟩ [.sign "import" 0, .leaf .variableName 7 9],
    .node .functionDefinition ⟨10, 31⟩ [
      .sign "def" 10, .leaf .variableName 14 15,
      .node .paramList ⟨15, 21⟩
        [.sign "(" 15, .leaf .variableName 16 17, .sign "," 17, .sign ")" 20],
      .node .body ⟨21, 31⟩ [.sign ":" 21,
        .node (.other "PassStatement") ⟨27, 31⟩ [.sign "pass" 27]]]]

theorem seam_evaluated :
    (convert (fun _ => seamTree) seamSource { lineSeparator := some "LF" }).toOption.map
        (fun r => (r.options.pep8, r.options.lineSeparator, r.definition.map (·.offset),
          r.text.slice 10 16, r.text.blankLinesAbove 12)) =
      some (true, .lf, some 10, ofString "\n\ndef ", 1) := by
  decide +kernel

theorem convert_spaced_seam :
    seamTree.WellFormed seamSource.length ∧ (∀ t ∈ seamTree.children, seamSource.SolidAt t.start) ∧
      ∃ r d, convert (fun _ => seamTree) seamSource { lineSeparator := some "LF" } = .ok r ∧
        r.definition = some d ∧ r.options.pep8 = true ∧ d.offset = 10 ∧ ∃ before after : Text,
          d.text = before ++ definition r.options.style ++ after ∧
          r.text.blankLinesAbove (d.offset + before.length) = 1 ∧
          r.text.blankLinesAbove (d.offset + d.text.length) = 2 ∧
          Shows (r.text.drop (d.offset + d.text.length)) := by
  have htree : seamTree.WellFormed seamSource.length := by decide
  have hsolid : ∀ t ∈ seamTree.children, seamSource.SolidAt t.start := by decide
  have hseam :
      seamSource[10 - 1]? = some carriageReturn ∧ seamSource.blankLinesAbove 10 < 2 := by
    decide
  obtain ⟨r, hrun, hfacts⟩ := ok_of_toOption seam_evaluated
  injection hfacts with hpep8 hfacts
  injection hfacts with hsep hfacts
  injection hfacts with hoffset
  obtain ⟨d, hd, hat⟩ := Option.map_eq_some_iff.mp hoffset
  obtain ⟨before, after, htext, _, habove, _, hbelow, hnext⟩ :=
    convert_spaced (fun _ => seamTree) seamSource _ r d hrun hd hpep8 htree hsolid
  refine ⟨htree, hsolid, r, d, hrun, hd, hpep8, hat, before, after, htext, ?_, hbelow, hnext⟩
  have habove := habove (by omega)
  rw [hat] at habove ⊢
  rw [habove, if_pos ⟨hseam.1, hsep, hseam.2⟩]

/-- **Above a definition there can be one blank line alone**: behind a carriage return, of the two
line feeds that are put in the first adds none. -/
theorem line_feed_completes_break :
    (∃ r, convert (fun _ => seamTree) seamSource { lineSeparator := some "LF" } = .ok r ∧
      r.options.pep8 = true ∧ r.definition.map (·.offset) = some 10 ∧
      r.text.slice 10 16 = "\n\ndef " ∧ r.text.blankLinesAbove 12 = 1) ∧
    max 2 (seamSource.blankLinesAbove 10) = 2 := by
  refine ⟨?_, by decide⟩
  obtain ⟨r, hrun, hfacts⟩ := ok_of_toOption seam_evaluated
  injection hfacts with hpep8 hfacts
  injection hfacts with _ hfacts
  injection hfacts with hoffset hfacts
  injection hfacts with hslice hblank
  exact ⟨r, hrun, hpep8, hoffset, hslice, hblank⟩

end Conversion

end Posonly
