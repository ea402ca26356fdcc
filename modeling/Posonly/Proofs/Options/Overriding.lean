import Posonly.Proofs.Options.Resolution

/-!
# Resolved options are final

Values are read in several spellings, and what is detected in a source is read like a given value.
What any reader gives is among the spellings that it takes, and stands for itself there
(`readIndentation_read`, `readDecorator_read`). So resolved options that are given back as values
resolve to themselves, for every source, and values that are put over them change what they say and
nothing else (`FoundOptions.Settled.look_iff`). The one exception is what the table of line
separators inherits: it is found under a name, but it is no text that could be read again
(`inherited_separator_not_final`).
-/

namespace Posonly

variable {value indent name : Text} {v : OptionValues} {source : Text} {o : FoundOptions}

/-! ## What is read is read again -/

/-- A width is read as so many spaces, a word or an escape as a tab, and both are blanks. -/
theorem readIndentation_read (h : readIndentation value = .ok indent) :
    readIndentation indent = .ok indent := by
  have hblank : indent ≠ [] ∧ indent.all Text.isSpaceOrTab = true := by
    unfold readIndentation at h
    split at h
    · -- a number of spaces that is not zero
      dsimp only at h
      split at h
      · cases h
      · rename_i hzero
        split at h
        · cases h
        · injection h with h
          obtain ⟨n, hn⟩ := Nat.exists_eq_succ_of_ne_zero hzero
          rw [← h, hn]
          refine ⟨by simp, List.all_eq_true.mpr fun u hu => ?_⟩
          rw [List.eq_of_mem_replicate hu]
          rfl
    · split at h
      · injection h with h
        rw [← h]
        exact ⟨by simp, by decide⟩
      · split at h
        · cases h
        · rename_i hgiven
          injection h with h
          rw [← h]
          simpa using hgiven
  exact readIndentation_blank hblank.1 hblank.2

theorem readDecorator_read (h : readDecorator value = .ok name) :
    readDecorator name = .ok name := by
  have hsame : value = name := by
    unfold readDecorator at h
    split at h
    · exact Except.ok.inj h
    · cases h
  rwa [hsame] at h

theorem readManglePolicy_text (policy : ManglePolicy) :
    readManglePolicy policy.text = .ok policy := by
  cases policy <;> rfl

/-! ## What a table inherits -/

/-- Something inherited is found under two names, whatever their case. No entry stands in their way.
-/
theorem readLineSeparator_inherited_iff :
    (∃ i, readLineSeparator value = .ok (.inherited i)) ↔
      value.lower = "constructor" ∨ value.lower = "__proto__" := by
  unfold readLineSeparator
  constructor
  · rintro ⟨i, h⟩
    split at h
    · rename_i found hfound
      cases h
      unfold lookUp? Inherited.ofName? at hfound
      split at hfound
      · cases hfound
      · split at hfound
        · rename_i hname
          exact .inl (by simpa using hname)
        · split at hfound
          · rename_i hname
            exact .inr (by simpa using hname)
          · cases hfound
    · cases h
  · rintro (h | h)
    · exact ⟨.function, by rw [h]; rfl⟩
    · exact ⟨.object, by rw [h]; rfl⟩

theorem OptionValues.Finds.inherited_iff (h : v.Finds source o) :
    (∃ i, o.lineSeparator = .inherited i) ↔
      ∃ name, v.lineSeparator = some (.own name) ∧
        (name.lower = "constructor" ∨ name.lower = "__proto__") := by
  have hread := h.lineSeparator
  cases hv : v.lineSeparator with
  | none =>
    -- what is detected is a separator
    rw [hv, Option.getD_none, readFoundSeparator, readLineSeparator_text] at hread
    injection hread with hread
    rw [← hread]
    simp
  | some given =>
    rw [hv, Option.getD_some] at hread
    cases given with
    | inherited i => cases hread
    | own name =>
      rw [readFoundSeparator] at hread
      simp only [Option.some.injEq, TableValue.own.injEq, exists_eq_left',
        ← readLineSeparator_inherited_iff, hread, Except.ok.injEq]

/-! ## Options given back -/

/-- Options each of which is read as itself, but for the line separator. -/
structure FoundOptions.Settled (o : FoundOptions) : Prop where
  indentation : readIndentation o.indentation = .ok o.indentation
  decorator : readDecorator o.decorator = .ok o.decorator

theorem OptionValues.Finds.settled (h : v.Finds source o) : o.Settled where
  indentation := readIndentation_read h.indentation
  decorator := readDecorator_read h.decorator

/-- One option before and behind a change: what is given for it is read, and if nothing is given it
stays as it was. -/
def Updated {α β : Type} (read : α → Except OptionError β) : Option α → β → β → Prop
  | none, before, after => after = before
  | some value, _, after => read value = .ok after

/-- Options in which those that are given are replaced by what is read, and no others. -/
structure FoundOptions.Replaced (o : FoundOptions) (given : OptionValues) (o' : FoundOptions) :
    Prop where
  indentation : Updated readIndentation given.indentation o.indentation o'.indentation
  lineSeparator : Updated readFoundSeparator given.lineSeparator o.lineSeparator o'.lineSeparator
  pep8 : Updated .ok given.pep8 o.pep8 o'.pep8
  filename : Updated .ok given.filename o.filename o'.filename
  version : Updated readVersion given.version o.version o'.version
  decorator : Updated readDecorator given.decorator o.decorator o'.decorator
  dismiss : Updated .ok given.dismiss o.dismiss o'.dismiss
  lint : Updated .ok given.lint o.lint o'.lint
  mangling : Updated readManglePolicy given.mangling o.mangling o'.mangling

section

variable {α β : Type} {read : α → Except OptionError β} {given : Option α} {kept : α}
  {before after : β}

/-- A value put over one that is read as what the option was. The default is not asked for. -/
theorem read_over_iff (h : read kept = .ok before) (default : α) :
    read ((given <|> some kept).getD default) = .ok after ↔ Updated read given before after := by
  cases given with
  | none =>
    change read kept = .ok after ↔ after = before
    rw [h, Except.ok.injEq]
    exact eq_comm
  | some value => exact Iff.rfl

theorem eq_over_iff (given : Option β) (before after default : β) :
    after = (given <|> some before).getD default ↔ Updated .ok given before after := by
  rw [← read_over_iff rfl default, Except.ok.injEq]
  exact eq_comm

end

/-- A line separator put over one that was found. One that is kept is read again, which something
inherited does not pass. -/
theorem separator_over_iff (given : Option (TableValue Text))
    (before after : TableValue LineSeparator) (default : TableValue Text) :
    readFoundSeparator ((given <|> some before.text).getD default) = .ok after ↔
      Updated readFoundSeparator given before after ∧ (given = none → ∃ s, before = .own s) := by
  cases before with
  | own s =>
    have hkept :
        readFoundSeparator (TableValue.own s).text = .ok (.own s) := readLineSeparator_text s
    rw [read_over_iff hkept]
    exact (and_iff_left fun _ => ⟨s, rfl⟩).symm
  | inherited i =>
    cases given with
    | some value => exact (and_iff_left fun h => by cases h).symm
    | none =>
      refine iff_of_false (by intro h; cases h) fun h => ?_
      obtain ⟨s, hs⟩ := h.2 rfl
      cases hs

/-- **Settled options are read again** as they were, but for those that are given anew. -/
theorem FoundOptions.Settled.look_iff (h : o.Settled) (given : OptionValues)
    (source : Text) (o' : FoundOptions) :
    (o.values.overriddenBy given).look source = .ok o' ↔
      o.Replaced given o' ∧
        (given.lineSeparator = none → ∃ s, o.lineSeparator = .own s) := by
  rw [OptionValues.look_eq_ok_iff]
  have hversion := readVersion_text o.version
  have hmangling := readManglePolicy_text o.mangling
  constructor
  · intro hr
    have hseparator := (separator_over_iff ..).mp hr.lineSeparator
    exact ⟨{
      indentation := (read_over_iff h.indentation _).mp hr.indentation
      lineSeparator := hseparator.1
      version := (read_over_iff hversion _).mp hr.version
      decorator := (read_over_iff h.decorator _).mp hr.decorator
      mangling := (read_over_iff hmangling _).mp hr.mangling
      pep8 := (eq_over_iff ..).mp hr.pep8
      filename := (eq_over_iff ..).mp hr.filename
      dismiss := (eq_over_iff ..).mp hr.dismiss
      lint := (eq_over_iff ..).mp hr.lint }, hseparator.2⟩
  · rintro ⟨hr, hkept⟩
    exact {
      indentation := (read_over_iff h.indentation _).mpr hr.indentation
      lineSeparator := (separator_over_iff ..).mpr ⟨hr.lineSeparator, hkept⟩
      version := (read_over_iff hversion _).mpr hr.version
      decorator := (read_over_iff h.decorator _).mpr hr.decorator
      mangling := (read_over_iff hmangling _).mpr hr.mangling
      pep8 := (eq_over_iff ..).mpr hr.pep8
      filename := (eq_over_iff ..).mpr hr.filename
      dismiss := (eq_over_iff ..).mpr hr.dismiss
      lint := (eq_over_iff ..).mpr hr.lint }

/-- With nothing put over them, options stay what they are. -/
theorem FoundOptions.replaced_refl_iff (o o' : FoundOptions) :
    o.Replaced {} o' ↔ o' = o := by
  constructor
  · intro h
    obtain ⟨h1, h2, h3, h4, h5, h6, h7, h8, h9⟩ := h
    cases o
    cases o'
    simp_all [Updated]
  · rintro rfl
    exact ⟨rfl, rfl, rfl, rfl, rfl, rfl, rfl, rfl, rfl⟩

/-- **Resolved options are final, unless their line separator is none.** Whether values resolve does
not hang on the source. What they resolve to has no line separator exactly if the values name
something inherited, and otherwise it resolves to itself for every source. Whatever values are put
over it, they resolve if and only if those can be read and no separator is kept that is none, and
then to the same options but for what was read. -/
theorem OptionValues.look_final (v : OptionValues) (source other : Text) :
    ((∃ o, v.look source = .ok o) ↔ ∃ o, v.look other = .ok o) ∧
    ∀ o, v.look source = .ok o →
      ((∃ i, o.lineSeparator = .inherited i) ↔
        ∃ name, v.lineSeparator = some (.own name) ∧
          (name.lower = "constructor" ∨ name.lower = "__proto__")) ∧
      (o.values.look other = .ok o ↔ ∃ s, o.lineSeparator = .own s) ∧
      ∀ given o', (o.values.overriddenBy given).look other = .ok o' ↔
        o.Replaced given o' ∧
          (given.lineSeparator = none → ∃ s, o.lineSeparator = .own s) := by
  refine ⟨⟨fun h => ?_, fun h => ?_⟩, fun o h => ?_⟩
  · obtain ⟨o, h⟩ := h
    obtain ⟨i, s, h', -⟩ := look_elsewhere h other
    exact ⟨_, h'⟩
  · obtain ⟨o, h⟩ := h
    obtain ⟨i, s, h', -⟩ := look_elsewhere h source
    exact ⟨_, h'⟩
  · have hfinds := look_eq_ok_iff.mp h
    have hover := hfinds.settled.look_iff
    refine ⟨hfinds.inherited_iff, ?_, fun given o' => hover given other o'⟩
    have hself := hover {} other o
    rw [FoundOptions.replaced_refl_iff] at hself
    exact hself.trans ⟨fun h => h.2 rfl, fun h => ⟨rfl, fun _ => h⟩⟩

theorem OptionValues.look_final_detected :
    ∃ o, { lineSeparator := some "CrLf", decorator := some "check" : OptionValues }.look
        "if x:\n   y\n" = .ok o ∧
      o.indentation = Text.ofString "   " ∧ o.lineSeparator = .own .crlf ∧
      o.values.look "if x:\r\ty" = .ok o ∧
      (o.values.overriddenBy
          { indentation := some "TAB", dismiss := some true }).look "if x:\r  y" =
        .ok { o with indentation := [Text.tab], dismiss := true } := by
  have hrun : { lineSeparator := some "CrLf", decorator := some "check" : OptionValues }.look
      "if x:\n   y\n" =
        .ok ⟨"   ", .own .crlf, true, unknownFilename, .v312, "check", false, false, .all⟩ := by
    rw [look_eq_ok_iff]
    exact ⟨rfl, rfl, rfl, rfl, rfl, rfl, rfl, rfl, rfl⟩
  have hfinal := ((look_final _ _ "if x:\r\ty").2 _ hrun).2.1
  have hover := ((look_final _ _ "if x:\r  y").2 _ hrun).2.2
    { indentation := some "TAB", dismiss := some true }
  exact ⟨_, hrun, rfl, rfl, hfinal.mpr ⟨.crlf, rfl⟩,
    (hover _).mpr ⟨⟨rfl, rfl, rfl, rfl, rfl, rfl, rfl, rfl, rfl⟩, fun _ => ⟨.crlf, rfl⟩⟩⟩

/-- A name that is inherited resolves, but what it resolves to does not resolve again. -/
theorem OptionValues.inherited_separator_not_final :
    ∃ o, { lineSeparator := some "__proto__" : OptionValues }.look [] = .ok o ∧
      o.lineSeparator = .inherited .object ∧
      o.values.look [] = .error ⟨"linesep", .notAText⟩ := by
  refine ⟨⟨"    ", .inherited .object, true, unknownFilename, .v312, defaultDecorator, false, false,
    .all⟩, ?_, rfl, rfl⟩
  rw [look_eq_ok_iff]
  exact ⟨rfl, rfl, rfl, rfl, rfl, rfl, rfl, rfl, rfl⟩

end Posonly
