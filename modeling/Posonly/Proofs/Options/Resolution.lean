import Posonly.Options.Resolve

/-!
# Options do not hang on the source

Two options are taken from the source where they are not given. Whatever is detected there passes
the check that a given value has to pass, so options that are found for one source are found for
all, and are the same but for those two (`OptionValues.look_elsewhere`,
`OptionValues.resolve_elsewhere`).
-/

namespace Posonly

variable {ε α : Type} {v : OptionValues} {source : Text} {o : Options} {x : Except ε α}

theorem bind_eq_ok {β : Type} {f : α → Except ε β} {b : β} :
    (x >>= f) = .ok b ↔ ∃ a, x = .ok a ∧ f a = .ok b := by
  cases x <;> simp [bind, Except.bind]

theorem mapError_eq_ok {ε' : Type} {f : ε → ε'} {a : α} :
    x.mapError f = .ok a ↔ x = .ok a := by
  cases x with
  | error e => exact iff_of_false (by intro h; cases h) (by intro h; cases h)
  | ok b => constructor <;> intro h <;> cases h <;> rfl

/-- What is computed of a result tells that there is one. -/
theorem ok_of_toOption {β : Type} {f : α → β} {b : β}
    (h : x.toOption.map f = some b) : ∃ a, x = .ok a ∧ f a = b := by
  cases x with
  | error e => cases h
  | ok a => exact ⟨a, rfl, Option.some.inj h⟩

/-! ## What is detected -/

theorem readLineSeparator_text (s : LineSeparator) : readLineSeparator s.text = .ok (.own s) := by
  cases s <;> rfl

theorem readVersion_text (v : PythonVersion) : readVersion v.text = .ok v := by
  cases v <;> rfl

/-- Blanks are read as they are: they are no number, and no word for a tab. -/
theorem readIndentation_blank {value : Text} (hne : value ≠ [])
    (hblank : value.all Text.isSpaceOrTab = true) : readIndentation value = .ok value := by
  obtain ⟨u, rest, rfl⟩ := List.exists_cons_of_ne_nil hne
  have hu : u = Text.space ∨ u = Text.tab := by
    have := (List.all_eq_true.mp hblank) u (by simp)
    simpa [Text.isSpaceOrTab] using this
  have hdigits : Text.isDigits (u :: rest) = false := by
    rcases hu with rfl | rfl <;> simp [Text.isDigits, Text.space, Text.tab]
  have hword : (Text.lower (u :: rest) == "tab" || u :: rest == "\\t") = false := by
    rcases hu with rfl | rfl <;> rfl
  unfold readIndentation
  rw [hdigits, hword, hblank]
  rfl

theorem detectIndentationIn_blank {opened : Bool} {lines : List Text} {indent : Text}
    (h : detectIndentationIn opened lines = some indent) :
    indent ≠ [] ∧ indent.all Text.isSpaceOrTab = true := by
  induction lines generalizing opened with
  | nil => cases h
  | cons line rest ih =>
    rw [detectIndentationIn] at h
    dsimp only at h
    split at h
    · exact ih h
    · split at h
      · rename_i hfound
        injection h with h
        rw [← h]
        refine ⟨fun hnil => ?_, List.all_takeWhile⟩
        rw [hnil] at hfound
        exact absurd hfound (by simp)
      · exact ih h

theorem detected_blank (source : Text) : (detectIndentation? source).getD defaultIndentation ≠ [] ∧
      ((detectIndentation? source).getD defaultIndentation).all Text.isSpaceOrTab = true := by
  cases h : detectIndentation? source with
  | none => exact ⟨by decide, by decide⟩
  | some indent => exact detectIndentationIn_blank h

/-- **What is taken from a source passes as if it were given**, and stays as it is. -/
theorem readIndentation_detected (source : Text) :
    readIndentation ((detectIndentation? source).getD defaultIndentation) =
      .ok ((detectIndentation? source).getD defaultIndentation) :=
  readIndentation_blank (detected_blank source).1 (detected_blank source).2

/-! ## Resolving -/

/-- The options that values stand for: what is given is read, and the rest is by default. -/
structure OptionValues.Finds (v : OptionValues) (source : Text) (o : FoundOptions) : Prop where
  indentation : readIndentation
    (v.indentation.getD ((detectIndentation? source).getD defaultIndentation)) = .ok o.indentation
  lineSeparator : readFoundSeparator
    (v.lineSeparator.getD ((detectLineSeparator? source).getD .lf).text) = .ok o.lineSeparator
  version : readVersion (v.version.getD defaultVersion.text) = .ok o.version
  decorator : readDecorator (v.decorator.getD defaultDecorator) = .ok o.decorator
  mangling : readManglePolicy (v.mangling.getD ManglePolicy.all.text) = .ok o.mangling
  pep8 : o.pep8 = v.pep8.getD true
  filename : o.filename = v.filename.getD unknownFilename
  dismiss : o.dismiss = v.dismiss.getD false
  lint : o.lint = v.lint.getD false

theorem OptionValues.look_eq_ok_iff {o : FoundOptions} :
    v.look source = .ok o ↔ v.Finds source o := by
  unfold OptionValues.look
  constructor
  · intro h
    obtain ⟨i, hi, h⟩ := bind_eq_ok.mp h
    obtain ⟨s, hs, h⟩ := bind_eq_ok.mp h
    obtain ⟨version, hversion, h⟩ := bind_eq_ok.mp h
    obtain ⟨decorator, hdecorator, h⟩ := bind_eq_ok.mp h
    obtain ⟨mangling, hmangling, h⟩ := bind_eq_ok.mp h
    cases h
    exact ⟨hi, hs, hversion, hdecorator, hmangling, rfl, rfl, rfl, rfl⟩
  · intro h
    obtain ⟨indentation, separator, pep8, filename, version, decorator, dismiss, lint, mangling⟩ :=
      o
    obtain ⟨hi, hs, hversion, hdecorator, hmangling, rfl, rfl, rfl, rfl⟩ := h
    exact bind_eq_ok.mpr ⟨_, hi, bind_eq_ok.mpr ⟨_, hs, bind_eq_ok.mpr ⟨_, hversion,
      bind_eq_ok.mpr ⟨_, hdecorator, bind_eq_ok.mpr ⟨_, hmangling, rfl⟩⟩⟩⟩⟩

/-- Values resolve to the options that are found with a line separator of their own. -/
theorem OptionValues.resolve_eq_ok_iff : v.resolve source = .ok o ↔ v.Finds source o.found := by
  rw [← look_eq_ok_iff]
  unfold OptionValues.resolve
  constructor
  · intro h
    obtain ⟨found, hfound, h⟩ := bind_eq_ok.mp h
    rw [hfound]
    cases hs : found.lineSeparator with
    | inherited i =>
      rw [hs] at h
      cases h
    | own separator =>
      rw [hs] at h
      cases h
      dsimp only [Options.found]
      rw [← hs]
  · intro h
    rw [h]
    rfl

/-- **Options that are found for one source are found for every other**, and they are the same but
for the indentation and the line separator. A separator that is given is the same too. -/
theorem OptionValues.look_elsewhere {o : FoundOptions} (h : v.look source = .ok o) (other : Text) :
    ∃ i s, v.look other = .ok { o with indentation := i, lineSeparator := s } ∧
      ((∃ own, o.lineSeparator = .own own) → ∃ own, s = .own own) := by
  have h := look_eq_ok_iff.mp h
  have hi : ∃ i, readIndentation
      (v.indentation.getD ((detectIndentation? other).getD defaultIndentation)) = .ok i := by
    cases hv : v.indentation with
    | none => exact ⟨_, readIndentation_detected other⟩
    | some given =>
      have hgiven := h.indentation
      rw [hv] at hgiven
      exact ⟨_, hgiven⟩
  have hs : ∃ s, readFoundSeparator
      (v.lineSeparator.getD ((detectLineSeparator? other).getD .lf).text) = .ok s ∧
        ((∃ own, o.lineSeparator = .own own) → ∃ own, s = .own own) := by
    cases hv : v.lineSeparator with
    | none => exact ⟨_, readLineSeparator_text _, fun _ => ⟨_, rfl⟩⟩
    | some given =>
      have hgiven := h.lineSeparator
      rw [hv] at hgiven
      exact ⟨_, hgiven, id⟩
  obtain ⟨i, hi⟩ := hi
  obtain ⟨s, hs, hown⟩ := hs
  exact ⟨i, s, look_eq_ok_iff.mpr { h with indentation := hi, lineSeparator := hs }, hown⟩

theorem OptionValues.resolve_elsewhere (h : v.resolve source = .ok o) (other : Text) :
    ∃ i s, v.resolve other = .ok { o with indentation := i, lineSeparator := s } := by
  obtain ⟨i, s, hlook, hown⟩ := look_elsewhere (look_eq_ok_iff.mpr (resolve_eq_ok_iff.mp h)) other
  obtain ⟨own, rfl⟩ := hown ⟨_, rfl⟩
  exact ⟨i, own, resolve_eq_ok_iff.mpr (look_eq_ok_iff.mp hlook)⟩

theorem OptionValues.resolve_lint (h : v.resolve source = .ok o) (b : Bool) :
    { v with lint := some b }.resolve source = .ok { o with lint := b } :=
  resolve_eq_ok_iff.mpr { resolve_eq_ok_iff.mp h with lint := rfl }

end Posonly
