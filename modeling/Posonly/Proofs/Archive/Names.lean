import Posonly.Batch.Task
import Posonly.Files.Discovery
import Posonly.Proofs.Files.Lookup

/-!
# Names with tokens in them

The names of copies and of temporary files hold a token. The end of a name tells which of the two it
belongs to (`CopyName.not_temporary`), and a copy's name tells its token (`CopyName.token_unique`).
Names of sources are never those of temporary files or of the manifest.
-/

open List Posonly.Path Posonly.Text

namespace Posonly

/-- The shape of a token: digits of base sixteen with dashes between them. -/
structure IsToken (token : Text) : Prop where
  length : token.length = 36
  units : ∀ u ∈ token, u ∈ ofString "0123456789abcdef-"

instance (token : Text) : Decidable (IsToken token) :=
  decidable_of_iff (token.length = 36 ∧ ∀ u ∈ token, u ∈ ofString "0123456789abcdef-")
    ⟨fun ⟨h₁, h₂⟩ => ⟨h₁, h₂⟩, fun h => ⟨h.1, h.2⟩⟩

/-- The tokens that are handed out from one count up to another are all different, and none of them
occurs in a known name. -/
structure FreshTokens (supply : Nat → Supply) (known : Text → Prop) (start stop : Nat) : Prop where
  shaped : ∀ i, start ≤ i → i < stop → IsToken (supply i).token
  distinct : ∀ i j, start ≤ i → i < stop → start ≤ j → j < stop →
    (supply i).token = (supply j).token → i = j
  unknown : ∀ i, start ≤ i → i < stop → ∀ n, known n → ¬ (supply i).token <:+: n

/-- What stands behind the last dot of the name of a source. -/
def SourceEnding (e : Text) : Prop :=
  dot ∉ e ∧ lower (dot :: e) ∈ sourceExtensions

/-- A name that ends like that of a source. -/
def SourceName (n : Text) : Prop := ∃ s e, n = s ++ dot :: e ∧ SourceEnding e

/-- The name of a copy with a token in it, ahead of the last dot or at the end. At the end no other
token may stand before it, since a dot might follow that one. -/
inductive CopyName (tokens : Text → Prop) (token : Text) : Text → Prop where
  | dotted (stem e : Text) (hdot : dot ∉ e) :
      CopyName tokens token (stem ++ "-" ++ token ++ dot :: e)
  | bare (stem : Text) (hstem : ∀ other, tokens other → ¬ other <:+: stem) :
      CopyName tokens token (stem ++ "-" ++ token)

/-- The name of a temporary file with a token in it. -/
def TemporaryName (token n : Text) : Prop := ∃ s, n = "." ++ s ++ "." ++ token ++ ".tmp"

variable {tokens : Text → Prop} {token token' n file : Text}

/-! ## Telling names apart -/

theorem last_dot_unique {s s' e e' : Text} (h : s ++ dot :: e = s' ++ dot :: e')
    (he : dot ∉ e) (he' : dot ∉ e') : s = s' ∧ e = e' := by
  have hpieces := congrArg (Text.splitOn dot) h
  rw [splitOn_append_cons, splitOn_append_cons, splitOn_of_notMem he,
    splitOn_of_notMem he'] at hpieces
  have hlast : e = e' := by simpa using (append_inj' hpieces rfl).2
  rw [hlast] at h
  exact ⟨append_cancel_right h, hlast⟩

theorem IsToken.unit (h : IsToken token) {u : UInt16} (hu : u ∈ token) :
    u ≠ slash ∧ u ≠ dot ∧ u ≠ 0x70 ∧ u ≠ 0 ∧ isSurrogate u = false := by
  have hall : ∀ v ∈ ofString "0123456789abcdef-", v ≠ slash ∧ v ≠ dot ∧ v ≠ 0x70 ∧
      v ≠ 0 ∧ isSurrogate v = false := by decide
  exact hall u (h.units u hu)

theorem IsToken.paired (h : IsToken token) : token.Paired :=
  paired_of_forall fun _ hu => (h.unit hu).2.2.2.2

/-- If a name ends in a token, whatever stands ahead of a dot in it stands in the stem. -/
theorem prefix_of_bare {stem p e : Text} (h : stem ++ "-" ++ token = p ++ dot :: e)
    (ht : IsToken token) : p <+: stem := by
  rw [append_assoc, append_eq_append_iff] at h
  rcases h with ⟨rest, _, hrest⟩ | ⟨rest, hrest, _⟩
  · -- the dot would stand in the dash and the token
    have hdot : dot ∈ ("-" : String) ++ token := by
      rw [hrest]
      simp
    rcases mem_append.mp hdot with hdash | hmem
    · exact absurd hdash (by decide)
    · exact absurd rfl (ht.unit hmem).2.1
  · exact ⟨rest, hrest.symm⟩

theorem TemporaryName.getLast? (h : TemporaryName token n) : n.getLast? = some 0x70 := by
  obtain ⟨s, rfl⟩ := h
  have htmp : ((".tmp" : String) : Text) = ofString ".tm" ++ [0x70] := rfl
  rw [htmp, ← append_assoc, getLast?_concat]

section

variable (h : CopyName tokens token n)

include h

theorem CopyName.token_unique (h' : CopyName tokens token' n)
    (ht : IsToken token) (ht' : IsToken token') (hmem : tokens token) (hmem' : tokens token') :
    token = token' := by
  have hlength := ht.length.trans ht'.length.symm
  generalize hn : n = m at h'
  -- with a dot behind one token only, that token would stand in the stem of the other name
  cases h with
  | dotted stem e hdot =>
    cases h' with
    | dotted stem' e' hdot' => exact (append_inj' (last_dot_unique hn hdot hdot').1 hlength).2
    | bare stem' hstem' =>
      have hinside := prefix_of_bare hn.symm ht'
      exact absurd ((suffix_append ..).isInfix.trans hinside.isInfix) (hstem' token hmem)
  | bare stem hstem =>
    cases h' with
    | dotted stem' e' _ =>
      have hinside := prefix_of_bare hn ht
      exact absurd ((suffix_append ..).isInfix.trans hinside.isInfix) (hstem token' hmem')
    | bare stem' _ => exact (append_inj' hn hlength).2

theorem CopyName.contains : token <:+: n := by
  cases h with
  | dotted stem e _ => exact ⟨_, _, rfl⟩
  | bare stem _ => exact (suffix_append ..).isInfix

theorem CopyName.not_temporary (ht : IsToken token)
    (ht' : IsToken token') : ¬ TemporaryName token' n := by
  rintro ⟨s, hs⟩
  have htmp : ((".tmp" : String) : Text) = dot :: ofString "tmp" := rfl
  cases h with
  | dotted stem e hdot =>
    rw [htmp] at hs
    -- the same token ahead of the last dot, but behind a dash and behind a dot
    have hstem := (last_dot_unique hs hdot (by decide)).1
    have hmark := congrArg List.getLast? (append_inj' hstem (ht.length.trans ht'.length.symm)).1
    have hdash : (("-" : String) : Text) = [0x2D] := rfl
    have hpoint : (("." : String) : Text) = [0x2E] := rfl
    rw [hdash, hpoint, getLast?_concat, getLast?_concat] at hmark
    exact absurd hmark (by decide)
  | bare stem _ =>
    have hmem : (0x70 : UInt16) ∈ token := by
      have hlast := TemporaryName.getLast? ⟨s, hs⟩
      rw [getLast?_append] at hlast
      cases hend : token.getLast? with
      | none =>
        have hlength := ht.length
        rw [getLast?_eq_none_iff.mp hend] at hlength
        cases hlength
      | some u =>
        rw [hend, Option.some_or, Option.some.injEq] at hlast
        exact hlast ▸ mem_of_getLast? hend
    exact (ht.unit hmem).2.2.1 rfl

/-- A copy is never taken for the manifest, whose name is shorter than a token. -/
theorem CopyName.ne_manifest (ht : IsToken token) : n ≠ Archive.manifestName := by
  rintro rfl
  have hlength := h.contains.length_le
  rw [ht.length] at hlength
  exact absurd hlength (by decide)

end

theorem TemporaryName.contains (h : TemporaryName token n) : token <:+: n := by
  obtain ⟨s, rfl⟩ := h
  exact ⟨_, _, rfl⟩

theorem SourceName.ne_of_ending {s e : Text} (h : SourceName n) (hdot : dot ∉ e)
    (hext : lower (dot :: e) ∉ sourceExtensions) : n ≠ s ++ dot :: e := by
  obtain ⟨s', e', rfl, he⟩ := h
  intro heq
  have hend := (last_dot_unique heq he.1 hdot).2
  exact hext (hend ▸ he.2)

theorem SourceName.not_temporary (h : SourceName n) : ¬ TemporaryName token n := by
  rintro ⟨s, heq⟩
  exact h.ne_of_ending (e := ofString "tmp") (by decide) (by decide) heq

theorem SourceName.ne_manifest (h : SourceName n) : n ≠ Archive.manifestName :=
  h.ne_of_ending (s := ofString "manifest")
    (e := ofString "jsonl") (by decide) (by decide)

theorem TemporaryName.ne_manifest (h : TemporaryName token n) : n ≠ Archive.manifestName := by
  rintro rfl
  exact absurd h.getLast? (by decide)

/-! ## The names that are made -/

theorem extension_of_isSource (h : isSource file) : ∃ s e, basename file = s ++ dot :: e ∧
    extension file = dot :: e ∧ SourceEnding e := by
  have hsource : (extension file).lower ∈ sourceExtensions := by simpa [isSource] using h
  rcases extension_cases file with hnone | ⟨s, e, hname, hdot, hext⟩
  · rw [hnone] at hsource
    exact absurd hsource (by decide)
  · rw [hext] at hsource
    exact ⟨s, e, hname, hext, hdot, hsource⟩

theorem sourceName_basename (h : isSource file) : SourceName (basename file) := by
  obtain ⟨s, e, hname, _, he⟩ := extension_of_isSource h
  exact ⟨s, e, hname, he⟩

theorem isName_basename (h : isSource file) : IsName (basename file) := by
  have hname := sourceName_basename h
  refine ⟨fun hnil => ?_, ?_, ?_, slash_notMem_basename file⟩
  · rw [hnil] at hname
    obtain ⟨s, e, heq, _⟩ := hname
    simp at heq
  · exact hname.ne_of_ending (s := []) (e := []) (by simp) (by decide)
  · exact hname.ne_of_ending (s := [dot]) (e := []) (by simp) (by decide)

/-- A source is one by its last component, which a shorter form of its path keeps. -/
theorem isSource_normalize (h : isSource file) : isSource (normalize file) := by
  have hbase := basename_normalize_of_isName (isName_basename h)
  have hext : extension (normalize file) = extension file := by
    unfold extension
    rw [hbase]
  rwa [isSource, hext]

/-- **The place that the path of a source spells** has the last component of the path for a name. -/
theorem target_of_isSource {path : Text} (base : Text) (h : isSource (normalize path)) :
    ∃ parent, target base (normalize path) =
      parent ++ [basename (normalize path)] := by
  have hne : simplify (!isAbsolute path) path ≠ [] := by
    intro hnil
    have hall : ∀ q ∈ [[dot], [slash], [dot, slash]], isSource q = false := by
      decide
    rw [hall _ (normalize_short hnil)] at h
    cases h
  obtain ⟨cs, hcs⟩ := basename_normalize hne
  have hmem : basename (normalize path) ∈ simplify (!isAbsolute path) path := by
    rw [hcs]
    simp
  rcases (stacked_simplify _ path).names _ (mem_reverse.mpr hmem) with hname | ⟨hup, _⟩
  · exact target_normalize base hname hne
  · obtain ⟨s, e, hbase, _, he⟩ := extension_of_isSource h
    rw [hup] at hbase
    exact absurd hbase
      (SourceName.ne_of_ending (s := [dot]) (e := []) ⟨s, e, rfl, he⟩ (by simp)
      (by decide) ∘ Eq.symm)

theorem copyName_copyName
    (h : extension file ≠ [] ∨ ∀ other, tokens other → ¬ other <:+: basename file) :
    CopyName tokens token (Archive.copyName file token) := by
  rw [Archive.copyName]
  have hparts := stem_append_extension file
  rcases extension_cases file with hnone | ⟨s, e, _, hdot, hext⟩
  · rw [hnone, append_nil] at hparts ⊢
    rw [← hparts] at h
    exact .bare _ (h.resolve_left (not_not_intro hnone))
  · rw [hext]
    exact .dotted _ e hdot

/-- Units that can stand in a name. -/
structure Plain (t : Text) : Prop where
  units : ∀ u ∈ t, u ≠ slash ∧ u ≠ 0
  paired : t.Paired

theorem Plain.append {t t' : Text} (h : Plain t) (h' : Plain t') : Plain (t ++ t') where
  units u hu := (mem_append.mp hu).elim (h.units u) (h'.units u)
  paired := h.paired.append h'.paired

theorem Plain.spelled (h : Plain n) (hlength : 2 < n.length) : Spelled n where
  nonempty := by rintro rfl; exact absurd hlength (by decide)
  notDot := by rintro rfl; exact absurd hlength (by decide)
  notUp := by rintro rfl; exact absurd hlength (by decide)
  noSlash := fun hu => (h.units _ hu).1 rfl
  noZero := fun hu => (h.units _ hu).2 rfl
  paired := h.paired

theorem Spelled.plain (h : Spelled n) : Plain n where
  units _ hu := ⟨fun heq => h.noSlash (heq ▸ hu), fun heq => h.noZero (heq ▸ hu)⟩
  paired := h.paired

theorem IsToken.plain (h : IsToken token) : Plain token where
  units _ hu := ⟨(h.unit hu).1, (h.unit hu).2.2.2.1⟩
  paired := h.paired

theorem spelled_manifestName : Spelled Archive.manifestName :=
  Plain.spelled ⟨by decide, by decide⟩ (by decide)

theorem spelled_copyName (hname : Spelled (basename file)) (ht : IsToken token) :
    Spelled (Archive.copyName file token) := by
  have hwhole := hname.plain
  rw [← stem_append_extension file] at hwhole
  have hpaired : (stem file).Paired ∧ (extension file).Paired := by
    have hboth := hwhole.paired
    rcases extension_cases file with hnone | ⟨s, e, _, _, hext⟩
    · rw [hnone, append_nil] at hboth
      exact ⟨hboth, hnone ▸ paired_nil⟩
    · rw [hext, paired_append_cons (by decide)] at hboth
      rw [hext, ← nil_append (dot :: e), paired_append_cons (by decide)]
      exact ⟨hboth.1, paired_nil, hboth.2⟩
  have hstem : Plain (stem file) :=
    ⟨fun u hu => hwhole.units u (mem_append_left _ hu), hpaired.1⟩
  have hext : Plain (extension file) :=
    ⟨fun u hu => hwhole.units u (mem_append_right _ hu), hpaired.2⟩
  have hdash : Plain (("-" : String) : Text) := ⟨by decide, by decide⟩
  refine Plain.spelled (((hstem.append hdash).append ht.plain).append hext) ?_
  have := ht.length
  simp only [Archive.copyName, length_append]
  omega

theorem spelled_temporary (hname : Spelled n) (ht : IsToken token) :
    Spelled ("." ++ n ++ "." ++ token ++ ".tmp") := by
  have hdot : Plain (("." : String) : Text) := ⟨by decide, by decide⟩
  have htmp : Plain ((".tmp" : String) : Text) := ⟨by decide, by decide⟩
  refine Plain.spelled ((((hdot.append hname.plain).append hdot).append ht.plain).append htmp) ?_
  have := ht.length
  simp only [length_append]
  omega

/-- A path that is put together from the directory of a file and a name has nothing else in it than
the path of the file and dots. -/
theorem components_join_dirname (file : Text) (hn : IsName n) :
    ∃ cs, components (join (dirname file) n) = cs ++ [n] ∧
      ∀ c ∈ cs, c ∈ [[], [dot], up] ∨ c ∈ components file := by
  have hdir : dirname file ≠ [] ∧ ∀ c ∈ components (dirname file),
      c ∈ [[], [dot], up] ∨ c ∈ components file := by
    rcases dirname_cases file with hshort | ⟨hne, rest, hrest⟩
    · have hall : ∀ p ∈ [[slash], [dot], [slash, slash]],
          p ≠ [] ∧ ∀ c ∈ components p, c ∈ [[], [dot], up] := by decide
      obtain ⟨hne, hcs⟩ := hall _ hshort
      exact ⟨hne, fun c hc => .inl (hcs c hc)⟩
    · refine ⟨hne, fun c hc => .inr ?_⟩
      rw [hrest, components_append]
      exact mem_append_left _ hc
  refine ⟨_, components_join hdir.1 hn, fun c hc => ?_⟩
  rcases mem_append.mp hc with hc | hc
  · split at hc
    · rw [mem_singleton.mp hc]
      exact .inl (by decide)
    · cases hc
  · rcases mem_simplify hc with rfl | hc
    · exact .inl (by decide)
    · exact hdir.2 c hc

/-- **The path of a temporary file** ends in its name, and has nothing in it that cannot be stored.
-/
theorem temporaryPath_spec {task : Task} (hname : Spelled (basename task.file))
    (hpaired : task.file.Paired) (ht : IsToken token) :
    ∃ n cs, TemporaryName token n ∧ Spelled n ∧ (task.temporaryPath token).Paired ∧
      components (task.temporaryPath token) = cs ++ [n] := by
  have hspelled := spelled_temporary hname ht
  obtain ⟨cs, hcomponents, hcs⟩ := components_join_dirname task.file hspelled.toIsName
  refine ⟨_, cs, ⟨_, rfl⟩, hspelled, ?_, hcomponents⟩
  rw [Task.temporaryPath, paired_iff_components, hcomponents]
  intro c hc
  rcases mem_append.mp hc with hc | hc
  · rcases hcs c hc with hdots | hfile
    · have hall : ∀ d ∈ [[], [dot], up], Text.Paired d := by decide
      exact hall c hdots
    · exact (paired_iff_components task.file).mp hpaired c hfile
  · rw [mem_singleton.mp hc]
    exact hspelled.paired

end Posonly
