import Posonly.Proofs.Batch.Scene
import Posonly.Proofs.Files.Opening
import Posonly.Proofs.Files.Stored

/-!
# Scenes with new tokens

Tokens are new if they occur in no name that is there before: of a file or directory, of the target
of a link, of the working directory, of the archive or of a path of a file. From that alone it
follows that no token occurs in what making the archive adds (`alike_made`), nor where the manifest
is (`clean_manifest`), even if links lead there. What is in the archive is found at the same place
in all trees that are the same up to bytes and tokens (`locate_joined`), and the manifest that is
found when the archive has been made is the one that was there before (`read_made`).
-/

open List Posonly.FileTree Posonly.Path

namespace Posonly

namespace Scene

/-- A scene on a proper tree, with new tokens, and with an archive whose path has been resolved. -/
structure Prepared (s : Scene) : Prop where
  wellFormed : s.initial.tree.WellFormed
  tokens : FreshTokens s.supply s.Known s.initial.supplied s.stop
  root : ∀ a, s.archive = some a → ∃ base path, a.root = resolve base path

variable {s : Scene} {n token token' : Text} {q : Place} {t t' : FileTree} {a : Archive}

namespace Prepared

variable (hs : s.Prepared) {node : FileNode}

include hs

theorem isToken (h : s.Fresh token) : IsToken token := by
  obtain ⟨i, hstart, hstop, rfl⟩ := h
  exact hs.tokens.shaped i hstart hstop

theorem clean_of_known (h : s.Known n) : s.Clean n := by
  rintro _ ⟨i, hstart, hstop, rfl⟩
  exact hs.tokens.unknown i hstart hstop n h

theorem clean_of_short (h : n.length < 36) : s.Clean n := by
  intro token hfresh hinfix
  have hle := hinfix.length_le
  rw [(hs.isToken hfresh).length] at hle
  omega

theorem clean_place (h : s.initial.tree.get? q = some node) : ∀ n ∈ q, s.Clean n :=
  fun _ hn => hs.clean_of_known (.place q node h hn)

theorem clean_storedText (h : s.Clean n) : s.Clean (storedText n) := by
  intro token hfresh hinfix
  refine h token hfresh (infix_of_infix_storedText (fun v hv heq => ?_) hinfix)
  rw [heq] at hv
  have hall : (0xFFFD : UInt16) ∉ Text.ofString "0123456789abcdef-" := by decide
  exact hall ((hs.isToken hfresh).units _ hv)

theorem marked_unique (h : s.Marked token n) (h' : s.Marked token' n) : token = token' := by
  have ht := hs.isToken h.fresh
  have ht' := hs.isToken h'.fresh
  rcases h.made with hcopy | htemporary
  · rcases h'.made with hcopy' | htemporary'
    · exact hcopy.token_unique hcopy' ht ht' h.fresh h'.fresh
    · exact absurd htemporary' (hcopy.not_temporary ht ht')
  · rcases h'.made with hcopy' | htemporary'
    · exact absurd htemporary (hcopy'.not_temporary ht' ht)
    · obtain ⟨_, rfl⟩ := htemporary
      obtain ⟨_, heq⟩ := htemporary'
      have hlength := ht.length.trans ht'.length.symm
      exact (append_inj' (append_inj' heq rfl).1 hlength).2

/-! ## The archive -/

/-- **The paths of an archive**: its directories are made along some names, and what is in it is
looked up behind these names, unless the paths can lead nowhere at all. -/
theorem paths (ha : s.archive = some a) : ∃ names : List Text,
    (∀ n ∈ names, IsName n ∧ s.Clean n) ∧
      ((∃ cause, ∀ t, s.making t = (some cause, t)) ∨ ∀ t, s.making t = t.makeAlong [] names) ∧
      ∀ n, IsName n → (∃ cause, ∀ (t : FileTree) followLast,
          t.locate s.directory (join a.root n) followLast = .error cause) ∨
        ∀ (t : FileTree) followLast, t.locate s.directory (join a.root n) followLast =
            t.follow followLast linkLimit [] (names ++ [storedText n]) := by
  obtain ⟨base, path, hroot⟩ := hs.root a ha
  rw [resolve_eq] at hroot
  have hparts : ∀ n ∈ target base path, IsName n :=
    fun n hn => isName_of_mem_target hn
  -- only the names the root resolves to matter from here on
  generalize target base path = parts at hroot hparts
  have hclean : ∀ n ∈ parts, s.Clean n := by
    intro n hn
    refine hs.clean_of_known (.archive a ha ?_)
    rw [hroot, components_absolute (fun c hc => (hparts c hc).noSlash) (ne_nil_of_mem hn)]
    exact mem_cons_of_mem _ hn
  have hnames : ∀ n ∈ parts.map storedText, IsName n := by
    intro n hn
    obtain ⟨part, hpart, rfl⟩ := mem_map.mp hn
    exact isName_stored (hparts part hpart)
  refine ⟨parts.map storedText, fun n hn => ⟨hnames n hn, ?_⟩, ?_, fun n hn => ?_⟩
  · obtain ⟨part, hpart, rfl⟩ := mem_map.mp hn
    exact hs.clean_storedText (hclean part hpart)
  · have htarget : target s.directory (absolute (parts.map storedText)) =
        parts.map storedText := simplify_absolute hnames
    unfold making FileTree.makeDirectories
    rw [ha]
    dsimp only
    rw [hroot, storedText_absolute hparts]
    rw [placeOf_resolve, htarget]
    split_ifs
    · exact .inl ⟨_, fun _ => rfl⟩
    · exact .inl ⟨_, fun _ => rfl⟩
    · exact .inr fun _ => rfl
  · -- the path is absolute, so its lookup starts at the root of the tree
    have hall : ∀ m ∈ parts ++ [n], IsName m := by
      intro m hm
      rcases mem_append.mp hm with hm | hm
      · exact hparts m hm
      · rwa [mem_singleton.mp hm]
    have hslash : ∀ m ∈ (parts ++ [n]).map storedText, slash ∉ m := by
      intro m hm
      obtain ⟨part, hpart, rfl⟩ := mem_map.mp hm
      exact (isName_stored (hall part hpart)).noSlash
    rw [hroot, join_absolute hparts hn]
    unfold FileTree.locate
    rw [storedText_absolute hall]
    dsimp only
    rw [isAbsolute_absolute, if_pos rfl, components_absolute hslash (by simp), map_append]
    split_ifs
    · exact .inl ⟨_, fun _ _ => rfl⟩
    · exact .inl ⟨_, fun _ _ => rfl⟩
    · exact .inl ⟨_, fun _ _ => rfl⟩
    · exact .inr fun t followLast => follow_root

theorem alike_initial : Alike s.Clean (fun _ => False) s.initial.tree s.initial.tree := by
  have hplain : ∀ p n node, ¬ s.Clean n → s.initial.tree.get? (p ++ [n]) = some node →
      ∃ bytes, node = .file bytes :=
    fun p n node hn hnode => absurd (hs.clean_place hnode n (by simp)) hn
  exact ⟨fun _ _ => .inl rfl,
    fun p target _ hlink c hc => hs.clean_of_known (.link p target hlink hc), hplain, hplain⟩

section

variable {loose : Place → Prop} (h : Alike s.Clean loose t t')
  (hloose : ∀ x, loose x → ∃ q, t.LinksTo x q)

include h hloose

theorem making_alike : (s.making t').1 = (s.making t).1 ∧
        Alike s.Clean loose (s.making t).2 (s.making t').2 ∨
      (∃ x, loose x) ∧ (s.making t).1 = some .tooManyLinks := by
  cases ha : s.archive with
  | none =>
    rw [making, making, ha]
    exact .inl ⟨rfl, h⟩
  | some a =>
    obtain ⟨names, hnames, ⟨cause, hnothing⟩ | hmaking, _⟩ := hs.paths ha
    · rw [hnothing, hnothing]
      exact .inl ⟨rfl, h⟩
    · rw [hmaking, hmaking]
      exact makeAlong_alike h hloose (get?_nil t) (by simp) hnames

/-- **What is in the archive** is at the same place in all trees that are alike, unless its path
leads over a link that has been replaced. -/
theorem locate_joined (ha : s.archive = some a) (hn : IsName n) (followLast : Bool) :
    t'.locate s.directory (join a.root n) followLast =
        (t.locate s.directory (join a.root n) followLast).map (Spot.on t') ∨
      Diverted loose t t' followLast
        (t.locate s.directory (join a.root n) followLast)
        (t'.locate s.directory (join a.root n) followLast) := by
  obtain ⟨names, hnames, _, hpaths⟩ := hs.paths ha
  rcases hpaths n hn with ⟨cause, hfails⟩ | hfollows
  · rw [hfails, hfails]
    exact .inl rfl
  · rw [hfollows, hfollows]
    refine follow_alike followLast h hloose linkLimit (by simp) fun m hm => ?_
    rw [dropLast_concat] at hm
    exact (hnames m hm).2

end

/-- Making the archive brings no token into a name. -/
theorem alike_made : Alike s.Clean (fun _ => False) s.made s.made := by
  rcases hs.making_alike hs.alike_initial fun _ => False.elim with ⟨_, halike⟩ | ⟨⟨_, hfalse⟩, _⟩
  · exact halike
  · exact hfalse.elim

theorem unknown {place : Place} (hfresh : s.Fresh token)
    (hnode : s.made.get? (place ++ [n]) = some node) : ¬ token <:+: n := by
  intro hinfix
  -- what has a token in its name would be a file, and would have been there before
  obtain ⟨bytes, rfl⟩ :=
    hs.alike_made.plain place n node (fun hclean => hclean token hfresh hinfix) hnode
  have hbefore : s.initial.tree.get? (place ++ [n]) = some (.file bytes) := by
    rcases s.making_adds s.initial.tree (place ++ [n]) with hsame | ⟨_, hdir⟩
    · exact hsame.symm.trans hnode
    · rw [made, hdir] at hnode
      cases hnode
  exact hs.clean_place hbefore n (by simp) token hfresh hinfix

/-- **No token occurs where the manifest is**, in a tree with no other links than there are with an
archive. -/
theorem clean_manifest (ha : s.archive = some a) (hwithin : t.Lasts (fun _ => False) s.made)
    {spot : Spot} (hspot : t.locate s.directory a.manifest true = .ok spot) :
    ∀ n ∈ spot.place, s.Clean n := by
  obtain ⟨names, hnames, _, hpaths⟩ := hs.paths ha
  rcases hpaths _ spelled_manifestName.toIsName with ⟨cause, hfails⟩ | hfollows
  · rw [Archive.manifest, hfails] at hspot
    cases hspot
  · rw [Archive.manifest, hfollows] at hspot
    refine follow_clean (fun p target hp hlink => ?_) (by simp) (fun n hn => ?_) hspot
    · exact hs.alike_made.links p target hp ((hwithin.link hlink).resolve_right id)
    · rcases mem_append.mp hn with hn | hn
      · exact (hnames n hn).2
      · rw [mem_singleton.mp hn]
        exact hs.clean_storedText (hs.clean_of_short (by decide))

theorem read_made (ha : s.archive = some a) {bytes : Bytes} {q : Place}
    (h : s.made.locate s.directory a.manifest true = .ok ⟨q, some (.file bytes)⟩) :
    s.initial.tree.locate s.directory a.manifest true = .ok ⟨q, some (.file bytes)⟩ := by
  obtain ⟨names, hnames, hmaking, hpaths⟩ := hs.paths ha
  rcases hmaking with ⟨cause, hnothing⟩ | hmaking
  · rwa [made, hnothing] at h
  rcases hpaths _ spelled_manifestName.toIsName with ⟨cause, hfails⟩ | hfollows
  · rw [Archive.manifest, hfails] at h
    cases h
  rw [Archive.manifest, hfollows] at h ⊢
  rw [made, hmaking] at h
  have hgrown := grown_makeAlong s.initial.tree [] names
  by_cases hnone :
      s.initial.tree.follow true linkLimit [] (names ++ [storedText Archive.manifestName]) =
      .error .noEntry
  · exact absurd h (makeAlong_file hs.wellFormed rfl (fun n hn => (hnames n hn).1)
      (isName_stored spelled_manifestName.toIsName) hnone)
  · -- what the path leads to is the same in both trees
    rw [follow_grown hgrown hnone] at h
    cases hspot : s.initial.tree.follow true linkLimit []
        (names ++ [storedText Archive.manifestName]) with
    | error cause =>
      rw [hspot] at h
      cases h
    | ok spot =>
      obtain ⟨p, found⟩ := spot
      rw [hspot, Except.map, Except.ok.injEq, Spot.on, Spot.mk.injEq] at h
      obtain ⟨rfl, hfile⟩ := h
      have hfound := get?_of_follow hspot
      rcases makeAlong_adds s.initial.tree [] names p with hsame | ⟨_, hdir⟩
      · rw [hsame, hfound] at hfile
        rw [hfile]
      · rw [hdir] at hfile
        cases hfile

end Prepared

end Scene

end Posonly
