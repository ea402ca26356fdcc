import Posonly.Proofs.Batch.Prepared
import Posonly.Proofs.Files.Agreement

/-!
# Trees at a level

While the tasks of a batch take turns, its tree is at one of three levels, up to the bytes of files
and up to files that have a token in their name (`Scene.At`). On such a tree, whoever has acted
before, every path that a task uses leads to the same place: that of its file (`At.together_file`),
of the manifest (`At.together_manifest`), of a copy (`At.together_copy`) and of a temporary file
(`At.together_temporary`).
-/

open List Posonly.FileTree Posonly.Path

namespace Posonly.Scene

/-- A batch of different files, none of which is the manifest. -/
structure Proper (s : Scene) : Prop extends Prepared s where
  /-- A path leads to a file, or to none even when there is an archive. -/
  files : ∀ file ∈ s.files, (∃ place bytes, s.Leads file place bytes) ∨
    ∃ e, ∀ k, (s.level k).read s.directory file = .error e
  apart : ∀ (i j : Nat) file other place bytes bytes', s.files[i]? = some file →
    s.files[j]? = some other → s.Leads file place bytes → s.Leads other place bytes' → i = j
  outside : ∀ a file place bytes node, s.archive = some a → file ∈ s.files →
    s.Leads file place bytes →
    s.made.locate s.directory a.manifest true ≠ .ok ⟨place, node⟩
  /-- If a file is given by a link, no path that is used leads over too many links. -/
  links : ∀ x, s.Entry x → (s.making s.initial.tree).1 ≠ some .tooManyLinks ∧
    ∀ path, s.Uses path → ∀ k followLast,
      (s.level k).locate s.directory path followLast ≠ .error .tooManyLinks

/-- A path that leads to no file of the batch. -/
def Elsewhere (s : Scene) (t : FileTree) (path : Text) (followLast : Bool) : Prop :=
  ∀ file place bytes, file ∈ s.files → s.Leads file place bytes → ∀ node,
    t.locate s.directory path followLast ≠ .ok ⟨place, node⟩

variable {s : Scene} {n token file : Text} {place q : Place} {bytes : Bytes} {a : Archive}
  {x : Place}

section

variable (hs : s.Proper)

include hs

/-! ## What is at each level -/

theorem Proper.target_spec {m : Place} {old : Bytes} (ha : s.archive = some a)
    (h : s.made.locateTarget s.directory a.manifest = .ok (m, old)) :
    s.made.locate s.directory a.manifest true = .ok ⟨m, s.made.get? m⟩ ∧
      (∀ c ∈ m, s.Clean c) ∧ s.made.Open m := by
  obtain ⟨node, hspot, _⟩ := locateTarget_ok h
  refine ⟨?_, hs.clean_manifest ha ⟨id, .inl⟩ hspot, open_of_locateTarget h⟩
  rwa [get?_of_locate hspot]

theorem Proper.alike_level (k : Nat) :
    Alike s.Clean (fun _ => False) (s.level k) (s.level k) := by
  rcases k with _ | _ | k
  · exact hs.alike_initial
  · exact hs.alike_made
  · rcases s.listed_cases with hsame | ⟨a, m, old, ha, _, htarget, hput⟩
    · rw [level, hsame]
      exact hs.alike_made
    · obtain ⟨_, hclean, hopen⟩ := hs.target_spec ha htarget
      rw [level, hput]
      exact hs.alike_made.put hclean hopen.ne_nil rfl (by simp)

theorem Proper.grown_listed : Grown s.made s.listed := by
  rcases s.listed_cases with hsame | ⟨a, m, old, ha, _, htarget, hput⟩
  · rw [hsame]
    exact .refl _
  · rw [hput]
    exact grown_put_file (hs.target_spec ha htarget).2.2

theorem Proper.grown_level (k : Nat) : Grown s.initial.tree (s.level k) := by
  have hmade : Grown s.initial.tree s.made := s.grown_making s.initial.tree
  rcases k with _ | _ | k
  · exact .refl _
  · exact hmade
  · exact hmade.trans hs.grown_listed

theorem Proper.nested_level (k : Nat) : (s.level k).Nested := by
  have hmade : s.made.Nested := by
    unfold made
    rcases s.making_shape with ⟨cause, hnothing⟩ | ⟨names, halong⟩
    · rw [hnothing]
      exact hs.wellFormed.nested
    · rw [halong]
      exact nested_makeAlong hs.wellFormed.nested (get?_nil _)
  rcases k with _ | _ | k
  · exact hs.wellFormed.nested
  · exact hmade
  · rcases s.listed_cases with hsame | ⟨a, m, old, ha, _, htarget, hput⟩
    · rwa [level, hsame]
    · obtain ⟨_, _, hopen⟩ := hs.target_spec ha htarget
      rw [level, hput]
      intro p n hdir
      rw [get?_put hopen.ne_nil] at hdir ⊢
      split at hdir
      · cases hdir
      · -- no directory is below a file
        have hparent := hmade p n hdir
        rw [if_neg]
        · exact hparent
        · rintro rfl
          simp [Open, hparent] at hopen

/-- **The archive is made once**: at a higher level making it gives the same and changes nothing. -/
theorem Proper.making_level (k : Nat) :
    s.making (s.level k) = ((s.making s.initial.tree).1, s.level (max k 1)) := by
  rcases k with _ | _ | k
  · rfl
  · exact s.making_made
  · rw [Nat.max_eq_left (by omega), level]
    rcases s.listed_cases with hsame | ⟨a, m, old, ha, hok, _, _⟩
    · rw [hsame]
      exact s.making_made
    · rcases s.making_shape with ⟨cause, hnothing⟩ | ⟨names, hmaking⟩
      · rw [hnothing, hnothing]
      · have hthere := s.making_made
        rw [hok, hmaking] at hthere
        rw [hok, hmaking]
        exact makeAlong_grown hs.grown_listed hthere

/-! ## Files of the batch -/

theorem Proper.clean_directory : ∀ n ∈ FileTree.placeOf s.directory, s.Clean n :=
  fun _ hn => hs.clean_of_known (.directory hn)

theorem Proper.clean_file (hfile : file ∈ s.files) : ∀ c ∈ components file, s.Clean c :=
  fun _ hc => hs.clean_of_known (.file file hfile hc)

/-- No name on the way to a file has a token in it, and the path ends in the name of the file. -/
theorem Proper.leads_spec (hfile : file ∈ s.files) (h : s.Leads file place bytes) :
    s.initial.tree.get? place = some (.file bytes) ∧ (∀ n ∈ place, s.Clean n) ∧
      s.Clean (basename file) := by
  have hnode : s.initial.tree.get? place = some (.file bytes) := get?_of_locate h
  have hne : components file ≠ [] := Text.splitOn_ne_nil slash file
  obtain ⟨cs, name, hcomponents⟩ : ∃ cs name, components file = cs ++ [name] :=
    ⟨_, _, (dropLast_append_getLast hne).symm⟩
  have hmem : name ∈ components file := by simp [hcomponents]
  have hslash := slash_notMem_component hmem
  -- the path is followed as it is stored, and ends in a name because it leads to a file
  obtain ⟨_, _, hfollow⟩ := follow_of_stored h
  rw [components_stored, hcomponents, map_append] at hfollow
  have hname := isName_of_follow hs.wellFormed (slash_notMem_storedText hslash) hfollow
  rw [basename_of_components hcomponents (isName_of_stored hslash hname)]
  exact ⟨hnode, hs.clean_place hnode, hs.clean_file hfile name hmem⟩

omit hs in
theorem Leads.unfollowed (h : s.Leads file place bytes) : ∃ x node,
    s.initial.tree.locate s.directory file false = .ok ⟨x, some node⟩ ∧ s.Own file x := by
  rcases locate_unfollowed h with hsame | ⟨x, target, hlink, _⟩
  · exact ⟨place, _, hsame, place, bytes, h, .inl rfl⟩
  · exact ⟨x, _, hlink, place, bytes, h, .inr ⟨target, hlink⟩⟩

omit hs in
/-- **The places of a file**: the one that its path leads to, or a link to it. -/
theorem Own.cases (h : s.Own file q) : ∃ place bytes, s.Leads file place bytes ∧
    (q = place ∨ s.initial.tree.LinksTo q place ∧ ∃ target,
      s.initial.tree.locate s.directory file false = .ok ⟨q, some (.link target)⟩) := by
  obtain ⟨place, bytes, hleads, rfl | ⟨target, hlink⟩⟩ := h
  · exact ⟨q, bytes, hleads, .inl rfl⟩
  · refine ⟨place, bytes, hleads, ?_⟩
    rcases locate_unfollowed hleads with hsame | ⟨x, _, hx, hto⟩
    · cases hsame.symm.trans hlink
    · have heq := hx.symm.trans hlink
      rw [Except.ok.injEq, Spot.mk.injEq] at heq
      rw [heq.1] at hto
      exact .inr ⟨hto, target, hlink⟩

omit hs in
theorem Own.get? (h : s.Own file q) : (∃ bytes, s.initial.tree.get? q = some (.file bytes)) ∨
    ∃ target, s.initial.tree.get? q = some (.link target) := by
  obtain ⟨place, bytes, hleads, rfl | ⟨target, hlink⟩⟩ := h
  · exact .inl ⟨bytes, get?_of_locate hleads⟩
  · exact .inr ⟨target, get?_of_locate hlink⟩

omit hs in
theorem Own.ne_nil (h : s.Own file q) : q ≠ [] := by
  rintro rfl
  rcases h.get? with ⟨_, hnode⟩ | ⟨_, hnode⟩ <;> cases hnode

theorem Proper.clean_own (h : s.Own file q) : ∀ n ∈ q, s.Clean n := by
  rcases h.get? with ⟨_, hnode⟩ | ⟨_, hnode⟩ <;> exact hs.clean_place hnode

/-- **Two files have no place in common**, not even the links that they are given by. -/
theorem Proper.own_unique {i j : Nat} {other : Text} (hfile : s.files[i]? = some file)
    (hother : s.files[j]? = some other) (h : s.Own file q) (h' : s.Own other q) : i = j := by
  obtain ⟨place, bytes, hleads, hq⟩ := h.cases
  obtain ⟨place', bytes', hleads', hq'⟩ := h'.cases
  have hfileAt : ∀ {p bytes target}, s.initial.tree.get? p = some (.file bytes) →
      s.initial.tree.get? p ≠ some (.link target) := by
    intro p bytes target hp hlink
    cases hp.symm.trans hlink
  obtain rfl : place = place' := by
    rcases hq with rfl | ⟨hto, _⟩ <;> rcases hq' with rfl | ⟨hto', _⟩
    · rfl
    · exact absurd hto'.choose_spec.choose_spec.choose_spec.1 (hfileAt (get?_of_locate hleads))
    · exact absurd hto.choose_spec.choose_spec.choose_spec.1 (hfileAt (get?_of_locate hleads'))
    · exact hto.eq hto'
  exact hs.apart i j file other place bytes bytes' hfile hother hleads hleads'

/-- Where a link that a file is given by leads at any level. -/
theorem Proper.linked (k : Nat) (hx : s.Entry x) : ∃ file ∈ s.files, ∃ place bytes,
    s.Leads file place bytes ∧ s.Own file x ∧ s.initial.tree.LinksTo x place ∧
      (s.level k).LinksTo x place := by
  obtain ⟨file, hfile, hown, target, hlink⟩ := hx
  obtain ⟨place, bytes, hleads, rfl | ⟨hto, _⟩⟩ := hown.cases
  · cases hlink.symm.trans (get?_of_locate hleads)
  · exact ⟨file, hfile, place, bytes, hleads, hown, hto, hto.grown (hs.grown_level k)⟩

end

/-! ## Trees at a level -/

/-- A tree is at a level, up to the bytes of files, to files that have a token in their name, and to
links that files are given by. Without an archive there is one level only. -/
structure At (s : Scene) (k : Nat) (t : FileTree) : Prop where
  alike : Alike s.Clean s.Entry (s.level k) t
  top : s.archive = none → 2 ≤ k

variable {t t' : FileTree} {k l : Nat} {followLast : Bool} {path : Text}

theorem level_of_none (h : s.archive = none) (k : Nat) : s.level k = s.initial.tree := by
  have hmade : s.made = s.initial.tree := by rw [made, making, h]
  rcases k with _ | _ | k
  · rfl
  · exact hmade
  · rwa [level, listed, h]

section

variable (hs : s.Proper) {node : FileNode}

include hs

theorem Proper.at_initial : ∃ k, s.At k s.initial.tree := by
  cases ha : s.archive with
  | none =>
    refine ⟨2, ?_, fun _ => Nat.le_refl 2⟩
    rw [level_of_none ha]
    exact hs.alike_initial.weaken
  | some a => exact ⟨0, hs.alike_initial.weaken, fun hnone => by rw [ha] at hnone; cases hnone⟩

theorem Proper.entries (k : Nat) : ∀ x, s.Entry x → ∃ q, (s.level k).LinksTo x q := by
  intro x hx
  obtain ⟨_, _, q, _, _, _, _, hto⟩ := hs.linked k hx
  exact ⟨q, hto⟩

/-- A path that is used does not lead over a link that has been replaced, unless it leads to a file
of the batch. -/
theorem At.not_diverted (huses : s.Uses path) (hother : s.Elsewhere (s.level k) path followLast)
    {r : Except FileCause Spot} : ¬ Diverted s.Entry (s.level k) t followLast
      ((s.level k).locate s.directory path followLast) r := by
  rintro ⟨x, hx, hmany | ⟨_, _, q, bytes, hlinks, hleads⟩⟩
  · exact (hs.links x hx.loose).2 path huses k followLast hmany
  · obtain ⟨file, hfile, place, bytes', hleads', _, _, hto⟩ := hs.linked k hx.loose
    rw [hlinks.eq hto] at hleads
    exact hother file place bytes' hfile hleads' _ hleads

/-- Any other path that is used leads as it does at the level. -/
theorem At.locate_level (h : s.At k t) (huses : s.Uses path)
    (hclean : ∀ c ∈ (components path).dropLast, s.Clean c)
    (hother : s.Elsewhere (s.level k) path followLast) :
    t.locate s.directory path followLast =
      ((s.level k).locate s.directory path followLast).map (Spot.on t) := by
  refine (locate_alike followLast h.alike (hs.entries k) hs.clean_directory
    fun n hn => ?_).resolve_right (At.not_diverted hs huses hother)
  rw [components_stored, ← map_dropLast] at hn
  obtain ⟨c, hc, rfl⟩ := mem_map.mp hn
  exact hs.clean_storedText (hclean c hc)

/-- A path that ends in a name with a token leads to no file of the batch. -/
theorem Proper.leads_elsewhere {u : FileTree} {cs : List Text}
    (hname : IsName (storedText n))
    (hlink : ∀ p target, u.get? (p ++ [storedText n]) ≠ some (.link target))
    (hlast : components path = cs ++ [n]) (hmark : ¬ s.Clean (storedText n)) :
    s.Elsewhere u path followLast := by
  intro file place bytes _ hleads node hlocate
  obtain ⟨p, hspot⟩ := locate_stored hname hlink hlast hlocate
  rw [Spot.mk.injEq] at hspot
  exact hmark (hs.clean_place (get?_of_locate hleads) _ (by rw [hspot.1]; simp))

/-! ## Files of the batch in such trees -/

/-- A file of the batch is there as long as the batch goes on. -/
theorem At.stays (h : s.At k t) (hleads : s.Leads file place bytes) :
    ∃ bytes', t.get? place = some (.file bytes') := by
  have hnode : s.initial.tree.get? place = some (.file bytes) := get?_of_locate hleads
  obtain ⟨_, hlevel⟩ := (hs.grown_level k).steady.file hnode
  exact h.alike.file (hs.clean_place hnode) hlevel

/-- Directories and links are as at the start, but for links that have been replaced. -/
theorem At.lasts (h : s.At k t) :
    s.initial.tree.Lasts (fun x => s.Entry x ∧ ∃ bytes, t.get? x = some (.file bytes)) t where
  directory hdir :=
    (h.alike.directory (hs.clean_place hdir)).mpr ((hs.grown_level k).steady.other hdir (by simp))
  link {q target} hlink := by
    by_cases hreplaced : Replaced s.Entry (s.level k) t q
    · exact .inr ⟨hreplaced.loose, hreplaced.file⟩
    · exact .inl ((h.alike.link (hs.clean_place hlink) hreplaced).mpr
        ((hs.grown_level k).steady.other hlink (by simp)))

/-- A path leads to its file, or to the link at its end, as before the batch. -/
theorem At.locate_unfollowed (h : s.At k t)
    (hx : s.initial.tree.locate s.directory file false = .ok ⟨x, some node⟩) :
    t.locate s.directory file false = .ok ⟨x, t.get? x⟩ := by
  refine locate_lasting (h.lasts hs) id (fun y hy => ?_) hx (by simp)
  obtain ⟨_, _, r, _, _, _, hto, _⟩ := hs.linked k hy.1
  exact ⟨r, hto, by simp⟩

/-- **A path leads to its file**, or to a file that has been moved over the link at its end. -/
theorem At.locate_file (h : s.At k t) (hfile : file ∈ s.files)
    (hleads : s.Leads file place bytes)
    (hx : s.initial.tree.locate s.directory file false = .ok ⟨x, some node⟩) :
    (∃ bytes', t.get? x = some (.file bytes')) ∧
        t.locate s.directory file true = .ok ⟨x, t.get? x⟩ ∨
      (∀ bytes', t.get? x ≠ some (.file bytes')) ∧
        t.locate s.directory file true = .ok ⟨place, t.get? place⟩ := by
  by_cases hreplaced : ∃ bytes', t.get? x = some (.file bytes')
  · obtain ⟨bytes', hnode⟩ := hreplaced
    have hlocate := h.locate_unfollowed hs hx
    rw [hnode] at hlocate
    exact .inl ⟨⟨bytes', hnode⟩, locate_steady (.refl t) (fun _ => rfl) hlocate⟩
  · have hlink : ∀ bytes', t.get? x ≠ some (.file bytes') :=
      fun bytes' hnode => hreplaced ⟨_, hnode⟩
    obtain ⟨bytes', hnode⟩ := h.stays hs hleads
    refine .inr ⟨hlink, locate_lasting (h.lasts hs) id (fun y hy => ?_) hleads (by simp [hnode])⟩
    -- no link to the same file has been replaced, since only this file is given by one
    obtain ⟨other, hother, r, old, hleads', hown, hto, _⟩ := hs.linked k hy.1
    refine ⟨r, hto, fun _ heq => ?_⟩
    subst heq
    obtain ⟨i, hi⟩ := mem_iff_getElem?.mp hfile
    obtain ⟨j, hj⟩ := mem_iff_getElem?.mp hother
    obtain rfl := hs.apart i j file other r bytes old hi hj hleads hleads'
    obtain rfl : file = other := Option.some.inj (hi.symm.trans hj)
    obtain ⟨_, _, _, rfl | ⟨_, target, hlast⟩⟩ := hown.cases
    · cases hto.choose_spec.choose_spec.choose_spec.1.symm.trans (get?_of_locate ‹_›)
    · have hsame := hx.symm.trans hlast
      rw [Except.ok.injEq, Spot.mk.injEq] at hsame
      obtain ⟨bytes'', hmoved⟩ := hy.2
      exact hlink bytes'' (hsame.1 ▸ hmoved)

/-- A path that leads to no file leads to none whatever the tasks have done. -/
theorem At.read_fails {e : FileError} (h : s.At k t) (hfile : file ∈ s.files)
    (hread : (s.level k).read s.directory file = .error e) :
    t.read s.directory file = .error e := by
  have hclean := hs.clean_file hfile
  -- no file is where the path leads, or the level would have read it
  have hlocate : t.locate s.directory file true =
      ((s.level k).locate s.directory file true).map (Spot.on t) := by
    refine h.locate_level hs (.file file hfile) (fun c hc => hclean c (dropLast_subset _ hc)) ?_
    intro other place bytes _ hleads node hnode
    obtain ⟨bytes', hlevel⟩ := (hs.grown_level k).steady.file (get?_of_locate hleads)
    rw [← get?_of_locate hnode, hlevel] at hnode
    rw [read_eq_ok_iff.mpr ⟨place, hnode⟩] at hread
    cases hread
  rw [← hread]
  unfold FileTree.read locateNode
  rw [hlocate]
  cases hlevel : (s.level k).locate s.directory file true with
  | error cause => rfl
  | ok spot =>
    obtain ⟨_, _, hfollow⟩ := follow_of_stored hlevel
    have hspot : ∀ n ∈ spot.place, s.Clean n := by
      refine follow_clean h.alike.links (fun n hn => ?_) (fun n hn => ?_) hfollow
      · split at hn
        · cases hn
        · exact hs.clean_directory n hn
      · rw [components_stored] at hn
        obtain ⟨c, hc, rfl⟩ := mem_map.mp hn
        exact hs.clean_storedText (hclean c hc)
    have hno := locate_ne_link (hs.nested_level k) hlevel
    obtain ⟨q, node⟩ := spot
    have hon := get?_of_follow hfollow
    dsimp only at hspot hno
    dsimp only [Except.map, Spot.on]
    -- both trees have the same there, files excepted
    cases node with
    | none =>
      rw [(h.alike.none hspot).mpr hon]
    | some node =>
      cases node with
      | directory => rw [(h.alike.directory hspot).mpr hon]
      | link target => exact absurd rfl (hno target)
      | file bytes =>
        rw [FileTree.read, locateNode, hlevel] at hread
        cases hread

/-- A path into the archive leads as it does when the archive has just been made. -/
theorem At.locate_archive (h : s.At k t) (hk : 1 ≤ k) (ha : s.archive = some a)
    (hn : IsName n) (huses : s.Uses (join a.root n))
    (hother : s.Elsewhere s.made (join a.root n) followLast)
    (hfound : s.made.locate s.directory (join a.root n) followLast = .error .noEntry →
      s.listed = s.made) :
    t.locate s.directory (join a.root n) followLast =
      (s.made.locate s.directory (join a.root n) followLast).map (Spot.on t) := by
  have hlevel : (s.level k).locate s.directory (join a.root n) followLast =
      (s.made.locate s.directory (join a.root n) followLast).map
        (Spot.on (s.level k)) := by
    rcases k with _ | _ | k
    · omega
    · exact (map_on_locate ..).symm
    · rw [level]
      by_cases hlisted : s.listed = s.made
      · rw [hlisted, map_on_locate]
      · exact locate_grown hs.grown_listed fun hnone => hlisted (hfound hnone)
  rw [(hs.locate_joined h.alike (hs.entries k) ha hn followLast).resolve_right
    (At.not_diverted hs huses fun file place bytes hfile hleads node hnode => ?_), hlevel]
  · cases s.made.locate s.directory (join a.root n) followLast <;> rfl
  · rw [hlevel] at hnode
    cases hspot : s.made.locate s.directory (join a.root n) followLast with
    | error cause =>
      rw [hspot] at hnode
      cases hnode
    | ok spot =>
      rw [hspot, Except.map, Except.ok.injEq, Spot.on, Spot.mk.injEq] at hnode
      refine hother file place bytes hfile hleads spot.node ?_
      rw [hspot, ← hnode.1]

/-! ## Where the paths of a task lead -/

/-- The path of a file leads to one place in two trees that have the same at its places. -/
theorem At.together_file (h : s.At k t) (h' : s.At l t') (hfile : file ∈ s.files)
    (hleads : s.Leads file place bytes) (hsame : ∀ q, s.Own file q → t'.get? q = t.get? q) :
    Together s.directory file followLast
      (fun q => s.Own file q ∧ (followLast = true → ∃ bytes, t.get? q = some (.file bytes)))
        t t' := by
  obtain ⟨x, node, hx, hown⟩ := hleads.unfollowed
  cases followLast with
  | false =>
    exact .leads x ⟨hown, by simp⟩ (h.locate_unfollowed hs hx) (h'.locate_unfollowed hs hx)
  | true =>
    rcases h.locate_file hs hfile hleads hx, h'.locate_file hs hfile hleads hx with
      ⟨⟨hmoved, hlocate⟩ | ⟨hlink, hlocate⟩, ⟨hmoved', hlocate'⟩ | ⟨hlink', hlocate'⟩⟩
    · exact .leads x ⟨hown, fun _ => hmoved⟩ hlocate hlocate'
    · rw [← hsame x hown] at hmoved
      obtain ⟨_, hnode⟩ := hmoved
      exact absurd hnode (hlink' _)
    · rw [hsame x hown] at hmoved'
      obtain ⟨_, hnode⟩ := hmoved'
      exact absurd hnode (hlink _)
    · exact .leads place ⟨⟨place, bytes, hleads, .inl rfl⟩, fun _ => h.stays hs hleads⟩
        hlocate hlocate'

/-- The manifest is looked for at one place, whether or not it is there yet. -/
theorem At.together_manifest (h : s.At k t) (h' : s.At l t') (hk : 1 ≤ k) (hl : 1 ≤ l)
    (ha : s.archive = some a) :
    Together s.directory a.manifest true
      (fun q => s.made.locate s.directory a.manifest true = .ok ⟨q, s.made.get? q⟩) t t' := by
  have hname := spelled_manifestName.toIsName
  have hfound : s.made.locate s.directory a.manifest true = .error .noEntry →
      s.listed = s.made := by
    intro hnone
    rcases s.listed_cases with hsame | ⟨a', m, old, ha', _, htarget, _⟩
    · exact hsame
    · obtain rfl : a = a' := Option.some.inj (ha.symm.trans ha')
      rw [(hs.target_spec ha htarget).1] at hnone
      cases hnone
  have huses : s.Uses (join a.root Archive.manifestName) := .manifest a ha
  have hother : s.Elsewhere s.made a.manifest true :=
    fun file place bytes hfile hleads node => hs.outside a file place bytes node ha hfile hleads
  refine .of_map (fun spot hlocate => ?_) (h.locate_archive hs hk ha hname huses hother hfound)
    (h'.locate_archive hs hl ha hname huses hother hfound)
  rw [get?_of_locate hlocate]
  exact hlocate

/-- Where the manifest is, nothing has changed since the archive was made, unless a file can be
written there: then it still can. -/
theorem At.manifest_node (h : s.At k t) (hk : 1 ≤ k) (ha : s.archive = some a)
    (hq : s.made.locate s.directory a.manifest true = .ok ⟨q, s.made.get? q⟩) :
    s.made.Open q ∧ t.Open q ∨ ¬ s.made.Open q ∧ t.get? q = s.made.get? q := by
  have hclean : ∀ c ∈ q, s.Clean c := hs.clean_manifest ha ⟨id, .inl⟩ hq
  have hgrown : Grown s.made (s.level k) ∧
      (s.made.get? q = none → (s.level k).Open q) := by
    rcases k with _ | _ | k
    · omega
    · exact ⟨.refl _, .inl⟩
    · refine ⟨hs.grown_listed, fun hnone => ?_⟩
      rw [level]
      rcases s.listed_cases with hsame | ⟨a', m, old, ha', _, htarget, hput⟩
      · rw [hsame]
        exact .inl hnone
      · rw [Open, hput, get?_put (hs.target_spec ha' htarget).2.2.ne_nil]
        split
        · exact .inr ⟨_, rfl⟩
        · exact .inl hnone
  -- the manifest may be put where nothing is, and where there is a file its bytes change
  cases hnode : s.made.get? q with
  | none =>
    refine .inl ⟨.inl hnode, ?_⟩
    rcases hgrown.2 hnode with hnone | hfile
    · exact .inl ((h.alike.none hclean).mpr hnone)
    · obtain ⟨_, hfile⟩ := hfile
      exact .inr (h.alike.file hclean hfile)
  | some node =>
    cases node with
    | file bytes =>
      obtain ⟨_, hfile⟩ := hgrown.1.steady.file hnode
      exact .inl ⟨.inr ⟨bytes, hnode⟩, .inr (h.alike.file hclean hfile)⟩
    | directory =>
      refine .inr ⟨by simp [Open, hnode], ?_⟩
      exact (h.alike.directory hclean).mpr (hgrown.1.steady.other hnode (by simp))
    | link target =>
      rw [hnode] at hq
      exact absurd rfl (locate_ne_link (hs.nested_level 1) hq target)

/-- A copy is looked for at one place of the archive. -/
theorem At.together_copy (h : s.At k t) (h' : s.At l t') (hk : 1 ≤ k) (hl : 1 ≤ l)
    (ha : s.archive = some a) (hok : (s.making s.initial.tree).1 = none) (hn : IsName n)
    (huses : s.Uses (a.copyPath n)) (hmark : ¬ s.Clean (storedText n)) :
    Together s.directory (a.copyPath n) true
      (fun q => ∃ p, q = p ++ [storedText n]) t t' := by
  obtain ⟨names, hnames, hmaking, hpaths⟩ := hs.paths ha
  rcases hmaking with ⟨cause, hnothing⟩ | hmaking
  · rw [hnothing] at hok
    cases hok
  rcases hpaths n hn with ⟨cause, hfails⟩ | hfollows
  · exact .fails cause (hfails t true) (hfails t' true)
  have hthere : s.made.makeAlong [] names = (none, s.made) := by
    rw [← hmaking, s.making_made, hok]
  have hlink : ∀ p target, s.made.get? (p ++ [storedText n]) ≠ some (.link target) := by
    intro p target hlink
    obtain ⟨_, hnode⟩ := hs.alike_made.plain p _ _ hmark hlink
    cases hnode
  have hfound : s.made.locate s.directory (a.copyPath n) true ≠ .error .noEntry := by
    rw [Archive.copyPath, hfollows]
    exact follow_made (isName_stored hn) hlink (fun m hm => (hnames m hm).1) (get?_nil _) hthere
  obtain ⟨cs, hlast⟩ := components_join_last a.root hn
  have hother : s.Elsewhere s.made (join a.root n) true :=
    hs.leads_elsewhere (isName_stored hn) hlink hlast hmark
  refine .of_map (fun spot hlocate => ?_)
    (h.locate_archive hs hk ha hn huses hother (absurd · hfound))
    (h'.locate_archive hs hl ha hn huses hother (absurd · hfound))
  obtain ⟨p, rfl⟩ := locate_stored (isName_stored hn) hlink hlast hlocate
  exact ⟨p, rfl⟩

/-- A temporary file is looked for at one place once the manifest is there. -/
theorem At.together_temporary {task : Task} (h : s.At k t) (h' : s.At l t') (hk : 2 ≤ k)
    (hl : 2 ≤ l) (hfile : task.file ∈ s.files) (hfresh : s.Fresh token) :
    ∃ n, s.Marked token n ∧ ∀ followLast, Together s.directory
      (task.temporaryPath token) followLast (fun q => ∃ p, q = p ++ [n]) t t' := by
  have htoken := hs.isToken hfresh
  obtain ⟨cs, n, hlast, hn, hname, hcs⟩ := temporaryPath_last task htoken
  have hmark : s.Marked token (storedText n) := ⟨hfresh, .inr hname⟩
  have hdrop : ∀ c ∈ (components (task.temporaryPath token)).dropLast, s.Clean c := by
    rw [hlast, dropLast_concat]
    intro c hc
    rcases hcs c hc with hdots | hc
    · have hall : ∀ d ∈ [[], [dot], up], d.length < 36 := by decide
      exact hs.clean_of_short (hall c hdots)
    · exact hs.clean_file hfile c hc
  have hlevel : ∀ {j : Nat}, 2 ≤ j → s.level j = s.listed := by
    intro j hj
    obtain ⟨j, rfl⟩ : ∃ i, j = i + 2 := ⟨j - 2, by omega⟩
    rfl
  have hlink : ∀ p target, s.listed.get? (p ++ [storedText n]) ≠ some (.link target) := by
    intro p target hlink
    obtain ⟨_, hnode⟩ := (hs.alike_level 2).plain p _ _ hmark.unclean hlink
    cases hnode
  have hslash : slash ∉ n := slash_notMem_component (by rw [hlast]; simp)
  have hname' := isName_storedText htoken hn hslash
  have huses : s.Uses (task.temporaryPath token) := .temporary task token hfile hfresh
  -- every tree at such a level looks for the file where the level itself does
  have hleads : ∀ {j : Nat} {t : FileTree}, s.At j t → 2 ≤ j → ∀ followLast,
      t.locate s.directory (task.temporaryPath token) followLast =
        (s.listed.locate s.directory (task.temporaryPath token) followLast).map
          (Spot.on t) := by
    intro j t h hj followLast
    rw [← hlevel hj] at hlink ⊢
    exact h.locate_level hs huses hdrop (hs.leads_elsewhere hname' hlink hlast hmark.unclean)
  refine ⟨storedText n, hmark, fun followLast => .of_map (fun spot hlocate => ?_)
    (hleads h hk followLast) (hleads h' hl followLast)⟩
  obtain ⟨p, rfl⟩ := locate_stored hname' hlink hlast hlocate
  exact ⟨p, rfl⟩

end

end Posonly.Scene
