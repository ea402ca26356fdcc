import Mathlib.Data.List.Nodup
import Posonly.Proofs.Files.Discovery
import Posonly.Proofs.Files.Lasting
import Posonly.Proofs.Files.Stored

/-!
# Which sources are found

A directory is listed where its path leads, but a directory in it is looked up again by the joined
path, which has the dots of the first path followed as text. From the second level on joining only
puts names at the end (`Path.join_join`), so there both ways lead to the same place
(`locate_below`), and the search finds what stands below (`sourcesBelow_settled`). It ends, since
paths get longer with every level. Only the first step can go astray: behind a link, two dots lead
elsewhere than the text says (`findSources_exact`, `dots_behind_link`).
-/

open List Posonly.FileTree Posonly.Path

namespace Posonly

namespace FileTree

variable {t : FileTree} {directory dir path name : Text} {place : Place} {spot : Spot}

/-- Each place has one node at most. -/
def Distinct (t : FileTree) : Prop := (t.nodes.map Prod.fst).Nodup

instance (t : FileTree) : Decidable t.Distinct := inferInstanceAs (Decidable (List.Nodup _))

/-! ## Listing a directory -/

/-- The children of a directory are the nodes one name below it. -/
theorem mem_children (ht : t.Distinct) {node : FileNode} :
    (name, node) ∈ t.children place ↔ t.get? (place ++ [name]) = some node := by
  have hentry : (name, node) ∈ t.children place ↔ (place ++ [name], node) ∈ t.nodes := by
    rw [children, mem_filterMap]
    constructor
    · rintro ⟨⟨q, n⟩, hmem, h⟩
      dsimp only at h
      cases hlast : q.getLast? with
      | none => rw [hlast] at h; cases h
      | some last =>
        obtain ⟨rest, rfl⟩ := getLast?_eq_some_iff.mp hlast
        rw [hlast, dropLast_concat] at h
        dsimp only at h
        split at h
        · rename_i hplace
          cases h
          rwa [← beq_iff_eq.mp hplace]
        · cases h
    · intro hmem
      refine ⟨_, hmem, ?_⟩
      dsimp only
      rw [getLast?_concat]
      simp
  rw [hentry, get?, if_neg (by simp), Option.map_eq_some_iff]
  constructor
  · intro hmem
    -- no place is listed twice, so the first entry for it is this one
    have hsome : (t.nodes.find? fun entry => entry.1 == place ++ [name]).isSome :=
      find?_isSome.mpr ⟨_, hmem, beq_self_eq_true _⟩
    obtain ⟨e, hfind⟩ := Option.isSome_iff_exists.mp hsome
    have heq := inj_on_of_nodup_map ht (mem_of_find?_eq_some hfind) hmem
      (by simpa using find?_some hfind)
    exact ⟨e, hfind, by rw [heq]⟩
  · rintro ⟨⟨q, n⟩, hfind, rfl⟩
    obtain rfl : q = place ++ [name] := by simpa using find?_some hfind
    exact mem_of_find?_eq_some hfind

theorem list_ok {entries : List (Text × FileKind)} (h : t.list directory path = .ok entries) :
    ∃ place, t.locate directory path true = .ok ⟨place, some .directory⟩ ∧
      entries = (t.children place).map fun (name, n) => (name, n.kind) := by
  unfold list at h
  split at h
  · rename_i place hnode
    exact ⟨place, locateNode_ok hnode, (Except.ok.inj h).symm⟩
  · cases h
  · cases h

/-! ## Where the path of a name in a directory leads -/

theorem isAbsolute_stored (path : Text) :
    isAbsolute (storedText path) = isAbsolute path := by
  cases path with
  | nil => rfl
  | cons u path =>
    by_cases hu : u = slash
    · subst hu
      have hcut := storedText_append_cons [] (u := slash) (by decide) path
      rw [nil_append] at hcut
      rw [hcut]
      rfl
    · have hunits := forall₂_storedText (u :: path)
      generalize storedText (u :: path) = stored at hunits ⊢
      cases hunits with
      | @cons _ v _ _ hv _ =>
        have hne : v ≠ slash := by
          rcases hv with rfl | rfl
          · exact hu
          · decide
        rw [isAbsolute, head?_cons, isAbsolute, head?_cons,
          beq_eq_false_iff_ne.mpr fun h => hu (Option.some.inj h),
          beq_eq_false_iff_ne.mpr fun h => hne (Option.some.inj h)]

theorem length_le_pathBytes (path : Text) : path.length ≤ pathBytes (storedText path) := by
  have hone : ∀ c, (Encoding.unitsOfCode c).length ≤ (Encoding.encodeCode c).length := by
    intro c
    unfold Encoding.unitsOfCode Encoding.encodeCode
    dsimp only
    split
    · repeat' split
      all_goals simp
    · rename_i hc
      have hwhole : Text.isSurrogateCode c = false := by
        rw [Text.isSurrogateCode, Bool.and_eq_false_iff, decide_eq_false_iff_not,
          decide_eq_false_iff_not]
        omega
      rw [hwhole, if_neg Bool.false_ne_true, if_neg (by omega),
        if_neg (by omega), if_neg (by omega)]
      simp
  have hbytes : pathBytes (storedText path) =
      ((storedText path).codePoints.flatMap Encoding.encodeCode).length := rfl
  rw [(forall₂_storedText path).length_eq, hbytes]
  conv_lhs => rw [← Text.flatMap_unitsOfCode (storedText path)]
  induction (storedText path).codePoints with
  | nil => exact Nat.le_refl 0
  | cons c cs ih =>
    have hc := hone c
    rw [flatMap_cons, flatMap_cons, length_append, length_append]
    omega

theorem walk_blanks {cs : List Text} (hdir : t.get? place = some .directory)
    (h : ∀ c ∈ cs, c = [] ∨ c = [dot]) (followLast : Bool) :
    t.walk followLast place cs = .ok (.arrived ⟨place, some .directory⟩) := by
  induction cs with
  | nil => rw [walk, hdir]
  | cons c cs ih =>
    rw [walk_blank hdir (by simpa using h c (by simp))]
    exact ih fun d hd => h d (mem_cons_of_mem c hd)

/-- **A name behind the components of a directory** leads to what has this name in the directory,
whatever blanks the path of the directory ends in. -/
theorem locate_below {front blanks : List Text} (hblanks : ∀ c ∈ blanks, c = [] ∨ c = [dot])
    (hdir : components dir = front ++ blanks) (hpath : components path = front ++ [name])
    (habs : isAbsolute path = isAbsolute dir) (hname : Spelled name)
    (hlink : ∀ target, t.get? (place ++ [name]) ≠ some (.link target))
    (h : t.locate directory dir true = .ok ⟨place, some .directory⟩)
    (hspot : t.locate directory path true = .ok spot) :
    spot = ⟨place ++ [name], t.get? (place ++ [name])⟩ := by
  obtain ⟨_, _, hfollow⟩ := follow_of_stored h
  obtain ⟨_, _, hfollow'⟩ := follow_of_stored hspot
  have hstored : storedText name = name := Encoding.decode_encode hname.paired
  have hblanks' : ∀ c ∈ blanks.map storedText, c = [] ∨ c = [dot] := by
    intro c hc
    obtain ⟨d, hd, rfl⟩ := mem_map.mp hc
    rcases hblanks d hd with rfl | rfl
    · exact .inl rfl
    · exact .inr (by decide)
  rw [components_stored, isAbsolute_stored, hpath, habs, map_append, map_singleton,
    hstored] at hfollow'
  rw [components_stored, isAbsolute_stored, hdir, map_append] at hfollow
  generalize (if isAbsolute dir then [] else placeOf directory) = start at hfollow hfollow'
  generalize front.map storedText = cs at hfollow hfollow'
  obtain ⟨q, m, _, hq, hfirst, hlast⟩ := follow_append (by simp) hfollow'
  -- both paths lead through the same directory
  obtain rfl : place = q := by
    by_cases hnil : blanks.map storedText = []
    · rw [hnil, append_nil, hfirst linkLimit (Nat.le_refl _)] at hfollow
      exact (Spot.mk.inj (Except.ok.inj hfollow)).1.symm
    · obtain ⟨p, k, _, hp, hfirst', hlast'⟩ := follow_append hnil hfollow
      rw [follow_arrived (walk_blanks hp hblanks' true), Except.ok.injEq, Spot.mk.injEq] at hlast'
      have hsame :=
        (hfirst linkLimit (Nat.le_refl _)).symm.trans (hfirst' linkLimit (Nat.le_refl _))
      rw [Except.ok.injEq, Spot.mk.injEq] at hsame
      rw [← hlast'.1, hsame.1]
  obtain ⟨_, hspot | ⟨_, target, htarget⟩⟩ := follow_single hname.toIsName hlast
  · exact hspot
  · exact absurd htarget (hlink target)

/-! ## What is to be found -/

/-- A path leads to a directory at a place. -/
def Opens (t : FileTree) (directory path : Text) (place : Place) : Prop :=
  t.locate directory path true = .ok ⟨place, some .directory⟩

instance (t : FileTree) (directory path : Text) (place : Place) :
    Decidable (t.Opens directory path place) := inferInstanceAs (Decidable (_ = _))

theorem Opens.unique {q : Place} (h : t.Opens directory path place)
    (h' : t.Opens directory path q) : place = q :=
  (Spot.mk.inj (Except.ok.inj (h.symm.trans h'))).1

/-- **The joined path of a directory in a directory** leads there, if it leads anywhere and the
first path has no other components than those that it is left with. -/
theorem Opens.join {start : Text} {blanks : List Text} {sub : Place}
    (ht : t.WellFormed) (hne : dir ≠ []) (habs : isAbsolute start = isAbsolute dir)
    (hblanks : ∀ c ∈ blanks, c = [] ∨ c = [dot])
    (hstart : components start = front dir ++ blanks) (h : t.Opens directory start place)
    (hdir : t.get? (place ++ [name]) = some .directory)
    (hsub : t.Opens directory (join dir name) sub) : sub = place ++ [name] := by
  have hname := (ht.spelled hdir name (by simp)).1
  have hcomponents := components_join_front hne hname.toIsName
  rw [front_join hne hname.toIsName] at hcomponents
  have hspot := locate_below hblanks hstart hcomponents
    ((join_front hne hname.toIsName).1.trans habs.symm) hname (by simp [hdir]) h hsub
  exact (Spot.mk.inj hspot).1

/-- A source in a directory or below it: names lead to a file, through directories, and are joined
to the path of the directory. -/
def SourceBelow (t : FileTree) (dir : Text) (place : Place) (file : Text) : Prop :=
  isSource file ∧ ∃ names bytes, names ≠ [] ∧ t.get? (place ++ names) = some (.file bytes) ∧
    file = names.foldl join dir

/-- What a name in a directory gives by its kind: the joined path of a source, or what is below the
place that the joined path of a directory leads to. Links are passed over. -/
def Gives (t : FileTree) (directory dir name file : Text) : FileKind → Prop
  | .file => isSource file ∧ file = join dir name
  | .directory => ∃ sub, t.Opens directory (join dir name) sub ∧
      t.SourceBelow (join dir name) sub file
  | .link => False

/-- What the search finds in a directory. -/
def FoundIn (t : FileTree) (directory dir : Text) (place : Place) (file : Text) : Prop :=
  ∃ name node, t.get? (place ++ [name]) = some node ∧ t.Gives directory dir name file node.kind

/-- **If joined paths lead where the names do**, the search finds the sources below. -/
theorem foundIn_iff (ht : t.WellFormed) {file : Text}
    (hsub : ∀ name, t.get? (place ++ [name]) = some .directory →
      t.Opens directory (join dir name) (place ++ [name])) :
    t.FoundIn directory dir place file ↔ t.SourceBelow dir place file := by
  constructor
  · rintro ⟨name, node, hnode, hgives⟩
    cases node with
    | file bytes => exact ⟨hgives.1, [name], bytes, by simp, hnode, hgives.2⟩
    | link target => exact hgives.elim
    | directory =>
      obtain ⟨sub, hopens, hsource, names, bytes, _, hfound, hfile⟩ := hgives
      rw [← (hsub name hnode).unique hopens, append_assoc, singleton_append] at hfound
      exact ⟨hsource, name :: names, bytes, by simp, hfound, hfile⟩
  · rintro ⟨hsource, names, bytes, hne, hnode, hfile⟩
    obtain ⟨name, names, rfl⟩ := exists_cons_of_ne_nil hne
    by_cases hnil : names = []
    · subst hnil
      exact ⟨name, _, hnode, hsource, hfile⟩
    · have hdir : t.get? (place ++ [name]) = some .directory := by
        refine ht.directory_above hnode ⟨names, by simp⟩ ?_
        simpa using Ne.symm hnil
      rw [append_cons] at hnode
      exact ⟨name, _, hdir, _, hsub name hdir, hsource, names, bytes, hnil, hnode, hfile⟩

/-- What is known when some names in a directory have been looked at. -/
structure Searching (t : FileTree) (directory dir : Text) (done : List (Text × FileKind))
    (found : List Text) : Prop where
  opens : ∀ name, (name, .directory) ∈ done → ∃ sub, t.Opens directory (join dir name) sub
  found : ∀ file, file ∈ found ↔ ∃ entry ∈ done, t.Gives directory dir entry.1 file entry.2

theorem Searching.step {done : List (Text × FileKind)} {found more : List Text} {kind : FileKind}
    (h : t.Searching directory dir done found)
    (hopens : kind = .directory → ∃ sub, t.Opens directory (join dir name) sub)
    (hmore : ∀ file, file ∈ more ↔ t.Gives directory dir name file kind) :
    t.Searching directory dir (done ++ [(name, kind)]) (found ++ more) where
  opens n hn := by
    rcases mem_append.mp hn with hn | hn
    · exact h.opens n hn
    · obtain ⟨rfl, hkind⟩ := Prod.mk.inj (mem_singleton.mp hn)
      exact hopens hkind.symm
  found file := by
    rw [mem_append, h.found, hmore]
    simp only [mem_append, mem_singleton, or_and_right, exists_or, exists_eq_left]

end FileTree

/-! ## The search below a directory -/

section

variable (p : Premises) {w : World} {dir : Text} {depth : Nat}

/-- One level of a search, if the levels below it find what they should. -/
theorem sourcesBelow_level (hd : w.tree.Distinct)
    (hsub : ∀ place name, w.tree.Opens p.directory dir place →
      w.tree.get? (place ++ [name]) = some .directory →
      Looks w (sourcesBelow p.host depth (join dir name)) fun files => ∃ sub,
        w.tree.Opens p.directory (join dir name) sub ∧
          ∀ file, file ∈ files ↔ w.tree.SourceBelow (join dir name) sub file) :
    Looks w (sourcesBelow p.host (depth + 1) dir) fun files => ∃ place,
      w.tree.Opens p.directory dir place ∧
      (∀ name, w.tree.get? (place ++ [name]) = some .directory →
        ∃ sub, w.tree.Opens p.directory (join dir name) sub) ∧
      ∀ file, file ∈ files ↔ w.tree.FoundIn p.directory dir place file := by
  rw [sourcesBelow]
  have hlist : Looks w (ExceptT.mk (p.host.list dir)) fun entries => ∃ place,
      w.tree.Opens p.directory dir place ∧ ∀ name kind, (name, kind) ∈ entries ↔
        ∃ node, w.tree.get? (place ++ [name]) = some node ∧ node.kind = kind := by
    refine ⟨w.tree.list p.directory dir, rfl, fun entries hentries => ?_⟩
    obtain ⟨place, hopens, rfl⟩ := list_ok hentries
    refine ⟨place, hopens, fun name kind => ?_⟩
    simp [mem_children hd]
  refine hlist.bind fun entries hentries => ?_
  obtain ⟨place, hopens, hentries⟩ := hentries
  -- the invariant of the loop: what the entries so far give is found
  refine (Looks.foldlM (Q := w.tree.Searching p.directory dir) ⟨by simp, by simp⟩ ?_).imp ?_
  · intro done entry found hentry hfound
    obtain ⟨name, kind⟩ := entry
    cases kind with
    | link =>
      -- links are not followed
      rw [← append_nil found]
      exact .pure (hfound.step (by simp) (by simp [FileTree.Gives]))
    | directory =>
      obtain ⟨node, hnode, hkind⟩ := (hentries name .directory).mp hentry
      obtain rfl : node = .directory := by cases node <;> cases hkind; rfl
      refine (hsub place name hopens hnode).bind fun more hmore => ?_
      obtain ⟨sub, hsub, hmore⟩ := hmore
      refine .pure (hfound.step (fun _ => ⟨sub, hsub⟩) fun file => ?_)
      rw [hmore]
      constructor
      · exact fun h => ⟨sub, hsub, h⟩
      · rintro ⟨q, hq, h⟩
        -- a directory opens at one place only
        rwa [hsub.unique hq]
    | file =>
      dsimp only
      split
      · rename_i hsource
        refine .pure (hfound.step (by simp) fun file => ?_)
        rw [mem_singleton]
        exact ⟨fun h => ⟨h ▸ hsource, h⟩, fun h => h.2⟩
      · rename_i hsource
        rw [← append_nil found]
        refine .pure (hfound.step (by simp) fun file => iff_of_false not_mem_nil fun h => ?_)
        exact hsource (h.2 ▸ h.1)
  · intro files hfiles
    refine ⟨place, hopens, fun name hdir => ?_, fun file => ?_⟩
    · exact hfiles.opens name ((hentries name _).mpr ⟨_, hdir, rfl⟩)
    · rw [hfiles.found]
      constructor
      · rintro ⟨⟨name, kind⟩, hentry, hgives⟩
        obtain ⟨node, hnode, rfl⟩ := (hentries name kind).mp hentry
        exact ⟨name, node, hnode, hgives⟩
      · rintro ⟨name, node, hnode, hgives⟩
        exact ⟨(name, node.kind), (hentries name _).mpr ⟨node, hnode, rfl⟩, hgives⟩

/-- **Below a path that ends in a name** the search finds all sources. It does not run out of depth:
with every level the path gets longer by two units at least, and a path that is listed is short. -/
theorem sourcesBelow_settled {q n : Text} (ht : w.tree.WellFormed)
    (hd : w.tree.Distinct) (hq : q ≠ []) (hn : IsName n) (hpos : 1 ≤ depth)
    (hfuel : 2 * pathLimit ≤ 2 * depth + (join q n).length + 1) :
    Looks w (sourcesBelow p.host depth (join q n)) fun files => ∃ place,
      w.tree.Opens p.directory (join q n) place ∧
        ∀ file, file ∈ files ↔ w.tree.SourceBelow (join q n) place file := by
  induction depth generalizing q n with
  | zero => omega
  | succ depth ih =>
    refine (sourcesBelow_level p hd fun place name hopens hdir => ?_).imp fun files hfiles => ?_
    · have hname := (ht.spelled hdir name (by simp)).1.toIsName
      have hshort := Nat.lt_of_le_of_lt (length_le_pathBytes (join q n))
        (follow_of_stored hopens).2.1
      have hlength : (join (join q n) name).length =
          (join q n).length + (name.length + 1) := by
        rw [join_join hq hn hname, length_append, length_cons]
      have hlimit : pathLimit = 4096 := rfl
      have hsome := length_pos_iff.mpr hname.nonempty
      exact ih (join_ne_nil hq hn) hname (by omega) (by omega)
    · obtain ⟨place, hopens, hsubs, hfiles⟩ := hfiles
      refine ⟨place, hopens, fun file => (hfiles file).trans (foundIn_iff ht fun name hdir => ?_)⟩
      obtain ⟨sub, hsub⟩ := hsubs name hdir
      have hfront : components (join q n) = front (join q n) ++ [] := by
        rw [append_nil, components_join_front hq hn]
      rwa [← hopens.join ht (join_ne_nil hq hn) rfl (by simp) hfront hdir hsub]

end

/-! ## The paths that are given -/

namespace FileTree

/-- Whether a path does not exist. -/
def absent (t : FileTree) (directory path : Text) : Bool :=
  match t.kind directory path with
  | .error e => e.isMissing
  | .ok _ => false

/-- What is found for a path: the path itself without needless components if it leads to a source,
or what its directory gives, by what is to be found in a directory. -/
def FoundBy (t : FileTree) (directory path file : Text) (inside : Place → Prop) : Prop :=
  (isSource path ∧ file = normalize path ∧
    ∃ place bytes, t.locate directory path true = .ok ⟨place, some (.file bytes)⟩) ∨
  ∃ place, t.Opens directory path place ∧ inside place

/-- What is known when some paths have been taken in. -/
structure Gathered (t : FileTree) (directory : Text) (done : List Text)
    (l : SourceList) : Prop where
  sorted : l.files.Pairwise fun a b => a.precedes b
  missing : l.missing = done.filter (t.absent directory)
  files : ∀ file, file ∈ l.files ↔
    ∃ path ∈ done, t.FoundBy directory path file fun place => t.FoundIn directory path place file
  opens : ∀ path ∈ done, ∀ place, t.Opens directory path place → ∀ name,
    t.get? (place ++ [name]) = some .directory → ∃ sub, t.Opens directory (join path name) sub

variable {t : FileTree} {directory path : Text} {done : List Text} {l : SourceList}

theorem kind_ok {kind : FileKind} (h : t.kind directory path = .ok kind) :
    ∃ place node, t.locate directory path true = .ok ⟨place, some node⟩ ∧ node.kind = kind := by
  unfold FileTree.kind at h
  split at h
  · rename_i place node hnode
    exact ⟨place, node, locateNode_ok hnode, Except.ok.inj h⟩
  · cases h

section

variable {place : Place} {file : Text} {inside : Place → Prop}

theorem not_foundBy (h : ∀ place node, t.locate directory path true ≠ .ok ⟨place, some node⟩) :
    ¬ t.FoundBy directory path file inside := by
  rintro (⟨_, _, place, bytes, hlocate⟩ | ⟨place, hopens, _⟩)
  · exact h place _ hlocate
  · exact h place _ hopens

theorem foundBy_of_file {bytes : Bytes}
    (h : t.locate directory path true = .ok ⟨place, some (.file bytes)⟩) :
    t.FoundBy directory path file inside ↔ isSource path ∧ file = normalize path := by
  constructor
  · rintro (⟨hsource, hfile, _⟩ | ⟨q, hopens, _⟩)
    · exact ⟨hsource, hfile⟩
    · cases h.symm.trans hopens
  · rintro ⟨hsource, hfile⟩
    exact .inl ⟨hsource, hfile, place, bytes, h⟩

theorem Opens.foundBy (h : t.Opens directory path place) :
    t.FoundBy directory path file inside ↔ inside place := by
  constructor
  · rintro (⟨_, _, q, bytes, hlocate⟩ | ⟨q, hopens, hinside⟩)
    · cases h.symm.trans hlocate
    · rwa [h.unique hopens]
  · exact fun hinside => .inr ⟨place, h, hinside⟩

end

theorem Gathered.step {l' : SourceList} (h : t.Gathered directory done l) (more : List Text)
    (hfiles : l'.files = (l.add more).files)
    (hmissing : l'.missing = l.missing ++ [path].filter (t.absent directory))
    (hmore : ∀ file, file ∈ more ↔
      t.FoundBy directory path file fun place => t.FoundIn directory path place file)
    (hopens : ∀ place, t.Opens directory path place → ∀ name,
      t.get? (place ++ [name]) = some .directory →
        ∃ sub, t.Opens directory (join path name) sub) :
    t.Gathered directory (done ++ [path]) l' where
  sorted := hfiles ▸ SourceList.add_pairwise more h.sorted
  missing := by rw [hmissing, h.missing, filter_append]
  files file := by
    rw [hfiles, SourceList.mem_add, hmore, h.files, or_comm]
    simp only [mem_append, mem_singleton, or_and_right, exists_or, exists_eq_left]
  opens q hq := by
    rcases mem_append.mp hq with hq | hq
    · exact h.opens q hq
    · rwa [mem_singleton.mp hq]

end FileTree

variable (p : Premises) {w : World} {path : Text} {l : SourceList}

theorem addPath_gathered (ht : w.tree.WellFormed) (hd : w.tree.Distinct) {done : List Text}
    (hl : w.tree.Gathered p.directory done l) :
    Looks w (l.addPath p.host path) (w.tree.Gathered p.directory (done ++ [path])) := by
  unfold SourceList.addPath
  have hkind :
      Looks w (ExceptT.lift (p.host.kind path)) fun kind => kind = w.tree.kind p.directory path :=
    ⟨_, rfl, fun _ h => (Except.ok.inj h).symm⟩
  refine hkind.bind fun kind hkind => ?_
  cases kind with
  | error e =>
    dsimp only
    split
    · rename_i hmissing
      have hnone : ∀ place node, w.tree.locate p.directory path true ≠ .ok ⟨place, some node⟩ := by
        intro place node hlocate
        rw [FileTree.kind, locateNode_of_locate hlocate] at hkind
        cases hkind
      have habsent : w.tree.absent p.directory path = true := by
        rwa [absent, ← hkind]
      refine .pure (hl.step [] rfl ?_ (fun file => iff_of_false not_mem_nil (not_foundBy hnone))
        fun place h => absurd h (hnone place _))
      rw [filter_cons_of_pos habsent]
      rfl
    · exact .throw e
  | ok kind =>
    obtain ⟨place, node, hlocate, rfl⟩ := kind_ok hkind.symm
    have hpresent : [path].filter (w.tree.absent p.directory) = [] := by
      rw [filter_cons_of_neg, filter_nil]
      rw [absent, ← hkind]
      simp
    cases node with
    | link target => exact absurd rfl (locate_ne_link ht.nested hlocate target)
    | file bytes =>
      have hclosed : ∀ q, ¬ w.tree.Opens p.directory path q := by
        intro q hq
        cases hlocate.symm.trans hq
      dsimp only [FileNode.kind]
      split
      · rename_i hsource
        refine .pure (hl.step _ rfl (by rw [hpresent, append_nil]; rfl) (fun file => ?_)
          fun q hq => absurd hq (hclosed q))
        rw [mem_singleton, foundBy_of_file hlocate, and_iff_right hsource]
      · rename_i hsource
        refine .pure (hl.step [] rfl (by rw [hpresent, append_nil]) (fun file => ?_)
          fun q hq => absurd hq (hclosed q))
        rw [foundBy_of_file hlocate]
        exact iff_of_false not_mem_nil fun h => hsource h.1
    | directory =>
      have hne : path ≠ [] := by
        rintro rfl
        cases hlocate
      -- every name makes the path longer, so the limit on paths bounds the depth
      have hlevel : Looks w (sourcesBelow p.host pathLimit path) _ :=
        sourcesBelow_level p hd fun q name _ hdir => by
          have hname := (ht.spelled hdir name (by simp)).1.toIsName
          have hsome := length_pos_iff.mpr (join_ne_nil hne hname)
          have hlimit : pathLimit = 4096 := rfl
          exact sourcesBelow_settled p ht hd hne hname (by decide) (by omega)
      refine hlevel.bind fun files hfiles => ?_
      obtain ⟨q, hopens, hsubs, hfiles⟩ := hfiles
      exact .pure (hl.step _ rfl (by rw [hpresent, append_nil]; rfl)
        (fun file => by rw [hfiles, hopens.foundBy]) fun r hr => hopens.unique hr ▸ hsubs)

theorem findSources_gathered (ht : w.tree.WellFormed) (hd : w.tree.Distinct) {paths : List Text}
    {w' : World} (h : StateT.run (findSources p.host paths) w = (.ok l, w')) :
    w' = w ∧ w.tree.Gathered p.directory paths l := by
  have hempty : w.tree.Gathered p.directory [] {} := ⟨.nil, rfl, by simp, by simp⟩
  obtain ⟨result, hrun, hresult⟩ : Looks w (ExceptT.mk (findSources p.host paths)) _ :=
    .foldlM hempty fun done path l _ hl => addPath_gathered p ht hd hl
  obtain ⟨hok, rfl⟩ := Prod.mk.inj (hrun.symm.trans h)
  exact ⟨rfl, hresult l hok⟩

/-- **Which sources are found.** Discovery changes nothing. The files are in strictly rising order,
and the paths that do not exist are missing, in their order. A file is found exactly for a path that
leads to a source, or in a directory that a path leads to: there, directories are entered by their
joined paths. If no link stands ahead of two dots in such a path, so that it leads where it does
without needless components, these are exactly the sources in the directory and below it, links in
it left out. -/
theorem findSources_exact (p : Premises) (paths : List Text) (w w' : World) (l : SourceList)
    (ht : w.tree.WellFormed) (hd : w.tree.Distinct)
    (h : StateT.run (findSources p.host paths) w = (.ok l, w')) :
    w' = w ∧ l.files.Pairwise (fun a b => a.precedes b) ∧
    l.missing = paths.filter (w.tree.absent p.directory) ∧
    (∀ file, file ∈ l.files ↔ ∃ path ∈ paths, w.tree.FoundBy p.directory path file fun place =>
      w.tree.FoundIn p.directory path place file) ∧
    ∀ path ∈ paths, ∀ place, w.tree.Opens p.directory path place →
      w.tree.Opens p.directory (normalize path) place →
      ∀ file, w.tree.FoundIn p.directory path place file ↔ w.tree.SourceBelow path place file := by
  obtain ⟨rfl, hsorted, hmissing, hfiles, hopens⟩ := findSources_gathered p ht hd h
  refine ⟨rfl, hsorted, hmissing, hfiles, fun path hpath place hplace hnormal file => ?_⟩
  have hne : path ≠ [] := by
    rintro rfl
    cases hplace
  obtain ⟨habs, blanks, hblanks, hcomponents⟩ := components_normalize_front path
  refine FileTree.foundIn_iff ht fun name hdir => ?_
  obtain ⟨sub, hsub⟩ := hopens path hpath place hplace name hdir
  rwa [← hnormal.join ht hne habs hblanks hcomponents hdir hsub]

/-- A working directory, and nothing to be parsed. -/
def bench : Premises where
  directory := "/w"
  parse := fun _ => .node .script ⟨0, 0⟩ []
  supply := fun _ => ⟨[], []⟩

/-- Two directories of one name, and a link to one of them. -/
def astray : World where
  tree := ⟨[(["w"], .directory), (["w", "y"], .directory), (["w", "y", "sub"], .directory),
    (["w", "y", "sub", "a.py"], .file []), (["w", "sub"], .directory),
    (["w", "sub", "b.py"], .file []), (["w", "x"], .link "y/sub")]⟩

theorem astray_wellFormed : astray.tree.WellFormed :=
  wellFormed_of_nodes (by decide)

theorem eq_of_toOption {ε α β : Type} {x : Except ε α × β} {a : α} (h : x.1.toOption = some a) :
    x = (.ok a, x.2) := by
  obtain ⟨y, b⟩ := x
  cases y with
  | error e => cases h
  | ok a' => rw [Option.some.inj h]

theorem astray_found :
    (StateT.run (findSources bench.host ["x", "no.py", "x/.."]) astray).1.toOption =
      some ⟨["sub/b.py", "x/a.py"], ["no.py"]⟩ := by
  decide

theorem findSources_exact_astray :
    astray.tree.WellFormed ∧ astray.tree.Distinct ∧
    (StateT.run (findSources bench.host ["x", "no.py", "x/.."]) astray).2 = astray ∧
    ∀ file, astray.tree.FoundIn "/w" "x" ["w", "y", "sub"] file ↔
      astray.tree.SourceBelow "x" ["w", "y", "sub"] file := by
  have hd : astray.tree.Distinct := by decide
  have hopens : astray.tree.Opens "/w" "x" ["w", "y", "sub"] ∧
      astray.tree.Opens "/w" (normalize "x") ["w", "y", "sub"] := by decide
  obtain ⟨hsame, _, _, _, hstraight⟩ := findSources_exact bench ["x", "no.py", "x/.."] astray _ _
    astray_wellFormed hd (eq_of_toOption astray_found)
  exact ⟨astray_wellFormed, hd, hsame, hstraight "x" (by simp) _ hopens.1 hopens.2⟩

/-- **Behind a link, two dots lead astray**: a source below the directory that the path leads to is
not found, and one that is elsewhere is. -/
theorem dots_behind_link :
    (StateT.run (findSources bench.host ["x/.."]) astray).1.toOption = some ⟨["sub/b.py"], []⟩ ∧
    astray.tree.Opens "/w" "x/.." ["w", "y"] ∧
    astray.tree.SourceBelow "x/.." ["w", "y"] "sub/a.py" := by
  have hfound : (StateT.run (findSources bench.host ["x/.."]) astray).1.toOption =
      some ⟨["sub/b.py"], []⟩ ∧ astray.tree.Opens "/w" "x/.." ["w", "y"] := by decide
  refine ⟨hfound.1, hfound.2, ?_, ["sub", "a.py"], [], by simp, ?_, ?_⟩ <;> decide

end Posonly
