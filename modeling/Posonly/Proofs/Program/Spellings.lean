import Posonly.Proofs.Files.Sources
import Posonly.Proofs.Program.Recovery

/-!
# Spellings of one file

Whatever is found for a path is spelled without needless components and sets out as the path does:
from the root or not, and up over as many directories (`Path.setsOut`). Two such spellings that set
out alike and resolve alike are the same (`Path.eq_of_resolve`), and discovery keeps each spelling
once. So no file is converted twice in a run, unless two of the paths that are given set out
differently (`convert_separated`, `spellings_differ`).
-/

open List Posonly.Path

namespace Posonly

namespace Path

variable {b : Bool} {f g n p base : Text} {names : List Text}

/-- How a path sets out: from the root or not, and up over so many directories. -/
def setsOut (p : Text) : Bool × List Text :=
  (isAbsolute p, (simplify (!isAbsolute p) p).takeWhile (· == up))

theorem setsOut_join (hp : p ≠ []) (hn : IsName n) : setsOut (join p n) = setsOut p := by
  obtain ⟨habs, hsimple⟩ := join_front hp hn
  rw [setsOut, habs, hsimple, setsOut, takeWhile_append]
  split
  · rename_i hlength
    rw [takeWhile_cons_of_neg (by simp [hn.notUp]), append_nil,
      (List.takeWhile_prefix (· == up)).eq_of_length hlength]
  · rfl

theorem foldl_join (hp : p ≠ []) (hnames : ∀ n ∈ names, IsName n) (hne : names ≠ []) :
    components (names.foldl join p) = front (names.foldl join p) ∧
      setsOut (names.foldl join p) = setsOut p := by
  induction names generalizing p with
  | nil => exact absurd rfl hne
  | cons n names ih =>
    have hn := hnames n (by simp)
    by_cases hnil : names = []
    · subst hnil
      exact ⟨components_join_front hp hn, setsOut_join hp hn⟩
    · rw [foldl_cons, ← setsOut_join hp hn]
      exact ih (join_ne_nil hp hn) (fun m hm => hnames m (mem_cons_of_mem n hm)) hnil

theorem isName_of_mem_dropWhile (h : n ∈ (simplify b p).dropWhile (· == up)) : IsName n := by
  have hall : ∀ c ∈ simplify b p, IsName c ∨ c = up := fun c hc =>
    ((stacked_simplify b p).names c (mem_reverse.mpr hc)).imp_right And.left
  have hdesc := descending_simplify b p
  generalize simplify b p = cs at h hall hdesc
  induction cs with
  | nil => cases h
  | cons c cs ih =>
    by_cases hc : c = up
    · rw [dropWhile_cons_of_pos (by simpa using hc)] at h
      exact ih h (fun d hd => hall d (mem_cons_of_mem c hd)) hdesc.tail
    · rw [dropWhile_cons_of_neg (by simpa using hc)] at h
      refine (hall n h).resolve_right fun hup => ?_
      rcases mem_cons.mp h with rfl | h
      · exact hc hup
      · exact hdesc.up_notMem hc (hup ▸ h)

/-- **Spellings without needless components that set out alike** are the same if they resolve alike.
-/
theorem eq_of_resolve (hf : components f = front f) (hg : components g = front g)
    (hout : setsOut f = setsOut g) (h : resolve base f = resolve base g) : f = g := by
  -- the names behind two dots are the end of what a path spells
  have hspells : ∀ {p}, components p = front p → target base p = ((setsOut p).2.foldl (push false)
        (if (setsOut p).1 then [] else simplify false base).reverse).reverse ++
      (simplify (!isAbsolute p) p).dropWhile (· == up) := by
    intro p hp
    have hroot : ∀ s, (if isAbsolute p then [[]] else []).foldl (push false) s = s :=
      fun s => foldl_push_blanks (by split <;> simp)
    have hcut := takeWhile_append_dropWhile (p := (· == up)) (l := simplify (!isAbsolute p) p)
    rw [target_eq, hp, front, foldl_append, hroot]
    conv_lhs => rw [← hcut]
    rw [foldl_append, foldl_push_names fun n hn => isName_of_mem_dropWhile hn, reverse_append,
      reverse_reverse]
    rfl
  have htarget :=
    absolute_injective (fun _ => isName_of_mem_target) (fun _ => isName_of_mem_target) h
  rw [hspells hf, hspells hg, hout] at htarget
  have hnames := append_cancel_left htarget
  obtain ⟨habs, hups⟩ := Prod.mk.inj hout
  have hsimple : simplify (!isAbsolute f) f = simplify (!isAbsolute g) g := by
    rw [← takeWhile_append_dropWhile (p := (· == up)) (l := simplify (!isAbsolute f) f),
      hups, hnames, takeWhile_append_dropWhile]
  rw [← ofComponents_components f, ← ofComponents_components g, hf, hg, front, front, hsimple, habs]

end Path

namespace FileTree

variable {t : FileTree} {directory path file : Text}

theorem normalize_of_locate {place : Place} {bytes : Bytes} (ht : t.WellFormed)
    (h : t.locate directory path true = .ok ⟨place, some (.file bytes)⟩) :
    components (normalize path) = front (normalize path) ∧
      Path.setsOut (normalize path) = Path.setsOut path := by
  obtain ⟨cs, n, hlast⟩ : ∃ cs n, components path = cs ++ [n] :=
    ⟨_, _, (dropLast_append_getLast (Text.splitOn_ne_nil slash path)).symm⟩
  have hslash : slash ∉ n := slash_notMem_component (p := path) (by simp [hlast])
  -- the last component is a name, since the path leads to a file
  have hn : IsName n := by
    obtain ⟨_, _, hfollow⟩ := follow_of_stored h
    rw [components_stored, hlast, map_append] at hfollow
    have hstored := isName_of_follow ht (slash_notMem_storedText hslash) hfollow
    rcases component_cases hslash with rfl | hn | rfl | rfl
    · exact absurd (by decide) hstored.notUp
    · exact hn
    · exact absurd rfl hstored.nonempty
    · exact absurd (by decide) hstored.notDot
  have hne : simplify (!Path.isAbsolute path) path ≠ [] := by
    rw [simplify, hlast, foldl_append, foldl_cons, foldl_nil, push_name hn]
    simp
  have hend : (path.getLast? == some slash) = false := by
    rw [beq_eq_false_iff_ne]
    intro hslash
    obtain ⟨q, rfl⟩ := getLast?_eq_some_iff.mp hslash
    rw [components_append] at hlast
    exact hn.nonempty (singleton_inj.mp (append_inj' hlast rfl).2).symm
  have hcomponents := components_normalize hne
  rw [hend] at hcomponents
  obtain ⟨habs, hsimple⟩ := front_of_components (stacked_simplify _ path) hne
    (fun _ hc => absurd hc not_mem_nil) hcomponents
  rw [front, Path.setsOut, habs, hsimple, hcomponents, Path.setsOut]
  exact ⟨append_nil _, rfl⟩

/-- **What is found for a path** is spelled without needless components, and sets out as the path.
-/
theorem spelling_of_found (ht : t.WellFormed)
    (h : t.FoundBy directory path file fun place => t.FoundIn directory path place file) :
    components file = front file ∧ Path.setsOut file = Path.setsOut path := by
  rcases h with ⟨_, rfl, place, bytes, hlocate⟩ | ⟨place, hopens, name, node, hnode, hgives⟩
  · exact normalize_of_locate ht hlocate
  · have hne : path ≠ [] := by
      rintro rfl
      cases hopens
    have hname := (ht.spelled hnode name (by simp)).1.toIsName
    cases node with
    | link target => exact hgives.elim
    | file bytes =>
      rw [hgives.2]
      exact ⟨components_join_front hne hname, setsOut_join hne hname⟩
    | directory =>
      obtain ⟨sub, _, _, names, bytes, hnil, hfile, rfl⟩ := hgives
      have hnames : ∀ n ∈ names, IsName n :=
        fun n hn => (ht.spelled hfile n (mem_append_right sub hn)).1.toIsName
      rw [← setsOut_join hne hname]
      exact foldl_join (join_ne_nil hne hname) hnames hnil

/-- Files that are spelled for some paths, and are not the same. -/
structure Separated (t : FileTree) (directory : Text) (paths files : List Text) : Prop where
  /-- Each sets out as one of the paths does. -/
  setsOut : ∀ f ∈ files, ∃ path ∈ paths, Path.setsOut f = Path.setsOut path
  /-- Those that set out alike resolve differently. -/
  resolve : ∀ f ∈ files, ∀ g ∈ files, Path.setsOut f = Path.setsOut g →
    Path.resolve directory f = Path.resolve directory g → f = g
  /-- And they lead to different places, if there are no links on the way. -/
  place : ∀ f ∈ files, ∀ g ∈ files, Path.setsOut f = Path.setsOut g → f.Paired → g.Paired →
    t.NoLink (target directory f) → t.NoLink (target directory g) →
    ∀ spot, t.locate directory f true = .ok spot → t.locate directory g true = .ok spot → f = g
  /-- So if all paths set out alike, no two files resolve alike. -/
  nodup : (∀ a ∈ paths, ∀ b ∈ paths, Path.setsOut a = Path.setsOut b) →
    (files.map (Path.resolve directory)).Nodup

/-- Files that were gathered and set out alike resolve to different paths. -/
theorem Gathered.separated {paths : List Text} {l : SourceList} (ht : t.WellFormed)
    (h : t.Gathered directory paths l) : t.Separated directory paths l.files := by
  have hfront : ∀ f ∈ l.files, components f = front f := by
    intro f hf
    obtain ⟨path, _, hfound⟩ := (h.files f).mp hf
    exact (spelling_of_found ht hfound).1
  have hout : ∀ f ∈ l.files, ∃ path ∈ paths, Path.setsOut f = Path.setsOut path := by
    intro f hf
    obtain ⟨path, hpath, hfound⟩ := (h.files f).mp hf
    exact ⟨path, hpath, (spelling_of_found ht hfound).2⟩
  have hresolve : ∀ f ∈ l.files, ∀ g ∈ l.files, Path.setsOut f = Path.setsOut g →
      Path.resolve directory f = Path.resolve directory g → f = g :=
    fun f hf g hg => eq_of_resolve (hfront f hf) (hfront g hg)
  have hdesc : ∀ f ∈ l.files, Path.Descending (components f) := by
    intro f hf
    obtain ⟨_, blanks, _, hcomponents⟩ := components_normalize_front f
    have hall := descending_normalize f
    rw [hcomponents] at hall
    rw [hfront f hf]
    exact (pairwise_append.mp hall).1
  refine ⟨hout, hresolve, ?_, fun hpaths => ?_⟩
  · -- without links a path leads where it resolves to
    intro f hf g hg hsame hpaired hpaired' hno hno' spot hspot hspot'
    have htarget := (locate_target hpaired (hdesc f hf) hno hspot).1.symm.trans
      (locate_target hpaired' (hdesc g hg) hno' hspot').1
    refine hresolve f hf g hg hsame ?_
    rw [resolve_eq, (Spot.mk.inj htarget).1, resolve_eq]
  · have hnodup : l.files.Nodup := h.sorted.imp Text.ne_of_precedes
    refine hnodup.map_on fun f hf g hg => ?_
    obtain ⟨a, ha, hfa⟩ := hout f hf
    obtain ⟨b, hb, hgb⟩ := hout g hg
    exact hresolve f hf g hg (hfa.trans ((hpaths a ha b hb).trans hgb.symm))

end FileTree

namespace Program

/-- **Each file once.** The files that discovery finds are separated, and they are what a run hands
to the batch, if it converts anything. -/
theorem convert_separated (p : Premises) (o : CommandLine.RunOptions) (w : World)
    (ht : w.tree.WellFormed) (hd : w.tree.Distinct) :
    (∀ l w', StateT.run (findSources p.host o.paths) w = (.ok l, w') →
      w.tree.Separated p.directory o.paths l.files) ∧
    (w.Alike (StateT.run (convert p.host o) w).2 ∨
      ∃ l w₁, StateT.run (findSources p.host o.paths) w = (.ok l, w) ∧ w.Alike w₁ ∧
        (StateT.run (Batch.run p.host (report p.host o) l.files (batchOptions p.host o) false)
          w₁).2.Alike (StateT.run (convert p.host o) w).2) := by
  refine ⟨fun l w' h => (findSources_gathered p ht hd h).2.separated ht, ?_⟩
  rcases convert_run p o w with hprints | ⟨l, w₁, hfound, _, hbefore, hafter⟩
  · exact .inl hprints
  · exact .inr ⟨l, w₁, hfound, hbefore, hafter⟩

/-- Two files, one with a unit in its name that is stored for a surrogate without its partner. -/
def twoFiles : World where
  tree := ⟨[(["w"], .directory), (["w", "a.py"], .file []), (["w", "\uFFFD.py"], .file [])]⟩

theorem twoFiles_wellFormed : twoFiles.tree.WellFormed :=
  FileTree.wellFormed_of_nodes (by decide)

/-- A run over overlapping paths. -/
def overlapping : CommandLine.RunOptions :=
  ⟨[".", "./a.py", "a.py"], true, true, "/archive", .utf8, none, false, false, {}⟩

theorem overlapping_found :
    (StateT.run (findSources bench.host overlapping.paths) twoFiles).1.toOption =
      some ⟨["a.py", "\uFFFD.py"], []⟩ := by
  decide

theorem convert_separated_overlapping :
    twoFiles.tree.WellFormed ∧ twoFiles.tree.Distinct ∧
      ([("a.py" : Text), "\uFFFD.py"].map (Path.resolve "/w")).Nodup := by
  have hd : twoFiles.tree.Distinct := by decide
  obtain ⟨hseparated, _⟩ := convert_separated bench overlapping twoFiles twoFiles_wellFormed hd
  refine ⟨twoFiles_wellFormed, hd, (hseparated _ _ (eq_of_toOption overlapping_found)).nodup ?_⟩
  decide

/-- The name of a file, with half of a pair in it. -/
def halfName : Text := 0xD800 :: Text.ofString ".py"

/-- **One file can be found twice**: by paths that set out differently, and by a path with a unit in
it that is replaced when the path is looked up. -/
theorem spellings_differ :
    (StateT.run (findSources bench.host ["a.py", "/w/a.py", halfName, "\uFFFD.py"])
      twoFiles).1.toOption = some ⟨["/w/a.py", "a.py", halfName, "\uFFFD.py"], []⟩ ∧
    Path.resolve "/w" "a.py" = Path.resolve "/w" "/w/a.py" ∧
    twoFiles.tree.locate "/w" halfName true = twoFiles.tree.locate "/w" "\uFFFD.py" true := by
  decide

end Program

end Posonly
