import Posonly.Batch.Run
import Posonly.Proofs.Archive.Names
import Posonly.Proofs.Files.Growth

/-!
# What the tasks of a batch share

The files of a batch are converted side by side, and the only thing their tasks share is the
archive: whichever task comes first makes its directories and its manifest, and the others find them
there. So the tree of a run is one of three (`Scene.level`), up to the bytes of files and up to
files that have a token in their name.
-/

open List Posonly.FileTree

namespace Posonly

/-- A batch that is to be run: the files, what it starts from, and how many supplies there are. -/
structure Scene extends premises : Premises where
  initial : World
  archive : Option Archive
  files : List Text
  stop : Nat

namespace Scene

def token (s : Scene) (i : Nat) : Text := (s.supply i).token

/-- The tokens that can be handed out. -/
def Fresh (s : Scene) (token : Text) : Prop :=
  ∃ i, s.initial.supplied ≤ i ∧ i < s.stop ∧ token = s.token i

/-- Names without a token in them. -/
def Clean (s : Scene) (n : Text) : Prop := ∀ token, s.Fresh token → ¬ token <:+: n

/-- The names that tasks make with a token. -/
structure Marked (s : Scene) (token n : Text) : Prop where
  fresh : s.Fresh token
  made : CopyName s.Fresh token n ∨ TemporaryName token n

/-- The names that are there before the batch. -/
inductive Known (s : Scene) (n : Text) : Prop where
  | place (p : Place) (node : FileNode) (h : s.initial.tree.get? p = some node) (hn : n ∈ p)
  | link (p : Place) (target : Text) (h : s.initial.tree.get? p = some (.link target))
      (hn : n ∈ Path.components target)
  | directory (hn : n ∈ FileTree.placeOf s.directory)
  | archive (a : Archive) (h : s.archive = some a) (hn : n ∈ Path.components a.root)
  | file (f : Text) (h : f ∈ s.files) (hn : n ∈ Path.components f)

/-- A path leads to a file before the batch. -/
def Leads (s : Scene) (file : Text) (place : Place) (bytes : Bytes) : Prop :=
  s.initial.tree.locate s.directory file true = .ok ⟨place, some (.file bytes)⟩

/-- The places of a file that is given by a path: where the file is and, if the path ends in a link,
where the link is. A file that is moved there replaces the link. -/
def Own (s : Scene) (file : Text) (q : Place) : Prop :=
  ∃ place bytes, s.Leads file place bytes ∧ (q = place ∨ ∃ target,
    s.initial.tree.locate s.directory file false = .ok ⟨q, some (.link target)⟩)

/-- A link that a file of the batch is given by. -/
def Entry (s : Scene) (x : Place) : Prop :=
  ∃ file ∈ s.files, s.Own file x ∧ ∃ target, s.initial.tree.get? x = some (.link target)

/-- The paths that tasks use. -/
inductive Uses (s : Scene) : Text → Prop where
  | file (file : Text) (h : file ∈ s.files) : Uses s file
  | manifest (a : Archive) (h : s.archive = some a) : Uses s a.manifest
  | copy (a : Archive) (file token : Text) (ha : s.archive = some a) (h : file ∈ s.files)
      (hfresh : s.Fresh token) : Uses s (a.copyPath (Archive.copyName file token))
  | temporary (task : Task) (token : Text) (h : task.file ∈ s.files) (hfresh : s.Fresh token) :
      Uses s (task.temporaryPath token)

/-! ## The tree at three levels -/

/-- Makes the archive, if there is one to be made. -/
def making (s : Scene) (t : FileTree) : Option FileCause × FileTree :=
  match s.archive with
  | none => (none, t)
  | some a => t.makeDirectories s.directory a.root

/-- The tree when the archive has been made. -/
def made (s : Scene) : FileTree := (s.making s.initial.tree).2

/-- The tree when the archive has a manifest, too. -/
def listed (s : Scene) : FileTree :=
  match s.archive, (s.making s.initial.tree).1 with
  | some a, none => (s.made.modify s.directory a.manifest id).2
  | _, _ => s.made

/-- The tree before a batch, when the archive has been made, and when it has a manifest. -/
def level (s : Scene) : Nat → FileTree
  | 0 => s.initial.tree
  | 1 => s.made
  | _ + 2 => s.listed

variable {s : Scene} {n token : Text} {q : Place}

/-- The manifest is put into the archive once, and its bytes change afterwards. -/
theorem listed_cases (s : Scene) :
    s.listed = s.made ∨ ∃ a m old, s.archive = some a ∧ (s.making s.initial.tree).1 = none ∧
      s.made.locateTarget s.directory a.manifest = .ok (m, old) ∧
      s.listed = s.made.put m (.file old) := by
  unfold listed
  split
  · rename_i a ha hok
    rcases modify_cases s.made s.directory a.manifest id with
      ⟨_, hsame⟩ | ⟨m, old, htarget, hmodify⟩
    · exact .inl hsame
    · exact .inr ⟨a, m, old, ha, hok, htarget, congrArg Prod.snd hmodify⟩
  · exact .inl rfl

/-- Making the archive makes directories along some names, or never does anything. -/
theorem making_shape (s : Scene) :
    (∃ cause, ∀ t, s.making t = (cause, t)) ∨ ∃ names, ∀ t, s.making t = t.makeAlong [] names := by
  unfold making FileTree.makeDirectories
  cases s.archive with
  | none => exact .inl ⟨none, fun _ => rfl⟩
  | some a =>
    dsimp only
    split
    · exact .inl ⟨_, fun _ => rfl⟩
    · split
      · exact .inl ⟨_, fun _ => rfl⟩
      · exact .inr ⟨_, fun _ => rfl⟩

theorem making_adds (s : Scene) (t : FileTree) (q : Place) : (s.making t).2.get? q = t.get? q ∨
      t.get? q = none ∧ (s.making t).2.get? q = some .directory := by
  rcases s.making_shape with ⟨cause, hnothing⟩ | ⟨names, halong⟩
  · rw [hnothing]
    exact .inl rfl
  · rw [halong]
    exact makeAlong_adds t [] names q

theorem making_keeps {t : FileTree} {node : FileNode} (h : t.get? q = some node) :
    (s.making t).2.get? q = some node := by
  rcases s.making_adds t q with hsame | ⟨hnone, _⟩
  · exact hsame.trans h
  · rw [h] at hnone
    cases hnone

theorem absent_of_making {t : FileTree} (h : (s.making t).2.get? q = none) : t.get? q = none := by
  rcases s.making_adds t q with hsame | ⟨hnone, _⟩
  · exact hsame.symm.trans h
  · exact hnone

theorem grown_making (s : Scene) (t : FileTree) : FileTree.Grown t (s.making t).2 := by
  rcases s.making_shape with ⟨cause, hnothing⟩ | ⟨names, hmaking⟩
  · rw [hnothing]
    exact .refl t
  · rw [hmaking]
    exact grown_makeAlong t [] names

/-- **The archive is made once**: making it again gives the same and changes nothing. -/
theorem making_made (s : Scene) : s.making s.made = ((s.making s.initial.tree).1, s.made) := by
  unfold made
  rcases s.making_shape with ⟨cause, hnothing⟩ | ⟨names, hmaking⟩
  · rw [hnothing, hnothing]
  · rw [hmaking, hmaking]
    exact makeAlong_twice rfl

theorem Marked.unclean (h : s.Marked token n) : ¬ s.Clean n := by
  intro hclean
  rcases h.made with hcopy | htemporary
  · exact hclean token h.fresh hcopy.contains
  · exact hclean token h.fresh htemporary.contains

end Scene

end Posonly
