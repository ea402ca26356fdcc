import Posonly.Proofs.Archive.Manifest
import Posonly.Proofs.Archive.Names
import Posonly.Proofs.Files.Action

/-!
# What an archive keeps

An archive that is made in the course of some runs has a history: the entries that were put into its
manifest. Of each entry the file and the copy are still there, and every file that was there at the
beginning either has its bytes still or has an entry (`Listed`). Whatever an action of a task
changes in the tree, that stays so, as long as it writes only where an entry says so
(`Listed.change`). Actions may fail on the way: nothing here depends on which of them do.
-/

open List Posonly.Path

namespace Posonly

/-- Runs that store files in one archive: where they start, and how many supplies they may take. -/
structure Setting extends premises : Premises where
  initial : World
  /-- The place of the archive. -/
  archive : Place
  stop : Nat

namespace Setting

def root (s : Setting) : Archive := ⟨absolute s.archive⟩

def token (s : Setting) (i : Nat) : Text := (s.supply i).token

/-- The place of the manifest. -/
def manifest (s : Setting) : Place := s.archive ++ [Archive.manifestName]

/-- The place of a copy. -/
def copy (s : Setting) (archived : Text) : Place := s.archive ++ [archived]

/-- The names that are there before the runs. -/
def Known (s : Setting) (n : Text) : Prop :=
  n ∈ s.archive ∨ ∃ place node, s.initial.tree.get? place = some node ∧ n ∈ place

/-- A tree without the archive, which can be made; and tokens that are new to it. -/
structure Proper (s : Setting) : Prop where
  wellFormed : s.initial.tree.WellFormed
  faults : s.initial.faults = []
  names : ∀ n ∈ s.archive, Spelled n ∧ pathBytes n ≤ longestName
  absent : s.initial.tree.get? s.archive = none
  way : ∀ q, q <+: s.archive →
    s.initial.tree.get? q = none ∨ s.initial.tree.get? q = some .directory
  short : pathBytes (absolute s.manifest) < pathLimit
  tokens : FreshTokens s.supply s.Known s.initial.supplied s.stop

/-- A tree in which the archive can be made, without a manifest; and tokens that are new to it. -/
structure Ready (s : Setting) : Prop where
  wellFormed : s.initial.tree.WellFormed
  names : ∀ n ∈ s.archive, Spelled n ∧ pathBytes n ≤ longestName
  bare : s.initial.tree.get? s.manifest = none
  way : ∀ q, q <+: s.archive →
    s.initial.tree.get? q = none ∨ s.initial.tree.get? q = some .directory
  short : pathBytes (absolute s.manifest) < pathLimit
  tokens : FreshTokens s.supply s.Known s.initial.supplied s.stop

/-- The tokens of the runs. -/
def Fresh (s : Setting) (token : Text) : Prop :=
  ∃ i, s.initial.supplied ≤ i ∧ i < s.stop ∧ token = s.token i

/-- The names of temporary files. -/
def Temporary (s : Setting) (n : Text) : Prop :=
  ∃ i, s.initial.supplied ≤ i ∧ i < s.stop ∧ TemporaryName (s.token i) n

/-- The names of copies that were made with a token from a count on. -/
def Copied (s : Setting) (since : Nat) (n : Text) : Prop :=
  ∃ i, since ≤ i ∧ i < s.stop ∧ CopyName s.Fresh (s.token i) n

theorem Copied.mono {s : Setting} {since since' : Nat} {n : Text} (h : s.Copied since' n)
    (hle : since ≤ since') : s.Copied since n := by
  obtain ⟨i, hi, hstop, hname⟩ := h
  exact ⟨i, Nat.le_trans hle hi, hstop, hname⟩

/-- Nothing stands in an archive that is not there. -/
theorem Proper.ready {s : Setting} (hs : s.Proper) : s.Ready where
  wellFormed := hs.wellFormed
  names := hs.names
  bare := by
    cases hnode : s.initial.tree.get? s.manifest with
    | none => rfl
    | some node =>
      have hparent := hs.wellFormed.parent hnode
      rw [hs.absent] at hparent
      cases hparent
  way := hs.way
  short := hs.short
  tokens := hs.tokens

end Setting

/-- A place of no temporary file, nor of the manifest. -/
structure Lasting (s : Setting) (place : Place) : Prop where
  named : ∀ parent n, place = parent ++ [n] → ¬ s.Temporary n
  notManifest : place ≠ s.manifest

/-- The state of the files while an archive is kept. -/
structure Orderly (s : Setting) (w : World) : Prop where
  /-- The faults that are still to come. -/
  faults : w.faults <:+ s.initial.faults
  supplied : s.initial.supplied ≤ w.supplied
  wellFormed : w.tree.WellFormed
  steady : s.initial.tree.Steady w.tree
  way : ∀ q, q <+: s.archive → w.tree.get? q = none ∨ w.tree.get? q = some .directory
  /-- What has a name with a token in it is a file. -/
  plain : ∀ parent n node, s.Temporary n ∨ s.Copied s.initial.supplied n →
    w.tree.get? (parent ++ [n]) = some node → ∃ bytes, node = .file bytes
  /-- Tokens that are still to come are in no name. -/
  unseen : ∀ parent n, s.Copied w.supplied n → w.tree.get? (parent ++ [n]) = none

/-- A path that leads to the file at a place, whatever has changed since the beginning. -/
structure Names (s : Setting) (path : Text) (place : Place) : Prop where
  spelled : ∃ names, path = absolute names ∧ names ≠ [] ∧ ∀ n ∈ names, Spelled n
  leads {t : FileTree} {bytes : Bytes} : t.WellFormed → s.initial.tree.Steady t →
    t.get? place = some (.file bytes) →
    t.locate s.directory path true = .ok ⟨place, some (.file bytes)⟩

/-- What files are called in entries: no two alike, and none like a copy that it is not. -/
structure Naming (s : Setting) (called : Place → Text) : Prop where
  unique {t : FileTree} {p q : Place} {bytes bytes' : Bytes} : t.WellFormed →
    s.initial.tree.Steady t → t.get? p = some (.file bytes) → t.get? q = some (.file bytes') →
    called p = called q → p = q
  copies {t : FileTree} {p : Place} {bytes : Bytes} {archived : Text} : t.WellFormed →
    s.initial.tree.Steady t → t.get? p = some (.file bytes) → Spelled archived →
    s.Copied s.initial.supplied archived → called p = called (s.copy archived) →
    p = s.copy archived

/-- A file that an entry was made for, at a place, and its copy. -/
structure Stored (s : Setting) (called : Place → Text) (t : FileTree) (e : ArchiveEntry)
    (place : Place) : Prop where
  file : e.file = called place
  names : Names s e.file place
  lasting : Lasting s place
  present : ∃ bytes, t.get? place = some (.file bytes)
  copyName : s.Copied s.initial.supplied e.archived
  copyPresent : ∃ bytes, t.get? (s.copy e.archived) = some (.file bytes)
  copyShort : pathBytes (absolute (s.copy e.archived)) < pathLimit

/-- The history of an archive. -/
structure Listed (s : Setting) (called : Place → Text) (t : FileTree)
    (entries : List ArchiveEntry) : Prop where
  stored : ∀ e ∈ entries, ∃ place, Stored s called t e place
  /-- A file from the beginning has its bytes still, or an entry. -/
  originals : ∀ place bytes, s.initial.tree.get? place = some (.file bytes) →
    t.get? place = some (.file bytes) ∨
      (∃ bytes', t.get? place = some (.file bytes')) ∧ ∃ e ∈ entries, e.file = called place
  /-- A copy gets an entry of its own only after the entry that it was made for. -/
  order : entries.Pairwise fun f e => f.file ≠ called (s.copy e.archived)
  other : ∀ e ∈ entries, e.file ≠ called (s.copy e.archived)
  /-- The copy of the first entry has the bytes from the beginning, or an entry of its own. -/
  first : ∀ place bytes e, s.initial.tree.get? place = some (.file bytes) →
    entries.find? (fun f => f.file == called place) = some e →
      t.get? (s.copy e.archived) = some (.file bytes) ∨
        ∃ f ∈ entries, f.file = called (s.copy e.archived)

/-- The manifest holds some entries. -/
def Holds (s : Setting) (t : FileTree) (entries : List ArchiveEntry) : Prop :=
  entries = [] ∧ t.get? s.manifest = none ∨
    t.get? s.manifest = some (.file (Manifest.content entries))

/-- An archive that is kept. -/
structure Kept (s : Setting) (called : Place → Text) (w : World) (entries : List ArchiveEntry) :
    Prop where
  orderly : Orderly s w
  listed : Listed s called w.tree entries
  holds : Holds s w.tree entries

variable {s : Setting} {called : Place → Text} {w w' : World} {t t' : FileTree}
  {entries : List ArchiveEntry} {written : Place → Prop} {place : Place} {e : ArchiveEntry}

/-! ## Names and places -/

theorem lasting_of_sourceName {parent : Place} {n : Text} (h : SourceName n) :
    Lasting s (parent ++ [n]) where
  named parent' n' hplace := by
    rintro ⟨i, _, _, htemporary⟩
    obtain ⟨_, hn⟩ := append_singleton_inj.mp hplace
    exact h.not_temporary (hn ▸ htemporary)
  notManifest hplace := by
    obtain ⟨_, hn⟩ := append_singleton_inj.mp hplace
    exact h.ne_manifest hn

namespace Setting.Ready

variable (hs : s.Ready) {archived : Text}

include hs

theorem not_temporary_of_known {n : Text} (hn : s.Known n) : ¬ s.Temporary n := by
  rintro ⟨i, hstart, hstop, htemporary⟩
  exact hs.tokens.unknown i hstart hstop n hn htemporary.contains

theorem not_copied_of_known {n : Text} (hn : s.Known n) : ¬ s.Copied s.initial.supplied n := by
  rintro ⟨i, hstart, hstop, hcopied⟩
  exact hs.tokens.unknown i hstart hstop n hn hcopied.contains

theorem fresh_unknown {n : Text} (hn : s.Known n) : ∀ token, s.Fresh token → ¬ token <:+: n := by
  rintro token ⟨i, hstart, hstop, rfl⟩
  exact hs.tokens.unknown i hstart hstop n hn

/-- What was there at the beginning is no temporary file, nor the manifest. -/
theorem lasting_of_initial {node : FileNode} (hnode : s.initial.tree.get? place = some node) :
    Lasting s place where
  named parent n hplace :=
    hs.not_temporary_of_known (.inr ⟨place, node, hnode, by simp [hplace]⟩)
  notManifest hplace := by
    rw [hplace, hs.bare] at hnode
    cases hnode

theorem lasting_copy {n : Text} (hn : s.Copied s.initial.supplied n) : Lasting s (s.copy n) where
  named parent m hplace := by
    rintro ⟨j, hj, hjstop, htemporary⟩
    obtain ⟨i, hi, histop, hname⟩ := hn
    obtain ⟨_, hm⟩ := append_singleton_inj.mp hplace
    exact hname.not_temporary (hs.tokens.shaped i hi histop) (hs.tokens.shaped j hj hjstop)
      (hm ▸ htemporary)
  notManifest hplace := by
    obtain ⟨i, hi, histop, hname⟩ := hn
    obtain ⟨_, hm⟩ := append_singleton_inj.mp hplace
    exact hname.ne_manifest (hs.tokens.shaped i hi histop) hm

/-- A copy's name tells when its token was supplied. -/
theorem count_unique {i j : Nat} {n : Text} (hi : s.initial.supplied ≤ i) (histop : i < s.stop)
    (hj : s.initial.supplied ≤ j) (hjstop : j < s.stop) (h : CopyName s.Fresh (s.token i) n)
    (h' : CopyName s.Fresh (s.token j) n) : i = j := by
  refine hs.tokens.distinct i j hi histop hj hjstop (h.token_unique h' ?_ ?_ ?_ ?_)
  · exact hs.tokens.shaped i hi histop
  · exact hs.tokens.shaped j hj hjstop
  · exact ⟨i, hi, histop, rfl⟩
  · exact ⟨j, hj, hjstop, rfl⟩

theorem manifest_eq : s.root.manifest = absolute s.manifest :=
  join_absolute (fun n hn => (hs.names n hn).1.toIsName) spelled_manifestName.toIsName

theorem copyPath_eq (hspelled : Spelled archived) :
    s.root.copyPath archived = absolute (s.copy archived) :=
  join_absolute (fun n hn => (hs.names n hn).1.toIsName) hspelled.toIsName

theorem isName_copy (hspelled : Spelled archived) :
    ∀ n ∈ s.copy archived, IsName n := by
  intro n hn
  rcases mem_append.mp hn with hn | hn
  · exact (hs.names n hn).1.toIsName
  · rw [mem_singleton.mp hn]
    exact hspelled.toIsName

theorem naming_absolute : Naming s absolute where
  unique ht _ hp hq heq :=
    absolute_injective (fun n hn => (ht.spelled hp n hn).1.toIsName)
      (fun n hn => (ht.spelled hq n hn).1.toIsName) heq
  copies ht _ hp hspelled _ heq :=
    absolute_injective (fun n hn => (ht.spelled hp n hn).1.toIsName)
      (hs.isName_copy hspelled) heq

end Setting.Ready

theorem names_absolute {bytes : Bytes} (ht : t.WellFormed)
    (hpresent : t.get? place = some (.file bytes))
    (hshort : pathBytes (absolute place) < pathLimit) :
    Names s (absolute place) place where
  spelled := by
    refine ⟨place, rfl, ?_, fun n hn => (ht.spelled hpresent n hn).1⟩
    rintro rfl
    simp at hpresent
  leads ht' _ hfile := ht'.locate_file hfile hshort s.directory

/-! ## What changes keep -/

section

variable (hs : s.Ready)
  (hchange : ∀ q, FileTree.Change s.archive s.Temporary written w.tree w'.tree q)

include hs hchange

theorem Orderly.change (h : Orderly s w) (hfaults : w'.faults <:+ w.faults)
    (hsupplied : w.supplied ≤ w'.supplied) (hway : ∀ q, written q → ¬ q <+: s.archive)
    (hnew : ∀ parent n, written (parent ++ [n]) → ¬ s.Copied w'.supplied n) : Orderly s w' where
  faults := hfaults.trans h.faults
  supplied := Nat.le_trans h.supplied hsupplied
  wellFormed := FileTree.Change.wellFormed hchange
    (fun parent n node hn => h.plain parent n node (.inl hn)) h.wellFormed hs.names
  -- what is there from the beginning has no temporary name, so it does not go
  steady :=
    { file := fun {q bytes} hq => by
        obtain ⟨old, hold⟩ := h.steady.file hq
        obtain ⟨new, hnew, _⟩ := (hchange q).file hold (hs.lasting_of_initial hq).named
        exact ⟨new, hnew⟩
      other := fun {q node} hq hnode =>
        (hchange q).other (h.steady.other hq hnode) hnode (hs.lasting_of_initial hq).named }
  way q hq := by
    cases hchange q with
    | same hsame => rw [hsame]; exact h.way q hq
    | opened _ _ hdirs => exact .inr (hdirs q (prefix_refl q))
    | gone _ _ _ _ hnone => exact .inl hnone
    | filed parent n _ hplace hn _ _ _ _ =>
      -- the names of the archive have no token in them, so this is no temporary file
      have hknown : s.Known n := .inl (hq.subset (by simp [hplace]))
      exact absurd hq (hway q (hn.resolve_left (hs.not_temporary_of_known hknown)))
  plain parent n node hn hnode := by
    by_cases hfile : ∃ bytes, node = .file bytes
    · exact hfile
    · rw [not_exists] at hfile
      rcases (hchange (parent ++ [n])).noFile hnode hfile with hold | ⟨hq, _, _⟩
      · exact h.plain parent n node hn hold
      · have hknown : s.Known n := .inl (hq.subset (by simp))
        exact (hn.elim (hs.not_temporary_of_known hknown) (hs.not_copied_of_known hknown)).elim
  unseen parent n hn := by
    obtain ⟨i, hi, hstop, hcopy⟩ := hn
    cases hchange (parent ++ [n]) with
    | same hsame =>
      rw [hsame]
      exact h.unseen parent n ⟨i, Nat.le_trans hsupplied hi, hstop, hcopy⟩
    | opened hq _ _ =>
      have hstart := Nat.le_trans (Nat.le_trans h.supplied hsupplied) hi
      exact absurd ⟨i, hstart, hstop, hcopy⟩ (hs.not_copied_of_known (.inl (hq.subset (by simp))))
    | gone _ _ _ _ hnone => exact hnone
    | filed parent' n' _ hplace hmade _ _ _ _ =>
      obtain ⟨rfl, hn'⟩ := append_singleton_inj.mp hplace
      subst hn'
      -- a temporary file never has the name of a copy, and what is written is no new copy
      rcases hmade with ⟨j, hj, hjstop, htemporary⟩ | hwritten
      · have hstart := Nat.le_trans (Nat.le_trans h.supplied hsupplied) hi
        exact absurd htemporary (hcopy.not_temporary (hs.tokens.shaped i hstart hstop)
          (hs.tokens.shaped j hj hjstop))
      · exact absurd ⟨i, hi, hstop, hcopy⟩ (hnew parent n hwritten)

/-- **Changes keep the history of an archive** if files are written only where an entry says so. -/
theorem Listed.change (h : Listed s called w.tree entries)
    (hwritten : ∀ q bytes, written q → w.tree.get? q = some (.file bytes) →
      q = s.manifest ∨ ∃ f ∈ entries, f.file = called q) :
    Listed s called w'.tree entries where
  stored e he := by
    obtain ⟨place, hstored⟩ := h.stored e he
    obtain ⟨bytes, hpresent⟩ := hstored.present
    obtain ⟨copied, hcopy⟩ := hstored.copyPresent
    obtain ⟨bytes', hpresent', _⟩ := (hchange place).file hpresent hstored.lasting.named
    obtain ⟨copied', hcopy', _⟩ := (hchange _).file hcopy (hs.lasting_copy hstored.copyName).named
    exact ⟨place, { hstored with present := ⟨bytes', hpresent'⟩, copyPresent := ⟨copied', hcopy'⟩ }⟩
  originals place bytes hinitial := by
    have hlasting := hs.lasting_of_initial hinitial
    rcases h.originals place bytes hinitial with hsame | ⟨⟨bytes', hfile⟩, hentry⟩
    · obtain ⟨bytes', hfile, heq | hplace⟩ := (hchange place).file hsame hlasting.named
      · exact .inl (heq ▸ hfile)
      · -- it was written, so an entry names it, as the manifest is no original
        rcases hwritten place bytes hplace hsame with hmanifest | hentry
        · exact absurd hmanifest hlasting.notManifest
        · exact .inr ⟨⟨bytes', hfile⟩, hentry⟩
    · obtain ⟨bytes'', hfile', _⟩ := (hchange place).file hfile hlasting.named
      exact .inr ⟨⟨bytes'', hfile'⟩, hentry⟩
  order := h.order
  other := h.other
  first place bytes e hinitial hfind := by
    rcases h.first place bytes e hinitial hfind with hcopy | hentry
    · obtain ⟨_, hstored⟩ := h.stored e (mem_of_find?_eq_some hfind)
      have hlasting := hs.lasting_copy hstored.copyName
      obtain ⟨bytes', hfile, heq | hplace⟩ := (hchange _).file hcopy hlasting.named
      · exact .inl (heq ▸ hfile)
      · rcases hwritten _ bytes hplace hcopy with hmanifest | hentry
        · exact absurd hmanifest hlasting.notManifest
        · exact .inr hentry
    · exact .inr hentry

end

/-- **A new entry** for a file whose copy has the bytes from the beginning, or for one that has an
entry already. -/
theorem Listed.append (h : Listed s called t entries) (hstored : Stored s called t e place)
    (hunlisted : ∀ f ∈ entries, f.file ≠ called (s.copy e.archived))
    (hother : e.file ≠ called (s.copy e.archived))
    (hfirst : ∀ place bytes, s.initial.tree.get? place = some (.file bytes) →
      e.file = called place → t.get? (s.copy e.archived) = some (.file bytes) ∨
        ∃ f ∈ entries, f.file = called place) :
    Listed s called t (entries ++ [e]) where
  stored f hf := by
    rcases mem_append.mp hf with hf | hf
    · exact h.stored f hf
    · rw [mem_singleton.mp hf]
      exact ⟨place, hstored⟩
  originals place bytes hinitial := by
    rcases h.originals place bytes hinitial with hsame | ⟨hfile, f, hf, hentry⟩
    · exact .inl hsame
    · exact .inr ⟨hfile, f, mem_append_left _ hf, hentry⟩
  order := by
    refine pairwise_append.mpr ⟨h.order, pairwise_singleton .., fun f hf g hg => ?_⟩
    rw [mem_singleton.mp hg]
    exact hunlisted f hf
  other f hf := by
    rcases mem_append.mp hf with hf | hf
    · exact h.other f hf
    · rwa [mem_singleton.mp hf]
  first place bytes g hinitial hfind := by
    rw [find?_append] at hfind
    -- a new entry is the first of a file only if there has been none
    cases hold : entries.find? fun f => f.file == called place with
    | some f =>
      rw [hold, Option.some_or, Option.some.injEq] at hfind
      subst hfind
      rcases h.first place bytes f hinitial hold with hcopy | ⟨f', hf', hentry⟩
      · exact .inl hcopy
      · exact .inr ⟨f', mem_append_left _ hf', hentry⟩
    | none =>
      rw [hold, Option.none_or, find?_singleton] at hfind
      split at hfind
      · rename_i hfile
        rw [Option.some.injEq] at hfind
        subst hfind
        rcases hfirst place bytes hinitial (beq_iff_eq.mp hfile) with hcopy | ⟨f, hf, hentry⟩
        · exact .inl hcopy
        · exact absurd (beq_iff_eq.mpr hentry) (find?_eq_none.mp hold f hf)
      · cases hfind

theorem orderly_initial (hs : s.Ready) : Orderly s s.initial where
  faults := suffix_refl _
  supplied := Nat.le_refl _
  wellFormed := hs.wellFormed
  steady := .refl _
  way := hs.way
  plain parent n node hn hnode := by
    have hknown : s.Known n := .inr ⟨_, node, hnode, by simp⟩
    exact (hn.elim (hs.not_temporary_of_known hknown) (hs.not_copied_of_known hknown)).elim
  unseen parent n hn := by
    cases hnode : s.initial.tree.get? (parent ++ [n]) with
    | none => rfl
    | some node => exact absurd hn (hs.not_copied_of_known (.inr ⟨_, node, hnode, by simp⟩))

theorem listed_initial : Listed s called s.initial.tree [] where
  stored _ h := by cases h
  originals _ _ h := .inl h
  order := .nil
  other _ h := by cases h
  first _ _ _ _ h := by cases h

theorem kept_initial (hs : s.Ready) : Kept s called s.initial [] :=
  ⟨orderly_initial hs, listed_initial, .inl ⟨rfl, hs.bare⟩⟩

end Posonly
