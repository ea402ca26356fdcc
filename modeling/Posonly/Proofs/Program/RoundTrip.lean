import Posonly.Proofs.Archive.Sessions
import Posonly.Proofs.Program.Atomicity
import Posonly.Proofs.Program.Interleaving

/-!
# Entries come back as they were put in

When files have been stored in an archive, in whichever order their actions came, its manifest is
read as the entries from before and then the new ones, each once and in the order in which they were
put in. Recovery gives back the first entry of each path, if it gives back anything
(`stores_round_trip`).

It does so if every path that is recorded leads to a file. Since links are not followed where a path
is recorded, it may lead to something else than what was stored (`recover_fails_at_directory`).
-/

open List Posonly.Path Posonly.Manifest

namespace Posonly

/-! ## Copying files over files -/

namespace FileTree

variable {t : FileTree} {directory : Text} {names : List Text}

/-- A file that can be read can be copied over another. -/
theorem copy_over {source target : Text} (hsource : t.Readable directory source)
    (htarget : t.Readable directory target) :
    ∃ t', t.copy directory source target = (none, t') ∧ t.Steady t' := by
  obtain ⟨bytes, hsource⟩ := hsource
  obtain ⟨old, htarget⟩ := htarget
  obtain ⟨origin, hsource⟩ := read_eq_ok_iff.mp hsource
  obtain ⟨place, htarget⟩ := read_eq_ok_iff.mp htarget
  unfold copy
  rw [contains_zero_of_locate hsource, contains_zero_of_locate htarget,
    locateNode_of_locate hsource, locateTarget_of_locate htarget]
  by_cases horigin : origin = place
  · exact ⟨t, by simp [horigin], .refl t⟩
  · exact ⟨t.put place (.file bytes), by simp [horigin],
      (Steady.refl t).put_file (get?_of_locate htarget)⟩

theorem Readable.ne_root (h : t.Readable directory (absolute names)) : names ≠ [] := by
  rintro rfl
  obtain ⟨bytes, hread⟩ := h
  obtain ⟨q, hlocate⟩ := read_eq_ok_iff.mp hread
  obtain ⟨_, _, hfollow⟩ := follow_of_stored hlocate
  have hroot : t.follow true linkLimit [] [[], []] = .ok ⟨q, some (.file bytes)⟩ := hfollow
  rw [follow_root, follow_root, follow_arrived rfl, get?_nil] at hroot
  cases hroot

/-- Where a file can be read, the directories above it need not be made. -/
theorem Readable.makeDirectories (hnames : ∀ n ∈ names, IsName n)
    (h : t.Readable directory (absolute names)) :
    t.makeDirectories directory (dirname (absolute names)) = (none, t) := by
  obtain ⟨parent, n, rfl⟩ : ∃ parent n, names = parent ++ [n] :=
    ⟨_, _, (dropLast_append_getLast h.ne_root).symm⟩
  obtain ⟨bytes, hread⟩ := h
  obtain ⟨q, hlocate⟩ := read_eq_ok_iff.mp hread
  have hparent : ∀ m ∈ parent, IsName m := fun m hm => hnames m (mem_append_left _ hm)
  have hstored : ∀ m ∈ parent.map storedText ++ [storedText n], IsName m := by
    intro m hm
    rw [← map_singleton, ← map_append] at hm
    obtain ⟨part, hpart, rfl⟩ := mem_map.mp hm
    exact isName_stored (hnames part hpart)
  have hnext : ∀ m ∈ parent.map storedText, IsName m :=
    fun m hm => hstored m (mem_append_left _ hm)
  obtain ⟨hzero, hshort, hfollow⟩ := follow_of_stored hlocate
  rw [storedText_absolute hnames, map_append, map_singleton] at hzero hshort hfollow
  rw [isAbsolute_absolute, if_pos rfl,
    components_absolute (fun m hm => (hstored m hm).noSlash) (by simp), follow_root] at hfollow
  have hfree : (absolute (parent.map storedText)).contains 0 = false := by
    rw [zero_notMem_absolute] at hzero
    simpa using zero_notMem_absolute.mpr fun m hm => hzero m (mem_append_left _ hm)
  have htarget : target directory (absolute (parent.map storedText)) =
      parent.map storedText := simplify_absolute hnext
  -- the path of the parent is shorter, so it is not too long either
  have hlimit := pathBytes_absolute_parent _ _ hshort
  rw [dirname_absolute hparent (hnames n (by simp))]
  unfold FileTree.makeDirectories
  rw [storedText_absolute hparent]
  dsimp only
  rw [hfree, if_neg (by simp), if_neg (Nat.not_le.mpr hlimit), placeOf_resolve, htarget]
  exact makeAlong_follow hnext (by simp) (Nat.le_refl _) hfollow

end FileTree

namespace Session

variable {s : Session} {t : FileTree} {w : World} {earlier : List ArchiveEntry} {e : ArchiveEntry}

/-- An entry of a file that has been stored: its path was resolved, and its copy is there. -/
structure Stocked (s : Session) (t : FileTree) (e : ArchiveEntry) : Prop where
  resolved : ∃ base path, e.file = resolve base path
  copy : t.Readable s.directory (s.archive.copyPath e.archived)

theorem Stocked.steady {u : FileTree} (h : s.Stocked t e) (hsteady : t.Steady u) : s.Stocked u e :=
  ⟨h.resolved, h.copy.steady hsteady⟩

/-- **All entries are restored** if the copies and the files can be read. -/
theorem restoreAll_run {es : List ArchiveEntry} (hfaults : w.faults = [])
    (hstocked : ∀ e ∈ es, s.Stocked w.tree e)
    (hfiles : ∀ e ∈ es, w.tree.Readable s.directory e.file) :
    ∃ w', StateT.run (s.archive.restoreAll s.host es).run w = (.ok PUnit.unit, w') := by
  induction es generalizing w with
  | nil => exact ⟨w, rfl⟩
  | cons e es ih =>
    have hfile := hfiles e mem_cons_self
    obtain ⟨⟨base, path, hresolved⟩, hcopy⟩ := hstocked e mem_cons_self
    have hmake : w.tree.makeDirectories s.directory (dirname e.file) =
        (none, w.tree) := by
      rw [hresolved, resolve_eq] at hfile ⊢
      exact hfile.makeDirectories fun n hn => isName_of_mem_target hn
    obtain ⟨t', hcopied, hsteady⟩ := FileTree.copy_over hcopy hfile
    obtain ⟨w', hrest⟩ := @ih { w with tree := t' } hfaults
      (fun f hf => (hstocked f (mem_cons_of_mem e hf)).steady hsteady)
      (fun f hf => (hfiles f (mem_cons_of_mem e hf)).steady hsteady)
    refine ⟨w', ?_⟩
    rwa [Archive.restoreAll_cons (Archive.restore_run_of_copy hfaults hmake hcopied)]

/-! ## When all files have been stored -/

theorem holds_of_lists (h : s.archive.Lists s.directory s.initial.tree earlier) :
    s.Holds s.initial.tree earlier := by
  rcases h with hread | ⟨rfl, e, hread, _⟩
  · exact .listed earlier hread
  · refine .absent ?_ fun q bytes _ hfile => ⟨bytes, hfile⟩
    rintro ⟨bytes, hok⟩
    rw [hread] at hok
    cases hok

theorem after_of_nil (hfiles : s.files = []) (turns : List Nat) : s.after turns = s.start := by
  unfold after
  induction turns with
  | nil => rfl
  | cons i turns ih =>
    have hsame : s.turn s.start i = s.start := by
      unfold turn
      rw [hfiles]
      rfl
    rwa [foldl_cons, hsame]

variable {turns : List Nat} {stored : List ArchiveEntry}

section

variable (hend : (s.after turns).stages = stored.map .stored)

include hend

theorem unfailed_of_stored : (s.after turns).Unfailed := by
  intro stage hstage e heq
  rw [hend, mem_map] at hstage
  obtain ⟨entry, _, rfl⟩ := hstage
  cases heq

theorem filterMap_of_stored : (s.after turns).stages.filterMap StoreStage.stored? = stored := by
  rw [hend, filterMap_map]
  exact filterMap_some

variable (hstart : s.archive.Lists s.directory s.initial.tree earlier)
  (hsound : s.Sound earlier (s.after turns) (s.appends s.start turns))

include hsound

/-- Entries are for the files that were stored, in their order. -/
theorem stored_files : stored.map ArchiveEntry.file = s.files.map (resolve s.directory) := by
  have hlength := hsound.length
  rw [hend, length_map] at hlength
  refine ext_getElem? fun i => ?_
  rw [getElem?_map, getElem?_map]
  by_cases hi : i < s.files.length
  · have hfile : s.files[i]? = some s.files[i] := getElem?_eq_getElem hi
    have hentry : stored[i]? = some stored[i] := getElem?_eq_getElem (by omega)
    have hstage : (s.after turns).stages[i]? = some (.stored stored[i]) := by
      rw [hend, getElem?_map, hentry]
      rfl
    obtain ⟨hresolved, _⟩ := hsound.reached i _ _ hfile hstage
    rw [hfile, hentry, Option.map_some, Option.map_some, hresolved]
  · rw [getElem?_eq_none (by omega), getElem?_eq_none (by omega)]
    rfl

theorem stored_stocked (he : e ∈ stored) : s.Stocked (s.after turns).world.tree e := by
  obtain ⟨i, hi⟩ := mem_iff_getElem?.mp he
  have hstage : (s.after turns).stages[i]? = some (.stored e) := by
    rw [hend, getElem?_map, hi]
    rfl
  obtain ⟨hlt, _⟩ := List.getElem?_eq_some_iff.mp hstage
  rw [hsound.length] at hlt
  obtain ⟨hresolved, hcopy⟩ := hsound.reached i _ _ (getElem?_eq_getElem hlt) hstage
  exact ⟨⟨_, _, hresolved⟩, hcopy⟩

include hstart

/-- The manifest lists what was there and what has been appended. -/
theorem lists_after : s.archive.Lists s.directory (s.after turns).world.tree
    (earlier ++ s.appends s.start turns) := by
  cases hfiles : s.files with
  | nil =>
    have hsame := after_of_nil hfiles turns
    have hnew : s.appends s.start turns = [] := by
      have hstages : s.start.stages = [] := by
        rw [start, hfiles]
        rfl
      have hperm := hsound.recorded
      rw [hsame, hstages] at hperm
      exact perm_nil.mp hperm
    rwa [hnew, append_nil, hsame]
  | cons file rest =>
    have hsome : earlier ++ s.appends s.start turns ≠ [] := by
      intro hnil
      have hperm := hsound.recorded
      have hlength := hsound.length
      rw [(append_eq_nil_iff.mp hnil).2, filterMap_of_stored hend] at hperm
      rw [hend, nil_perm.mp hperm, hfiles] at hlength
      cases hlength
    generalize hentries : earlier ++ s.appends s.start turns = entries at hsome
    have hholds := hsound.holds
    rw [hentries] at hholds
    cases hholds with
    | listed _ hread => exact .inl hread
    | absent _ _ => exact absurd rfl hsome

end

/-- **Entries come back as they were put in.** When all files of a session have been stored,
whatever the order of their actions, the entries of the archive are those from before and then one
for each file, in the order in which they were put in. Recovery can give back only the first entry
of each path, in that order, and it does so if each of these paths leads to a file and the copies
from before are there. To store a file by itself is to give it three turns in a row. -/
theorem stores_round_trip (hs : s.scene.Prepared)
    (hstart : s.archive.Lists s.directory s.initial.tree earlier)
    (hend : (s.after turns).stages = stored.map .stored)
    (hstop : (s.after turns).world.supplied ≤ s.stop) :
    (s.appends s.start turns).Perm stored ∧
      stored.map ArchiveEntry.file = s.files.map (resolve s.directory) ∧
      StateT.run (s.archive.entries s.host).run (s.after turns).world.calm =
        (.ok (earlier ++ s.appends s.start turns), (s.after turns).world.calm) ∧
      (∀ found w', StateT.run (s.archive.recover s.host).run (s.after turns).world.calm =
        (.ok found, w') → found = firsts (earlier ++ s.appends s.start turns)) ∧
      ((∀ e ∈ earlier, s.Stocked s.initial.tree e) →
        (∀ e ∈ firsts (earlier ++ s.appends s.start turns),
          (s.after turns).world.tree.Readable s.directory e.file) →
        ∃ w', StateT.run (s.archive.recover s.host).run (s.after turns).world.calm =
          (.ok (firsts (earlier ++ s.appends s.start turns)), w')) ∧
      ∀ (x : State) (i : Nat) file, s.files[i]? = some file → x.stages[i]? = some .making →
        (List.replicate StoreStage.longest i).foldl s.turn x =
          ⟨x.stages.set i (StateT.run (s.archive.store s.host file) x.world).1,
            (StateT.run (s.archive.store s.host file) x.world).2⟩ := by
  -- `Sound` is what every turn preserves: the manifest lists what was appended
  have hsound : s.Sound earlier (s.after turns) (s.appends s.start turns) :=
    (sound_start (holds_of_lists hstart)).turns hs turns hstop (unfailed_of_stored hend)
  have hperm := hsound.recorded
  rw [filterMap_of_stored hend] at hperm
  have hentries : StateT.run (s.archive.entries s.host).run (s.after turns).world.calm =
      (.ok (earlier ++ s.appends s.start turns), (s.after turns).world.calm) :=
    Archive.entries_run_of_lists rfl (lists_after hend hstart hsound)
  have hrecover := Archive.recover_run_of_entries hentries
  rw [earliest_eq_firsts] at hrecover
  refine ⟨hperm, stored_files hend hsound, hentries, fun found w' hfound => ?_,
    fun hearlier hfiles => ?_, fun x i file hfile hstage => s.store_turns x hfile hstage⟩
  · rw [hrecover, Prod.mk.injEq] at hfound
    obtain ⟨hfirsts, _⟩ := hfound
    generalize (StateT.run (s.archive.restoreAll s.host
      (firsts (earlier ++ s.appends s.start turns))).run (s.after turns).world.calm).1 =
        restored
      at hfirsts
    cases restored with
    | error e => cases hfirsts
    | ok _ => exact (Except.ok.inj hfirsts).symm
  · -- copies from before have stayed, and those of this session are there
    have hstocked : ∀ e ∈ firsts (earlier ++ s.appends s.start turns),
        s.Stocked (s.after turns).world.tree e := by
      intro e he
      rw [← earliest_eq_firsts] at he
      rcases List.mem_append.mp ((earliest_sublist _).subset he) with he | he
      · exact (hearlier e he).steady hsound.grown.steady
      · exact stored_stocked hend hsound (hperm.subset he)
    obtain ⟨w', hrestored⟩ := restoreAll_run (w := (s.after turns).world.calm) rfl hstocked hfiles
    rw [hrecover, hrestored]
    exact ⟨w', rfl⟩

/-! ## Odd names -/

def oldEntry : ArchiveEntry := ⟨"/old.py", "old-0.py", "then"⟩

/-- A name with a quote, a backslash and a line break in it. -/
def brokenName : Text := "q\"\\\n.py"

/-- A name with a line separator in it, and a name with a surrogate that has no partner. -/
def separatedName : Text := "é\u2028.py"

def loneName : Text := 0xD800 :: ".py"

def oddTree : FileTree :=
  ⟨[([CommandLine.defaultArchive], .directory),
    ([CommandLine.defaultArchive, "old-0.py"], .file (Encoding.utf8.encode "x = 0\n")),
    ([CommandLine.defaultArchive, Archive.manifestName], .file (content [oldEntry])),
    (["old.py"], .file []), ([brokenName], .file [1]), ([separatedName], .file [2]),
    ([storedText loneName], .file [3])]⟩

/-- Files with odd names, one of them twice, and an archive that has an entry. -/
def oddSession : Session where
  premises := Program.sample.premises
  initial := { tree := oddTree }
  archive := Program.sample.root
  files := [brokenName, separatedName, brokenName, loneName]
  stop := 15

/-- The file that comes twice is recorded for the second of them first. -/
def oddTurns : List Nat := [0, 1, 1, 0, 2, 3, 1, 2, 2, 3, 0, 3]

def oddStored : List ArchiveEntry :=
  (oddSession.after oddTurns).stages.filterMap StoreStage.stored?

theorem odd_prepared : oddSession.scene.Prepared := by
  refine Scene.prepared_of_short rfl (fun a ha => (Option.some.inj ha).symm) (by decide) ?_
  decide +kernel

/-- The entries that the turns put in. -/
def oddNew : List ArchiveEntry := oddSession.appends oddSession.start oddTurns

theorem odd_evaluated :
    oddTree.read "/" Program.sample.root.manifest = .ok (content [oldEntry]) ∧
    (oddSession.after oddTurns).stages = oddStored.map .stored ∧
    (oddSession.after oddTurns).world.supplied ≤ 15 ∧
    (oddTree.read "/" (Program.sample.root.copyPath oldEntry.archived)).isOk = true ∧
    oldEntry.file = resolve "/" "old.py" ∧
    (∀ e ∈ firsts ([oldEntry] ++ oddNew),
      ((oddSession.after oddTurns).world.tree.read "/" e.file).isOk = true) ∧
    oddNew.map ArchiveEntry.file =
      [separatedName, brokenName, brokenName, loneName].map (fun n => absolute [n]) ∧
    (firsts ([oldEntry] ++ oddNew)).map ArchiveEntry.file =
      [Text.ofString "old.py", separatedName, brokenName, loneName].map fun n =>
        absolute [n] := by
  decide +kernel

theorem readable_of_isOk {directory path : Text} (h : (t.read directory path).isOk = true) :
    t.Readable directory path := by
  cases hread : t.read directory path with
  | ok bytes => exact ⟨bytes, hread⟩
  | error e =>
    rw [hread] at h
    cases h

/-- **Odd names come back**, the first entry of each path in the order of the manifest. -/
theorem stores_round_trip_odd : oddSession.scene.Prepared ∧
    oddSession.archive.Lists oddSession.directory oddSession.initial.tree [oldEntry] ∧
    (oddSession.after oddTurns).stages = oddStored.map .stored ∧
    (oddSession.after oddTurns).world.supplied ≤ oddSession.stop ∧ oddNew.Perm oddStored ∧
    StateT.run (oddSession.archive.entries oddSession.host).run
        (oddSession.after oddTurns).world.calm =
      (.ok ([oldEntry] ++ oddNew), (oddSession.after oddTurns).world.calm) ∧
    ∃ found w', StateT.run (oddSession.archive.recover oddSession.host).run
        (oddSession.after oddTurns).world.calm = (.ok found, w') ∧
      found.map ArchiveEntry.file =
        [Text.ofString "old.py", separatedName, brokenName, loneName].map fun n =>
          absolute [n] := by
  obtain ⟨hread, hend, hstop, hcopy, hresolved, hfiles, _, hfirsts⟩ := odd_evaluated
  have hlists : oddSession.archive.Lists oddSession.directory oddSession.initial.tree
      [oldEntry] := .inl hread
  have hstocked : ∀ e ∈ [oldEntry], oddSession.Stocked oddSession.initial.tree e := by
    intro e he
    rw [List.mem_singleton.mp he]
    exact ⟨⟨_, _, hresolved⟩, readable_of_isOk hcopy⟩
  obtain ⟨hperm, _, hentries, _, hrecover, _⟩ := stores_round_trip odd_prepared hlists hend hstop
  obtain ⟨w', hrun⟩ := hrecover hstocked fun e he => readable_of_isOk (hfiles e he)
  exact ⟨odd_prepared, hlists, hend, hstop, hperm, hentries, _, w', hrun, hfirsts⟩

/-! ## A path that spells another place -/

/-- A path leads through a link and up again to a file, but what it spells is a directory. -/
def detourSession : Session where
  premises := Program.sample.premises
  initial :=
    { tree := ⟨[(["y"], .directory), (["y", "z"], .directory), (["x"], .link "y/z"),
        (["y", "d.py"], .file Program.markedBytes), (["d.py"], .directory)]⟩ }
  archive := Program.sample.root
  files := ["x/../d.py"]
  stop := 15

def detourEnd : State := detourSession.after [0, 0, 0]

/-- **A stored file that cannot be recovered**: its entry is there, but recovery would have to copy
a file over a directory. -/
theorem recover_fails_at_directory : detourSession.scene.Prepared ∧
    detourSession.archive.Lists detourSession.directory detourSession.initial.tree [] ∧
    ∃ e, detourEnd.stages = [.stored e] ∧
      (StateT.run (detourSession.archive.entries detourSession.host).run
        detourEnd.world).1.toOption = some [e] ∧
      (StateT.run (detourSession.archive.recover detourSession.host).run
        detourEnd.world).1.isOk = false := by
  have hnone : ∃ e, detourSession.initial.tree.read detourSession.directory
      detourSession.archive.manifest = .error e ∧ e.cause = .noEntry :=
    ⟨⟨.noEntry, "open", [detourSession.archive.manifest]⟩, by decide +kernel, rfl⟩
  have hend : ∃ e ∈ detourEnd.stages.filterMap StoreStage.stored?, detourEnd.stages = [.stored e] ∧
      (StateT.run (detourSession.archive.entries detourSession.host).run
        detourEnd.world).1.toOption = some [e] ∧
      (StateT.run (detourSession.archive.recover detourSession.host).run
        detourEnd.world).1.isOk = false := by
    decide +kernel
  obtain ⟨e, _, hend⟩ := hend
  refine ⟨?_, .inr ⟨rfl, hnone⟩, e, hend⟩
  refine Scene.prepared_of_short rfl (fun a ha => (Option.some.inj ha).symm) (by decide) ?_
  decide +kernel

end Session

end Posonly
