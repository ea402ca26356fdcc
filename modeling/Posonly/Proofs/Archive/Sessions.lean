import Posonly.Proofs.Archive.Recovery
import Posonly.Proofs.Batch.Foretold

/-!
# Files that are stored side by side

Several files may be stored in one archive at once, and their actions may come in any order. None of
these actions takes anything away, copies have a token in their name, and nothing but an entry is
put at the end of the manifest. So the manifest always holds the entries from before and then those
that have been put there since, in that order (`Sound`).
-/

open List Posonly.FileTree

namespace Posonly

/-- The entry of a file that has been stored. -/
def StoreStage.stored? : StoreStage → Option ArchiveEntry
  | .stored entry => some entry
  | _ => none

/-- Files that are to be stored in one archive, what there is at the start, and how many supplies
there are. -/
structure Session extends premises : Premises where
  initial : World
  archive : Archive
  files : List Text
  stop : Nat

namespace Session

/-- How far each file has come. -/
structure State where
  stages : List StoreStage
  world : World

def start (s : Session) : State := ⟨s.files.map fun _ => .making, s.initial⟩

/-- The storing of a file goes on by one action, if it is not at its end. -/
def turn (s : Session) (x : State) (i : Nat) : State :=
  match s.files[i]?, x.stages[i]? with
  | some file, some stage =>
    let reached := ((s.archive.storing s.directory file).step s.host stage).run x.world
    ⟨x.stages.set i reached.1, reached.2⟩
  | _, _ => x

/-- How far the files have come when each turn went to the file with some index. -/
def after (s : Session) (turns : List Nat) : State := turns.foldl s.turn s.start

/-- The entry that a turn puts into the manifest. -/
def appended (s : Session) (x : State) (i : Nat) : List ArchiveEntry :=
  match x.stages[i]?, (s.turn x i).stages[i]? with
  | some (.recording _), some (.stored entry) => [entry]
  | _, _ => []

/-- The entries that turns put into the manifest, one after the other. -/
def appends (s : Session) : State → List Nat → List ArchiveEntry
  | _, [] => []
  | x, i :: turns => s.appended x i ++ s.appends (s.turn x i) turns

/-- No file could not be stored. -/
def State.Unfailed (x : State) : Prop := ∀ stage ∈ x.stages, ∀ e, stage ≠ .failed e

/-- What a session shares with a batch: there are an archive and tokens, but no files to be read. -/
def scene (s : Session) : Scene := ⟨s.premises, s.initial, some s.archive, [], s.stop⟩

end Session

/-- A path leads to a file. -/
def FileTree.Readable (t : FileTree) (directory path : Text) : Prop :=
  ∃ bytes, t.read directory path = .ok bytes

theorem FileTree.Readable.steady {t u : FileTree} {directory path : Text}
    (h : t.Readable directory path) (hsteady : t.Steady u) : u.Readable directory path := by
  obtain ⟨bytes, hread⟩ := h
  obtain ⟨q, hlocate⟩ := read_eq_ok_iff.mp hread
  obtain ⟨bytes', hfile⟩ := hsteady.file (get?_of_locate hlocate)
  have hleads := locate_steady hsteady id hlocate
  rw [hfile] at hleads
  exact ⟨bytes', read_eq_ok_iff.mpr ⟨q, hleads⟩⟩

namespace Session

variable {s : Session} {t u : FileTree} {entries earlier new : List ArchiveEntry} {e : ArchiveEntry}
  {file token : Text} {stage : StoreStage} {x : State} {i : Nat} {action : FileAction}
  {supply : Supply}

/-! ## The manifest -/

/-- What the manifest holds while files are stored: some entries; or it was not there at the start,
and nobody has written it. -/
inductive Holds (s : Session) (t : FileTree) : List ArchiveEntry → Prop where
  | listed (entries : List ArchiveEntry)
      (h : t.read s.directory s.archive.manifest = .ok (Manifest.content entries)) :
      Holds s t entries
  | absent (hstart : ¬ s.initial.tree.Readable s.directory s.archive.manifest)
      (hfiles : ∀ q bytes, (∀ n ∈ q, s.scene.Clean n) → t.get? q = some (.file bytes) →
        ∃ old, s.initial.tree.get? q = some (.file old)) : Holds s t []

section

variable (hs : s.scene.Prepared)

include hs

theorem separate : s.scene.Separate where
  shaped _ := hs.isToken
  unknown _ _ _ _ hfresh hnode := hs.unknown hfresh hnode
  apart i j place bytes bytes' hi _ := by
    obtain ⟨file, hfile, _⟩ := hi
    cases hfile
  outside a i place bytes node _ hread := by
    obtain ⟨file, hfile, _⟩ := hread
    cases hfile

variable (hwithin : t.Lasts (fun _ => False) s.scene.made)

include hwithin

theorem not_readable (hstart : ¬ s.initial.tree.Readable s.directory s.archive.manifest)
    (hfiles : ∀ q bytes, (∀ n ∈ q, s.scene.Clean n) → t.get? q = some (.file bytes) →
      ∃ old, s.initial.tree.get? q = some (.file old)) :
    ¬ t.Readable s.directory s.archive.manifest := by
  rintro ⟨bytes, hread⟩
  obtain ⟨q, hlocate⟩ := read_eq_ok_iff.mp hread
  obtain ⟨old, hold⟩ := hfiles q bytes (hs.clean_manifest rfl hwithin hlocate)
    (get?_of_locate hlocate)
  have hmade : s.scene.made.get? q = some (.file old) := Scene.making_keeps hold
  have hleads := locate_lasting hwithin id (fun _ => False.elim) hlocate (by simp [hmade])
  rw [hmade] at hleads
  exact hstart ⟨old, read_eq_ok_iff.mpr ⟨q, hs.read_made rfl hleads⟩⟩

/-- **The manifest stays as it is** if no file changes but those with a token in their name. -/
theorem Holds.carry (h : s.Holds t entries) (hgrown : t.Grown u)
    (hsame : ∀ q bytes, (∀ n ∈ q, s.scene.Clean n) →
      (u.get? q = some (.file bytes) ↔ t.get? q = some (.file bytes))) : s.Holds u entries := by
  cases h with
  | listed _ hread =>
    obtain ⟨q, hlocate⟩ := read_eq_ok_iff.mp hread
    have hfile := (hsame q _ (hs.clean_manifest rfl hwithin hlocate)).mpr
      (get?_of_locate hlocate)
    have hleads := locate_steady hgrown.steady id hlocate
    rw [hfile] at hleads
    exact .listed entries (read_eq_ok_iff.mpr ⟨q, hleads⟩)
  | absent hstart hfiles =>
    exact .absent hstart fun q bytes hq hfile => hfiles q bytes hq ((hsame q bytes hq).mp hfile)

theorem Holds.append (h : s.Holds t entries)
    (hmodify : t.modify s.directory s.archive.manifest
      (· ++ Encoding.utf8.encode e.line) = (none, u)) :
    t.Grown u ∧ s.Holds u (entries ++ [e]) := by
  rcases modify_cases t s.directory s.archive.manifest
      (· ++ Encoding.utf8.encode e.line) with ⟨hfails, _⟩ | ⟨m, old, htarget, hput⟩
  · rw [hmodify] at hfails
    exact absurd rfl hfails
  rw [hmodify, Prod.mk.injEq] at hput
  obtain ⟨_, rfl⟩ := hput
  obtain ⟨node, hlocate, hnode⟩ := locateTarget_ok htarget
  have hold : old = Manifest.content entries := by
    cases h with
    | listed _ hread =>
      obtain ⟨q, hleads⟩ := read_eq_ok_iff.mp hread
      rw [hlocate, Except.ok.injEq, Spot.mk.injEq] at hleads
      rcases hnode with hfile | ⟨hnone, _⟩
      · rw [hleads.2, Option.some.injEq, FileNode.file.injEq] at hfile
        exact hfile.symm
      · rw [hleads.2] at hnone
        cases hnone
    | absent hstart hfiles =>
      rcases hnode with rfl | ⟨_, rfl⟩
      · have hreadable : t.Readable s.directory s.archive.manifest :=
          ⟨old, read_eq_ok_iff.mpr ⟨m, hlocate⟩⟩
        exact absurd hreadable (not_readable hs hwithin hstart hfiles)
      · rfl
  have hopen := open_of_locateTarget htarget
  refine ⟨grown_put_file hopen, .listed _ (read_eq_ok_iff.mpr ⟨m, ?_⟩)⟩
  rw [locate_put hopen hlocate, hold, Manifest.content_append]

end

/-! ## One action -/

/-- What is known of a file that has come so far: its copy gets a new name, and then it is there. -/
def Reached (s : Session) (t : FileTree) (file : Text) : StoreStage → Prop
  | .making | .failed _ => True
  | .copying archived => ∃ token, s.scene.Fresh token ∧ archived = Archive.copyName file token
  | .recording e | .stored e => e.file = Path.resolve s.directory file ∧
      t.Readable s.directory (s.archive.copyPath e.archived)

theorem Reached.steady (h : s.Reached t file stage) (hsteady : t.Steady u) :
    s.Reached u file stage := by
  cases stage with
  | making => trivial
  | copying archived => exact h
  | recording e | stored e => exact ⟨h.1, h.2.steady hsteady⟩
  | failed e => trivial

/-- What an action of a session does: nothing is taken away, and the manifest gets the entries that
it is to get. -/
structure Step (s : Session) (t u : FileTree) (entries more : List ArchiveEntry) : Prop where
  grown : t.Grown u
  stands : s.scene.Stands (fun _ => False) u
  holds : s.Holds u (entries ++ more)

section

variable (hs : s.scene.Prepared)
  (hstands : s.scene.Stands (fun _ => False) t) (h : s.Holds t entries)

include hs hstands h

theorem step_making : s.Step t (s.scene.making t).2 entries [] where
  grown := s.scene.grown_making t
  stands := hstands.making
  holds := by
    rw [append_nil]
    refine h.carry hs hstands.within (s.scene.grown_making t) fun q bytes _ => ?_
    rcases s.scene.making_adds t q with hsame | ⟨hnone, hdir⟩
    · rw [hsame]
    · rw [hnone, hdir]
      simp

theorem step_copying (hfresh : s.scene.Fresh token)
    (hcopy : t.copy s.directory file (s.archive.copyPath (Archive.copyName file token)) =
      (none, u)) :
    s.Step t u entries [] ∧
      u.Readable s.directory (s.archive.copyPath (Archive.copyName file token)) := by
  have hshaped := hs.isToken hfresh
  have htoken : token <:+: Archive.copyName file token := ⟨_, _, rfl⟩
  obtain ⟨origin, bytes, c, old, hsource, htarget, hu⟩ := copy_ok hcopy
  obtain ⟨node, hlocate, _⟩ := locateTarget_ok htarget
  obtain ⟨p, hspot, hunknown⟩ := hstands.locate_token (separate hs)
    ((separate hs).tokened_copyPath s.archive file hfresh) hlocate
  have hc : c = p ++ [storedText (Archive.copyName file token)] := congrArg Spot.place hspot
  rw [← hc] at hunknown
  split at hu
  · -- the file is its own copy
    rename_i horigin
    have hfile := get?_of_locate (locateNode_ok hsource)
    rw [horigin, get?_of_locate hlocate] at hfile
    rw [hfile] at hlocate
    rw [hu]
    exact ⟨⟨.refl t, hstands, by rwa [append_nil]⟩, bytes, read_eq_ok_iff.mpr ⟨c, hlocate⟩⟩
  · have hopen := open_of_locateTarget htarget
    have hgrown : t.Grown (t.put c (.file bytes)) := grown_put_file hopen
    rw [hu]
    refine ⟨⟨hgrown, hstands.put_unknown hopen.ne_nil hunknown bytes, ?_⟩, bytes,
      read_eq_ok_iff.mpr ⟨c, locate_put hopen hlocate⟩⟩
    rw [append_nil]
    refine h.carry hs hstands.within hgrown fun q before hq => ?_
    rw [get?_put hopen.ne_nil, if_neg]
    -- no name of the place has a token in it, but that of the copy has
    rintro rfl
    exact hq _ (by simp [hc]) token hfresh (infix_storedText hshaped htoken)

theorem step_recording
    (hmodify : t.modify s.directory s.archive.manifest
      (· ++ Encoding.utf8.encode e.line) = (none, u)) : s.Step t u entries [e] where
  grown := (h.append hs hstands.within hmodify).1
  stands := by
    have hmodified := hstands.modify_manifest (separate hs) rfl (· ++ Encoding.utf8.encode e.line)
    have hu : (t.modify s.directory s.archive.manifest
        (· ++ Encoding.utf8.encode e.line)).2 = u := by rw [hmodify]
    exact hu ▸ hmodified
  holds := (h.append hs hstands.within hmodify).2

theorem Reached.advance {bytes : Bytes}
    (hreached : s.Reached t file stage) (haction : stage.action? s.archive file = some action)
    (hperform : t.perform s.directory action = (.ok bytes, u))
    (hfresh : s.scene.Fresh supply.token) :
    s.Step t u entries (stage.advance s.directory file (.ok bytes) supply).stored?.toList ∧
      s.Reached u file (stage.advance s.directory file (.ok bytes) supply) := by
  have hsettled : ∀ {request paths} {r : Option FileCause × FileTree},
      FileTree.settled request paths r = (.ok bytes, u) → r = (none, u) := by
    intro request paths r hr
    exact Prod.ext (settled_ok (congrArg Prod.fst hr))
      ((settled_snd request paths r).symm.trans (congrArg Prod.snd hr))
  cases stage with
  | making =>
    cases haction
    have hmade : s.scene.making t = (none, u) := hsettled hperform
    have hstep := step_making hs hstands h
    rw [hmade] at hstep
    exact ⟨hstep, supply.token, hfresh, rfl⟩
  | copying archived =>
    cases haction
    obtain ⟨token, htoken, rfl⟩ := hreached
    obtain ⟨hstep, hreadable⟩ := step_copying hs hstands h htoken (hsettled hperform)
    exact ⟨hstep, rfl, hreadable⟩
  | recording e =>
    cases haction
    have hstep := step_recording hs hstands h (hsettled hperform)
    exact ⟨hstep, hreached.steady hstep.grown.steady⟩
  | stored e | failed e => cases haction

end

/-! ## Turns -/

/-- **What a turn can do**: nothing, or an action of a file and its supply. -/
theorem turn_cases (s : Session) (x : State) (i : Nat) :
    s.turn x i = x ∨ ∃ file stage action reply w', s.files[i]? = some file ∧
      x.stages[i]? = some stage ∧
      stage.action? s.archive file = some action ∧ Acted s.premises x.world action reply w' ∧
      s.turn x i = ⟨x.stages.set i (stage.advance s.directory file reply
        (s.supply x.world.supplied)), w'⟩ := by
  unfold turn
  split
  · rename_i file stage hfile hstage
    cases haction : stage.action? s.archive file with
    | none =>
      refine .inl ?_
      obtain ⟨hi, rfl⟩ := List.getElem?_eq_some_iff.mp hstage
      rw [step_idle (s.archive.storing s.directory file) s.premises haction]
      dsimp only
      rw [set_getElem_self hi]
    | some action =>
      refine .inr ⟨file, stage, action, _, _, hfile, hstage, haction, acted_next .., ?_⟩
      rw [step_acts (s.archive.storing s.directory file) s.premises haction]
      rfl
  · exact .inl rfl

theorem turn_supplied (s : Session) (x : State) (i : Nat) :
    x.world.supplied ≤ (s.turn x i).world.supplied := by
  rcases s.turn_cases x i with hsame | ⟨_, _, _, _, w', _, _, _, hacted, hturn⟩
  · rw [hsame]
  · rw [hturn, hacted.supplied]
    exact Nat.le_succ _

theorem unfailed_of_turn (h : (s.turn x i).Unfailed) : x.Unfailed := by
  rcases s.turn_cases x i with
    hsame | ⟨file, stage, action, reply, w', _, hstage, haction, _, hturn⟩
  · rwa [hsame] at h
  · rw [hturn] at h
    rintro other hother e rfl
    obtain ⟨j, hj⟩ := mem_iff_getElem?.mp hother
    by_cases hij : i = j
    · subst hij
      rw [hstage, Option.some.injEq] at hj
      rw [hj] at haction
      cases haction
    · refine h (.failed e) (mem_iff_getElem?.mpr ⟨j, ?_⟩) e rfl
      rw [getElem?_set_ne hij, hj]

/-- So many turns of one file are so many steps of its storing, with nothing in between. -/
theorem run_turns (s : Session) (n : Nat) (hfile : s.files[i]? = some file)
    (hstage : x.stages[i]? = some stage) :
    (replicate n i).foldl s.turn x =
      ⟨x.stages.set i (StateT.run ((s.archive.storing s.directory file).run s.host
          n stage) x.world).1,
        (StateT.run ((s.archive.storing s.directory file).run s.host
          n stage) x.world).2⟩ := by
  obtain ⟨hi, hget⟩ := List.getElem?_eq_some_iff.mp hstage
  induction n generalizing x stage with
  | zero =>
    subst hget
    change x = ⟨x.stages.set i x.stages[i], x.world⟩
    rw [set_getElem_self hi]
  | succ n ih =>
    have hturn : s.turn x i = ⟨x.stages.set i
        (((s.archive.storing s.directory file).step s.host stage).run x.world).1,
        (((s.archive.storing s.directory file).step s.host stage).run
          x.world).2⟩ := by
      unfold turn
      rw [hfile, hstage]
    have hset := getElem?_set_self hi (a := (((s.archive.storing s.directory file).step
      s.host stage).run x.world).1)
    obtain ⟨hi', hget'⟩ := List.getElem?_eq_some_iff.mp hset
    rw [replicate_succ, foldl_cons, hturn, ih hset hi' hget', set_set]
    rfl

/-- **To store a file** is to give it all the turns that it needs. -/
theorem store_turns (s : Session) (x : State) (hfile : s.files[i]? = some file)
    (hstage : x.stages[i]? = some .making) :
    (replicate StoreStage.longest i).foldl s.turn x =
      ⟨x.stages.set i (StateT.run (s.archive.store s.host file) x.world).1,
        (StateT.run (s.archive.store s.host file) x.world).2⟩ :=
  s.run_turns StoreStage.longest hfile hstage

theorem appended_of_same (h : s.turn x i = x) : s.appended x i = [] := by
  unfold appended
  rw [h]
  split
  · rename_i hrecording hstored
    rw [hrecording] at hstored
    cases hstored
  · rfl

theorem appended_of_action {reply : FileReply} {w' : World}
    (hstage : x.stages[i]? = some stage) (haction : stage.action? s.archive file = some action)
    (hturn : s.turn x i = ⟨x.stages.set i (stage.advance s.directory file reply supply), w'⟩) :
    s.appended x i = (stage.advance s.directory file reply supply).stored?.toList := by
  obtain ⟨hi, _⟩ := List.getElem?_eq_some_iff.mp hstage
  unfold appended
  rw [hturn, hstage, getElem?_set_self hi]
  cases stage with
  | making | copying archived | recording e => cases reply <;> rfl
  | stored e | failed e => cases haction

theorem filterMap_set_perm {stages : List StoreStage} (hstage : stages[i]? = some stage)
    (hnone : stage.stored? = none) (next : StoreStage) :
    (stages.filterMap StoreStage.stored? ++ next.stored?.toList).Perm
      ((stages.set i next).filterMap StoreStage.stored?) := by
  obtain ⟨hi, rfl⟩ := List.getElem?_eq_some_iff.mp hstage
  obtain ⟨before, rest, hstages, _, hset⟩ : ∃ before rest, stages = before ++ stages[i] :: rest ∧
      before.length = i ∧ stages.set i next = before ++ next :: rest := exists_of_set hi
  have hall : stages.filterMap StoreStage.stored? =
      before.filterMap StoreStage.stored? ++ rest.filterMap StoreStage.stored? := by
    conv_lhs => rw [hstages]
    rw [filterMap_append, filterMap_cons, hnone]
  rw [hset, hall, filterMap_append, filterMap_cons, append_assoc]
  refine List.Perm.append_left _ ?_
  cases next.stored? with
  | none => exact .of_eq (append_nil _)
  | some e => exact perm_append_singleton e _

/-! ## What is known at every moment -/

/-- What is known of a session in which every file could be stored so far. -/
structure Sound (s : Session) (earlier : List ArchiveEntry) (x : State) (new : List ArchiveEntry) :
    Prop where
  grown : s.initial.tree.Grown x.world.tree
  stands : s.scene.Stands (fun _ => False) x.world.tree
  holds : s.Holds x.world.tree (earlier ++ new)
  length : x.stages.length = s.files.length
  reached : ∀ (i : Nat) file stage, s.files[i]? = some file → x.stages[i]? = some stage →
    s.Reached x.world.tree file stage
  /-- Each file that has been stored has put one entry in. -/
  recorded : new.Perm (x.stages.filterMap StoreStage.stored?)
  begun : s.initial.supplied ≤ x.world.supplied

theorem sound_start (h : s.Holds s.initial.tree earlier) : s.Sound earlier s.start [] where
  grown := .refl _
  stands := s.scene.stands_initial
  holds := by rwa [append_nil]
  length := length_map _
  reached i file stage _ hstage := by
    rw [start, getElem?_map, Option.map_eq_some_iff] at hstage
    obtain ⟨_, _, rfl⟩ := hstage
    trivial
  recorded := by
    rw [start, filterMap_map]
    exact .of_eq (filterMap_eq_nil_iff.mpr fun _ _ => rfl).symm
  begun := Nat.le_refl _

section

variable (hs : s.scene.Prepared)

include hs

/-- **A turn** puts at most its own entry into the manifest. -/
theorem Sound.turn (h : s.Sound earlier x new) (hstop : (s.turn x i).world.supplied ≤ s.stop)
    (hunfailed : (s.turn x i).Unfailed) : s.Sound earlier (s.turn x i) (new ++ s.appended x i) := by
  rcases s.turn_cases x i with
    hsame | ⟨file, stage, action, reply, w', hfile, hstage, haction, hacted, hturn⟩
  · rwa [appended_of_same hsame, append_nil, hsame]
  rw [appended_of_action hstage haction hturn]
  rw [hturn] at hstop hunfailed ⊢
  obtain ⟨hi, _⟩ := List.getElem?_eq_some_iff.mp hstage
  dsimp only at hstop
  rw [hacted.supplied] at hstop
  have hfresh : s.scene.Fresh (s.supply x.world.supplied).token :=
    ⟨x.world.supplied, h.begun, hstop, rfl⟩
  have hnone : stage.stored? = none := by
    cases stage with
    | stored e => cases haction
    | _ => rfl
  cases reply with
  | error e =>
    -- then this file could not be stored
    refine absurd rfl (hunfailed (.failed e) (mem_iff_getElem?.mpr ⟨i, ?_⟩) e)
    rw [getElem?_set_self hi]
    cases stage with
    | stored e | failed e => cases haction
    | _ => rfl
  | ok bytes =>
    obtain ⟨hstep, hreached⟩ :=
      (h.reached i file stage hfile hstage).advance hs h.stands h.holds haction
      hacted.yields.perform_eq hfresh
    refine
      { grown := h.grown.trans hstep.grown
        stands := hstep.stands
        holds := by rw [← append_assoc]; exact hstep.holds
        length := by rw [length_set]; exact h.length
        reached := fun j other stage' hother hstage' => ?_
        recorded := (h.recorded.append_right _).trans (filterMap_set_perm hstage hnone _)
        begun := ?_ }
    · by_cases hij : i = j
      · subst hij
        rw [getElem?_set_self hi, Option.some.injEq] at hstage'
        rw [hfile, Option.some.injEq] at hother
        rwa [← hstage', ← hother]
      · rw [getElem?_set_ne hij] at hstage'
        exact (h.reached j other stage' hother hstage').steady hstep.grown.steady
    · rw [hacted.supplied]
      exact Nat.le_succ_of_le h.begun

/-- **Whatever the order of the turns**, the manifest gets the entries that they put in. -/
theorem Sound.turns (turns : List Nat) (h : s.Sound earlier x new)
    (hstop : (turns.foldl s.turn x).world.supplied ≤ s.stop)
    (hunfailed : (turns.foldl s.turn x).Unfailed) :
    s.Sound earlier (turns.foldl s.turn x) (new ++ s.appends x turns) := by
  have hback : ∀ (turns : List Nat) (x : State), x.world.supplied ≤
      (turns.foldl s.turn x).world.supplied ∧ ((turns.foldl s.turn x).Unfailed → x.Unfailed) := by
    intro turns
    induction turns with
    | nil => exact fun x => ⟨Nat.le_refl _, id⟩
    | cons i turns ih =>
      intro x
      obtain ⟨hle, hgood⟩ := ih (s.turn x i)
      exact ⟨Nat.le_trans (s.turn_supplied x i) hle, fun hlast => unfailed_of_turn (hgood hlast)⟩
  induction turns generalizing x new with
  | nil =>
    rwa [appends, append_nil]
  | cons i turns ih =>
    obtain ⟨hle, hgood⟩ := hback turns (s.turn x i)
    have hnext := h.turn hs (Nat.le_trans hle hstop) (hgood hunfailed)
    rw [appends, ← append_assoc]
    exact ih hnext hstop hunfailed

end

end Session

end Posonly
