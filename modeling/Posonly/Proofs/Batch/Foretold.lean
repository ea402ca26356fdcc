import Posonly.Proofs.Batch.Smooth

/-!
# What becomes of files can be foretold

A batch changes files while others are still to be read. It writes to temporary files, to copies and
to the manifest of the archive, and it moves files over those that have been converted, or over
links to them. None of that is on the way to a file that is still to be read, if no two files of the
batch are the same (`Stands`). So each file is read with the bytes that it had at the start, and
what becomes of it can be told from these bytes alone (`Foretold`), as long as no action fails.
-/

open List Posonly.FileTree

namespace Posonly

/-- What becomes of a file with some bytes if nothing is written. -/
def Task.forecast (t : Task) (bytes : Bytes) : Except TaskError FileOutcome :=
  match Conversion.convert t.parse (t.options.encoding.decode bytes)
      { t.options.values with filename := some t.file } with
  | .error e => .error (.conversion e)
  | .ok result =>
    .ok { file := t.file, state := result.state, source := t.options.encoding.decode bytes
          edits := result.edits, written := false }

/-- An outcome without what was written. -/
def FileOutcome.unwritten (o : FileOutcome) : FileOutcome :=
  { o with written := false, archived := none }

namespace Scene

/-- What the bytes of a file are converted to. -/
structure Converts (task : Task) (old : Bytes) (source : Text)
    (result : Conversion.Result) : Prop where
  decoded : source = task.options.encoding.decode old
  converted : Conversion.convert task.parse source
    { task.options.values with filename := some task.file } = .ok result

/-- The file with an index, links followed, and its bytes before the batch. -/
def Reads (s : Scene) (i : Nat) (place : Place) (bytes : Bytes) : Prop :=
  ∃ file, s.files[i]? = some file ∧
    s.initial.tree.locate s.directory file true = .ok ⟨place, some (.file bytes)⟩

/-- A batch of different files, none of which is the manifest, with tokens that are new. -/
structure Separate (s : Scene) : Prop where
  shaped : ∀ token, s.Fresh token → IsToken token
  /-- No name has a token in it, even when there is an archive. -/
  unknown : ∀ token place n node, s.Fresh token → s.made.get? (place ++ [n]) = some node →
    ¬ token <:+: n
  apart : ∀ i j place bytes bytes', s.Reads i place bytes → s.Reads j place bytes' → i = j
  outside : ∀ a i place bytes node, s.archive = some a → s.Reads i place bytes →
    s.made.locate s.directory a.manifest true ≠ .ok ⟨place, node⟩

/-- A path ends in a name with a new token in it. -/
structure Tokened (s : Scene) (path name : Text) : Prop where
  last : ∃ cs, Path.components path = cs ++ [name]
  token : ∃ token, s.Fresh token ∧ token <:+: name

variable {s : Scene} {t u : FileTree} {ended : Nat → Prop} {i : Nat}
  {place q : Place} {bytes : Bytes}
  {task : Task} {stage : Stage} {token : Text} {action : FileAction} {supply : Supply}

theorem Separate.tokened_temporaryPath (hs : s.Separate) (task : Task) (h : s.Fresh token) :
    ∃ n, s.Tokened (task.temporaryPath token) n ∧ TemporaryName token (storedText n) := by
  obtain ⟨cs, n, hlast, hn, hname, _⟩ := temporaryPath_last task (hs.shaped token h)
  exact ⟨n, ⟨⟨cs, hlast⟩, token, h, hn⟩, hname⟩

theorem Separate.tokened_copyPath (hs : s.Separate) (a : Archive)
    (file : Text) (h : s.Fresh token) :
    s.Tokened (a.copyPath (Archive.copyName file token)) (Archive.copyName file token) :=
  ⟨copyPath_last a file (hs.shaped token h), token, h, _, _, rfl⟩

/-! ## The tree with an archive -/

/-- A tree with no other directories than those with an archive gets none by making the archive. -/
theorem making_within (h : Lasts (fun _ => False) t s.made)
    (hpresent : ∀ q, t.get? q = none → s.initial.tree.get? q = none) :
    Lasts (fun _ => False) (s.making t).2 s.made := by
  have hadds : ∀ q, t.get? q = none → s.made.get? q = none ∨ s.made.get? q = some .directory := by
    intro q hq
    rcases s.making_adds s.initial.tree q with hsame | ⟨_, hdirectory⟩
    · exact .inl (hsame.trans (hpresent q hq))
    · exact .inr hdirectory
  rcases s.making_shape with ⟨cause, hnothing⟩ | ⟨names, halong⟩
  · rwa [hnothing]
  · rw [halong]
    unfold made at h hadds ⊢
    rw [halong] at h hadds ⊢
    exact makeAlong_within (makeAlong_twice rfl) h hadds

/-! ## Files that are still to be read -/

/-- A link to a file whose task has ended. -/
def Passed (s : Scene) (ended : Nat → Prop) (x : Place) : Prop :=
  ∃ i place bytes, ended i ∧ s.Reads i place bytes ∧ s.initial.tree.LinksTo x place

/-- What is known of a tree while some tasks have ended: it has what it had, up to the bytes of
files and to links that have been replaced, its directories and links are no others than those with
an archive, and the files of all other tasks have the bytes that they had. -/
structure Stands (s : Scene) (ended : Nat → Prop) (t : FileTree) : Prop where
  lasts : s.initial.tree.Lasts (s.Passed ended) t
  within : t.Lasts (fun _ => False) s.made
  present : ∀ q, t.get? q = none → s.initial.tree.get? q = none
  files : ∀ i place bytes, ¬ ended i → s.Reads i place bytes → t.get? place = some (.file bytes)

theorem Reads.get? (h : s.Reads i place bytes) :
    s.initial.tree.get? place = some (.file bytes) := by
  obtain ⟨file, _, hlocate⟩ := h
  exact get?_of_locate hlocate

theorem Reads.unique {place' : Place} {bytes' : Bytes} (h : s.Reads i place bytes)
    (h' : s.Reads i place' bytes') : bytes = bytes' := by
  obtain ⟨file, hfile, hlocate⟩ := h
  obtain ⟨file', hfile', hlocate'⟩ := h'
  obtain rfl : file = file' := Option.some.inj (hfile.symm.trans hfile')
  rw [hlocate, Except.ok.injEq, Spot.mk.injEq, Option.some.injEq, FileNode.file.injEq] at hlocate'
  exact hlocate'.2

theorem stands_initial (s : Scene) : s.Stands (fun _ => False) s.initial.tree where
  lasts := ⟨id, .inl⟩
  within := ⟨fun h => making_keeps h, fun h => .inl (making_keeps h)⟩
  present _ h := h
  files _ _ _ _ h := h.get?

namespace Stands

section

variable (h : s.Stands ended t)

include h

theorem mono {ended' : Nat → Prop} (hmore : ∀ i, ended i → ended' i) : s.Stands ended' t where
  lasts := by
    refine ⟨h.lasts.directory, fun hlink => (h.lasts.link hlink).imp_right ?_⟩
    rintro ⟨i, place, bytes, hended, hread⟩
    exact ⟨i, place, bytes, hmore i hended, hread⟩
  within := h.within
  present := h.present
  files i place bytes hnot := h.files i place bytes fun hended => hnot (hmore i hended)

theorem making : s.Stands ended (s.making t).2 where
  lasts := ⟨fun hq => making_keeps (h.lasts.directory hq),
    fun hq => (h.lasts.link hq).imp_left making_keeps⟩
  within := making_within h.within h.present
  present q hq := h.present q (absent_of_making hq)
  files i place bytes hnot hread := making_keeps (h.files i place bytes hnot hread)

/-- **A file is put** where no directory and no file is that is still to be read, and no link but
one to a file whose task has ended. -/
theorem put (hne : q ≠ []) (hdir : t.get? q ≠ some .directory)
    (hlink : ∀ target, s.initial.tree.get? q = some (.link target) →
      t.get? q = some (.link target) → s.Passed ended q)
    (hfile : ∀ i place bytes, ¬ ended i → s.Reads i place bytes → place ≠ q) (new : Bytes) :
    s.Stands ended (t.put q (.file new)) where
  lasts := by
    refine ⟨fun {p} hp => ?_, fun {p target} hp => ?_⟩
    · rw [get?_put hne, if_neg]
      · exact h.lasts.directory hp
      · rintro rfl
        exact hdir (h.lasts.directory hp)
    · rw [get?_put hne]
      -- a link that is replaced was one to a file whose task has ended
      by_cases hpq : p = q
      · subst hpq
        exact .inr ((h.lasts.link hp).elim (hlink target hp) id)
      · rw [if_neg hpq]
        exact h.lasts.link hp
  within := by
    refine ⟨fun {p} hp => ?_, fun {p target} hp => ?_⟩
    · rw [get?_put hne] at hp
      split at hp
      · cases hp
      · exact h.within.directory hp
    · rw [get?_put hne] at hp
      split at hp
      · cases hp
      · exact h.within.link hp
  present p hp := by
    rw [get?_put hne] at hp
    split at hp
    · cases hp
    · exact h.present p hp
  files i place bytes hnot hread := by
    rw [get?_put hne, if_neg (hfile i place bytes hnot hread)]
    exact h.files i place bytes hnot hread

theorem erase (hne : q ≠ []) (hq : s.initial.tree.get? q = none) : s.Stands ended (t.erase q) := by
  have hsame : ∀ {p node}, s.initial.tree.get? p = some node → (t.erase q).get? p = t.get? p := by
    intro p node hp
    rw [get?_erase hne, if_neg]
    rintro rfl
    rw [hq] at hp
    cases hp
  have hless : ∀ {p node}, (t.erase q).get? p = some node → t.get? p = some node := by
    intro p node hp
    rw [get?_erase hne] at hp
    split at hp
    · cases hp
    · exact hp
  refine ⟨⟨fun hp => ?_, fun hp => ?_⟩,
    ⟨fun hp => h.within.directory (hless hp), fun hp => h.within.link (hless hp)⟩, fun p hp => ?_,
    fun i place bytes hnot hread => ?_⟩
  · rw [hsame hp]
    exact h.lasts.directory hp
  · rw [hsame hp]
    exact h.lasts.link hp
  · by_cases hpq : p = q
    · rwa [hpq]
    · rw [get?_erase hne, if_neg hpq] at hp
      exact h.present p hp
  · rw [hsame hread.get?]
    exact h.files i place bytes hnot hread

theorem put_unknown (hne : q ≠ []) (hq : s.made.get? q = none) (new : Bytes) :
    s.Stands ended (t.put q (.file new)) := by
  have hinitial : s.initial.tree.get? q = none := absent_of_making hq
  refine h.put hne (fun hdir => ?_) (fun target hlink => ?_)
    (fun i place bytes _ hread heq => ?_) new
  · rw [h.within.directory hdir] at hq
    cases hq
  · rw [hinitial] at hlink
    cases hlink
  · subst heq
    rw [hread.get?] at hinitial
    cases hinitial

end

/-! ## Where paths lead -/

/-- If its last link is not followed, the path of a file leads where it led, to the file or to a
link to it. -/
theorem locate_unfollowed (h : s.Stands ended t) (hread : s.Reads i place bytes)
    (hfile : s.files[i]? = some task.file) :
    ∃ x, t.locate s.directory task.file false = .ok ⟨x, t.get? x⟩ ∧
      (x = place ∨ s.initial.tree.LinksTo x place) := by
  obtain ⟨file, hfile', hlocate⟩ := hread
  rw [hfile, Option.some.injEq] at hfile'
  subst hfile'
  have hgone : ∀ q x, s.Passed ended x →
      ∃ r, s.initial.tree.LinksTo x r ∧ (false = true → r ≠ q) := by
    rintro q x ⟨_, r, _, _, _, hto⟩
    exact ⟨r, hto, fun hfalse => by cases hfalse⟩
  rcases FileTree.locate_unfollowed hlocate with hsame | ⟨x, target, hlink, hto⟩
  · exact ⟨place, locate_lasting h.lasts id (hgone place) hsame (by simp), .inl rfl⟩
  · exact ⟨x, locate_lasting h.lasts id (hgone x) hlink (by simp), .inr hto⟩

variable (hs : s.Separate) (h : s.Stands ended t)

include hs h

/-- **A file that is still to be read** is where it was, with the bytes that it had. -/
theorem locate_file (hnot : ¬ ended i) (hread : s.Reads i place bytes)
    (hfile : s.files[i]? = some task.file) :
    t.locate s.directory task.file true = .ok ⟨place, some (.file bytes)⟩ := by
  have hnode := h.files i place bytes hnot hread
  obtain ⟨file, hfile', hlocate⟩ := id hread
  rw [hfile, Option.some.injEq] at hfile'
  subst hfile'
  have hlocate' := locate_lasting h.lasts id (fun x hx => ?_) hlocate (by simp [hnode])
  · rw [hlocate', hnode]
  · obtain ⟨j, place', bytes', hended, hread', hto⟩ := hx
    refine ⟨place', hto, fun _ heq => hnot ?_⟩
    rwa [hs.apart i j place bytes bytes' hread (heq ▸ hread')]

variable {name path : Text} {followLast : Bool} {spot : Spot} {a : Archive}

/-- **A path that ends in a name with a token** leads to where nothing is with an archive. -/
theorem locate_token (hpath : s.Tokened path name)
    (hspot : t.locate s.directory path followLast = .ok spot) :
    ∃ p, spot = ⟨p ++ [storedText name], t.get? (p ++ [storedText name])⟩ ∧
      s.made.get? (p ++ [storedText name]) = none := by
  obtain ⟨⟨cs, hlast⟩, token, hfresh, htoken⟩ := hpath
  have hshaped := hs.shaped token hfresh
  have hslash : Path.slash ∉ name := Path.slash_notMem_component (by rw [hlast]; simp)
  have hunknown : ∀ p, s.made.get? (p ++ [storedText name]) = none := by
    intro p
    cases hnode : s.made.get? (p ++ [storedText name]) with
    | none => rfl
    | some node =>
      exact absurd (infix_storedText hshaped htoken) (hs.unknown token p _ node hfresh hnode)
  obtain ⟨p, rfl⟩ := locate_stored (isName_storedText hshaped htoken hslash)
    (fun p target hlink => by
      have hmade := (h.within.link hlink).resolve_right id
      rw [hunknown p] at hmade
      cases hmade) hlast hspot
  exact ⟨p, rfl, hunknown p⟩

/-! ## What actions do -/

theorem modify_token (hpath : s.Tokened path name) (f : Bytes → Bytes) :
    s.Stands ended (t.modify s.directory path f).2 := by
  rcases modify_cases t s.directory path f with
    ⟨_, hsame⟩ | ⟨q, old, htarget, hmodify⟩
  · rwa [hsame]
  · obtain ⟨node, hlocate, _⟩ := locateTarget_ok htarget
    obtain ⟨p, hspot, hunknown⟩ := h.locate_token hs hpath hlocate
    cases hspot
    rw [hmodify]
    exact h.put_unknown (by simp) hunknown _

theorem copy_token (hpath : s.Tokened path name) (hnot : ¬ ended i) (hread : s.Reads i place bytes)
    (hfile : s.files[i]? = some task.file) :
    s.Stands ended (t.copy s.directory task.file path).2 := by
  have hsource : ∀ q node, t.locateNode s.directory task.file true = .ok (q, node) →
      ∃ bytes, node = .file bytes := by
    intro q node hnode
    rw [locateNode_of_locate (h.locate_file hs hnot hread hfile), Except.ok.injEq,
      Prod.mk.injEq] at hnode
    exact ⟨bytes, hnode.2.symm⟩
  rcases copy_cases path hsource with ⟨_, hsame⟩ | ⟨origin, old, q, _, _, htarget, hcopy⟩
  · rwa [hsame]
  · obtain ⟨node, hlocate, _⟩ := locateTarget_ok htarget
    obtain ⟨p, hspot, hunknown⟩ := h.locate_token hs hpath hlocate
    cases hspot
    rw [hcopy]
    dsimp only
    split
    · exact h
    · exact h.put_unknown (by simp) hunknown old

/-- The manifest is none of the files, since it would be one at the start, too. -/
theorem manifest_other {node : Option FileNode} (ha : s.archive = some a) (hnot : ¬ ended i)
    (hread : s.Reads i place bytes)
    (hlocate : t.locate s.directory a.manifest true = .ok ⟨q, node⟩) : place ≠ q := by
  intro heq
  subst heq
  have hfile := h.files i place bytes hnot hread
  have hmade : s.made.get? place = some (.file bytes) := making_keeps hread.get?
  rw [← get?_of_locate hlocate, hfile] at hlocate
  exact hs.outside a i place bytes _ ha hread
    (locate_lasting h.within id (fun _ => False.elim) hlocate (by simp [hmade]))

theorem modify_manifest (ha : s.archive = some a) (f : Bytes → Bytes) :
    s.Stands ended (t.modify s.directory a.manifest f).2 := by
  rcases modify_cases t s.directory a.manifest f with
    ⟨_, hsame⟩ | ⟨q, old, htarget, hmodify⟩
  · rwa [hsame]
  rw [hmodify]
  obtain ⟨_, hlocate, _⟩ := locateTarget_ok htarget
  have hopen := open_of_locateTarget htarget
  refine h.put hopen.ne_nil (fun hdir => ?_) (fun target _ hlink => ?_)
    (fun j place bytes hnot hread => h.manifest_other hs ha hnot hread hlocate) _
  · rw [Open, hdir] at hopen
    simp at hopen
  · rw [Open, hlink] at hopen
    simp at hopen

/-- **A file is moved over another**, or over a link to it. This ends the task of the other. -/
theorem rename_token (hpath : s.Tokened path name) (hread : s.Reads i place bytes)
    (hfile : s.files[i]? = some task.file) :
    s.Stands (fun j => ended j ∨ j = i) (t.rename s.directory path task.file).2 := by
  have hmore : s.Stands (fun j => ended j ∨ j = i) t := h.mono fun _ => .inl
  rcases rename_cases t s.directory path task.file with
    hsame | ⟨origin, node, x, old, hsource, htarget, hold, hrename⟩
  · rwa [hsame]
  obtain ⟨p, hspot, hunknown⟩ := h.locate_token hs hpath (locateNode_ok hsource)
  obtain ⟨rfl, hnode⟩ := Spot.mk.inj hspot
  have hne : p ++ [storedText name] ≠ [] := by simp
  obtain ⟨new, rfl⟩ : ∃ new, node = .file new := by
    cases node with
    | file new => exact ⟨new, rfl⟩
    | directory =>
      rw [h.within.directory hnode.symm] at hunknown
      cases hunknown
    | link target =>
      rw [(h.within.link hnode.symm).resolve_right id] at hunknown
      cases hunknown
  -- the last link of the path is not followed here, so it is the link that is replaced
  obtain ⟨x', htarget', hx⟩ := h.locate_unfollowed hread hfile
  rw [htarget', Except.ok.injEq, Spot.mk.injEq] at htarget
  obtain ⟨rfl, rfl⟩ := htarget
  rw [hrename]
  refine (hmore.erase hne (absent_of_making hunknown)).put
    (fun hnil => hold (by rw [hnil]; rfl)) (fun hdir => ?_)
    (fun target hlink _ => ?_) (fun j place' bytes' hnot hread' heq => ?_) new
  · rw [get?_erase hne] at hdir
    split at hdir
    · cases hdir
    · exact hold hdir
  · rcases hx with rfl | hto
    · rw [hread.get?] at hlink
      cases hlink
    · exact ⟨i, place, bytes, .inr rfl, hread, hto⟩
  · subst heq
    rcases hx with rfl | ⟨target, _, _, hlink, _⟩
    · exact hnot (.inr (hs.apart j i _ bytes' bytes hread' hread))
    · rw [hread'.get?] at hlink
      cases hlink

end Stands

/-! ## How far a task has come -/

/-- A task is to replace its file, which had some bytes at the start, by way of a temporary file
with a new name. -/
structure Planned (s : Scene) (task : Task) (bytes : Bytes) (r : Replacement) : Prop where
  converts : Converts task bytes r.source r.result
  temporary : ∃ token, s.Fresh token ∧ r.temporary = task.temporaryPath token

/-- What is known of a task by its stage, if its file had some bytes at the start. -/
inductive Foretold (s : Scene) (task : Task) (bytes : Bytes) : Stage → Prop where
  | reading : Foretold s task bytes .reading
  | archiving (source : Text) (result : Conversion.Result) (stage : StoreStage)
      (h : Converts task bytes source result)
      (hcopy : ∀ archived, stage = .copying archived →
        ∃ token, s.Fresh token ∧ archived = Archive.copyName task.file token) :
      Foretold s task bytes (.archiving source result stage)
  | checking (r : Replacement) (h : s.Planned task bytes r) : Foretold s task bytes (.checking r)
  | writing (r : Replacement) (h : s.Planned task bytes r) : Foretold s task bytes (.writing r)
  | moving (r : Replacement) (h : s.Planned task bytes r) : Foretold s task bytes (.moving r)
  | finished (outcome : Except TaskError FileOutcome)
      (h : outcome.map FileOutcome.unwritten = task.forecast bytes) :
      Foretold s task bytes (.finished outcome)

theorem Converts.forecast {source : Text} {result : Conversion.Result}
    (h : Converts task bytes source result) : task.forecast bytes =
      .ok { file := task.file, state := result.state, source, edits := result.edits
            written := false } := by
  obtain ⟨rfl, hresult⟩ := h
  rw [Task.forecast, hresult]

theorem foretold_converted (hfresh : s.Fresh supply.token) :
    s.Foretold task bytes (task.converted (task.options.encoding.decode bytes) supply) := by
  rw [Task.converted]
  split
  · rename_i e he
    refine .finished _ ?_
    rw [Task.forecast, he]
    rfl
  · rename_i result hresult
    have hconverts :
        Converts task bytes (task.options.encoding.decode bytes) result := ⟨rfl, hresult⟩
    split
    · exact .finished _ hconverts.forecast.symm
    · split
      · exact .archiving _ _ _ hconverts fun _ hcopying => by cases hcopying
      · exact .checking _ ⟨hconverts, _, hfresh, rfl⟩

/-- **An action of a task** that does not fail leaves the files of all other tasks as they are, and
leads on to what was foretold. -/
theorem Foretold.step (hs : s.Separate) (htask : s.Has task) (hfile : s.files[i]? = some task.file)
    (hread : s.Reads i place bytes) (hstands : s.Stands ended t) (hnot : ¬ ended i)
    (h : s.Foretold task bytes stage) (haction : task.action? stage = some action)
    {reply : Bytes} (hperform : t.perform s.directory action = (.ok reply, u))
    (hfresh : s.Fresh supply.token) :
    s.Foretold task bytes (task.advance stage (.ok reply) supply) ∧ s.Stands (fun j => ended j ∨
        j = i ∧ ∃ outcome, task.advance stage (.ok reply) supply = .finished outcome) u := by
  have hgoes : s.Stands ended u → s.Stands (fun j => ended j ∨
      j = i ∧ ∃ outcome, task.advance stage (.ok reply) supply = .finished outcome) u :=
    fun hu => hu.mono fun _ => .inl
  have hu : (t.perform s.directory action).2 = u := by rw [hperform]
  cases h with
  | reading =>
    cases haction
    -- whatever the other tasks have done, the file has the bytes that it had
    have hbytes : t.read s.directory task.file = .ok bytes :=
      read_eq_ok_iff.mpr ⟨place, hstands.locate_file hs hnot hread hfile⟩
    rw [perform, hbytes, Prod.mk.injEq, Except.ok.injEq] at hperform
    obtain ⟨rfl, rfl⟩ := hperform
    exact ⟨foretold_converted hfresh, hgoes hstands⟩
  | archiving source result stage hconverts hcopy =>
    rw [Task.action?, htask.archive] at haction
    obtain ⟨a, ha, haction⟩ := Option.bind_eq_some_iff.mp haction
    cases stage with
    | making =>
      cases haction
      refine ⟨.archiving _ _ _ hconverts fun _ hcopying => ?_, hgoes ?_⟩
      · cases hcopying
        exact ⟨_, hfresh, rfl⟩
      · have hmaking : u = (s.making t).2 := by
          rw [← hu, perform, settled_snd, making, ha]
        rw [hmaking]
        exact hstands.making
    | copying archived =>
      cases haction
      obtain ⟨token, htoken, rfl⟩ := hcopy archived rfl
      refine ⟨.archiving _ _ _ hconverts fun _ hcopying => (by cases hcopying), hgoes ?_⟩
      rw [← hu, perform, settled_snd]
      exact hstands.copy_token hs (hs.tokened_copyPath a task.file htoken) hnot hread hfile
    | recording entry =>
      cases haction
      refine ⟨.checking _ ⟨hconverts, _, hfresh, rfl⟩, hgoes ?_⟩
      rw [← hu, perform, settled_snd]
      exact hstands.modify_manifest hs ha _
    | stored entry | failed e => cases haction
  | checking r hr =>
    cases haction
    refine ⟨.writing r hr, hgoes ?_⟩
    rwa [← hu]
  | writing r hr =>
    cases haction
    obtain ⟨token, htoken, hpath⟩ := hr.temporary
    obtain ⟨n, hn, _⟩ := hs.tokened_temporaryPath task htoken
    refine ⟨.moving r hr, hgoes ?_⟩
    rw [← hu, perform, settled_snd, hpath]
    exact hstands.modify_token hs hn _
  | moving r hr =>
    cases haction
    obtain ⟨token, htoken, hpath⟩ := hr.temporary
    obtain ⟨n, hn, _⟩ := hs.tokened_temporaryPath task htoken
    -- a link to the file may be gone from here on, which is why the task has to end now
    refine ⟨.finished _ hr.converts.forecast.symm, ?_⟩
    rw [← hu, perform, settled_snd, hpath]
    refine (hstands.rename_token hs hn hread hfile).mono fun j hj => ?_
    exact hj.imp_right fun heq => ⟨heq, _, rfl⟩
  | finished outcome => cases haction

/-! ## Batches -/

/-- A batch that has gone as it was foretold. -/
structure Foreseen (s : Scene) (b : Batch) (w : World) : Prop where
  tasks : ∀ (i : Nat) task, b.tasks[i]? = some task → s.files[i]? = some task.file ∧ s.Has task
  supplied : s.initial.supplied ≤ w.supplied
  stages : ∀ (i : Nat) task stage place bytes, b.tasks[i]? = some task → b.stages[i]? = some stage →
    s.Reads i place bytes → s.Foretold task bytes stage
  stands : s.Stands (fun i => ∃ outcome, b.stages[i]? = some (.finished outcome)) w.tree

variable {b : Batch} {w : World} {hook : Batch.Hook (StateM World)}

theorem foreseen_start (options : BatchOptions) (harchive : options.archive = s.archive)
    (aborted : Bool) :
    s.Foreseen (.start s.files options s.directory s.parse aborted) s.initial := by
  refine ⟨fun i task htask => ?_, Nat.le_refl _, fun i task stage place bytes _ hstage _ => ?_,
    s.stands_initial.mono fun _ => False.elim⟩
  · obtain ⟨file, hfile, rfl⟩ := task_of_start htask
    exact ⟨hfile, mem_of_getElem? hfile, harchive, rfl⟩
  · obtain rfl := reading_of_start hstage
    exact .reading

namespace Foreseen

theorem acted (hs : s.Separate) (h : s.Foreseen b w)
    (hacts : b.Acts i task stage action) (hread : s.Reads i place bytes)
    (hok : (w.perform s.directory action).1.isOk) (hstop : w.supplied < s.stop) :
    s.Foreseen (b.withStage i (task.advance stage (w.perform s.directory action).1
      (s.supply w.supplied))) (w.next s.directory action) := by
  obtain ⟨_, htask, hstage, haction⟩ := hacts
  obtain ⟨hfile, hhas⟩ := h.tasks i task htask
  have hyields := World.perform_yields w s.directory action
  rw [World.next]
  generalize w.perform s.directory action = answer at hok hyields ⊢
  obtain ⟨reply | reply, w₁⟩ := answer
  · cases hok
  have hfresh : s.Fresh (s.supply w.supplied).token := ⟨w.supplied, h.supplied, hstop, rfl⟩
  -- a task that has ended does not act
  have hnot : ¬ ∃ outcome, b.stages[i]? = some (.finished outcome) := by
    rintro ⟨outcome, hended⟩
    rw [hstage, Option.some.injEq] at hended
    subst hended
    cases haction
  obtain ⟨hnext, hstands⟩ :=
    (h.stages i task stage place bytes htask hstage hread).step hs hhas hfile
    hread h.stands hnot haction hyields.perform_eq hfresh
  refine ⟨h.tasks, ?_, fun j other stage' place' bytes' hother hstage' hread' => ?_, ?_⟩
  · exact Nat.le_succ_of_le h.supplied
  · rcases Batch.withStage_cases hstage' with ⟨rfl, rfl⟩ | ⟨_, hbefore⟩
    · obtain rfl : task = other := Option.some.inj (htask.symm.trans hother)
      obtain rfl : bytes = bytes' := hread.unique hread'
      exact hnext
    · exact h.stages j other stage' place' bytes' hother hbefore hread'
  · refine hstands.mono fun j hj => ?_
    rcases hj with ⟨outcome, hended⟩ | ⟨rfl, outcome, hended⟩
    · refine ⟨outcome, ?_⟩
      rw [Batch.withStage, getElem?_set_ne]
      · exact hended
      · rintro rfl
        exact hnot ⟨outcome, hended⟩
    · refine ⟨outcome, ?_⟩
      rw [Batch.withStage, getElem?_set_self (List.getElem?_eq_some_iff.mp hstage).1, hended]

theorem move (hs : s.Separate)
    (hreads : ∀ i, i < s.files.length → ∃ place bytes, s.Reads i place bytes)
    (hhook : Prints hook) (h : s.Foreseen b w) (move : BatchMove)
    (hsmooth : ∀ action ∈ b.action? move, (w.perform s.directory action).1.isOk)
    (hstop : w.supplied + (b.actor? move).toList.length ≤ s.stop) :
    s.Foreseen ((b.move s.host hook move).run w).1
      ((b.move s.host hook move).run w).2 := by
  rcases move_cases s.premises hhook b move w with
    ⟨_, _, halike, htasks, hstages⟩ | ⟨index, task, stage, action, rfl, hacts⟩
  · refine ⟨?_, ?_, ?_, ?_⟩
    · rw [htasks]
      exact h.tasks
    · rw [halike.supplied]
      exact h.supplied
    · rw [htasks, hstages]
      exact h.stages
    · rw [hstages, halike.tree]
      exact h.stands
  · rw [hacts.actor?] at hstop
    rw [Batch.move, hacts.run s.premises]
    obtain ⟨place, bytes, hread⟩ :=
      hreads index (List.getElem?_eq_some_iff.mp (h.tasks index task hacts.tasked).1).1
    exact h.acted hs hacts hread (hsmooth action hacts.action?) hstop

theorem moveAll (hs : s.Separate)
    (hreads : ∀ i, i < s.files.length → ∃ place bytes, s.Reads i place bytes) (hhook : Prints hook)
    (moves : List BatchMove) (h : s.Foreseen b w) (hsmooth : Smooth s.premises hook b w moves)
    (hstop : w.supplied + (turns s.premises hook b w moves).length ≤ s.stop) :
    s.Foreseen ((Batch.moveAll s.host hook b moves).run w).1
      ((Batch.moveAll s.host hook b moves).run w).2 := by
  induction moves generalizing b w with
  | nil => exact h
  | cons move moves ih =>
    rw [turns, length_append] at hstop
    have hone : ((b.move s.host hook move).run w).2.supplied =
        w.supplied + (b.actor? move).toList.length := by
      have hsupplied := moveAll_supplied s.premises hhook [move] b w
      rwa [turns, turns, append_nil] at hsupplied
    have hrest : ((b.move s.host hook move).run w).2.supplied +
        (turns s.premises hook ((b.move s.host hook move).run w).1
          ((b.move s.host hook move).run w).2 moves).length ≤ s.stop := by
      omega
    exact ih (h.move hs hreads hhook move hsmooth.1 (by omega)) hsmooth.2 hrest

end Foreseen

end Scene

end Posonly
