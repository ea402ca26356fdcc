import Posonly.Proofs.Batch.Levels

/-!
# One task on two trees

A task acts on the tree of its batch, where other tasks act as well. Beside that tree stands another
one, on which the task acts alone. The two differ in what the other tasks do, but they have the same
at the file of the task and at the files that it makes (`Twin`). What an action of the task does is
a change of the tree that depends on nothing else (`Change`): the two trees change in the same way
and the task gets the same reply (`perform_together`), so they stay twins (`Twin.change`). An action
of another task changes only one of them, and nothing that the task looks at (`Twin.frame`).
-/

open Posonly.FileTree

namespace Posonly.Scene

/-- Two trees with the same at the places of the file of a task and at all files with tokens in
their names, those of other tasks apart. -/
structure Twin (s : Scene) (file : Text) (foreign : Text → Prop) (t t' : FileTree) : Prop where
  file : ∀ q, s.Own file q → t'.get? q = t.get? q
  marked : ∀ p n token, s.Marked token n → ¬ foreign token → t'.get? (p ++ [n]) = t.get? (p ++ [n])

/-- What an action of a task can do to a tree, with the level to which it takes the tree, and
whether it replaces the file. -/
inductive Change (s : Scene) (file : Text) (mine : Text → Prop) :
    Nat → Bool → (FileTree → FileTree) → Prop where
  | same : Change s file mine 0 false id
  | making : Change s file mine 1 false fun t => (s.making t).2
  /-- The manifest gets bytes that depend on the ones it has. -/
  | listing {a : Archive} {m : Place} {old : Bytes} (f : FileTree → Bytes) (ha : s.archive = some a)
      (hok : (s.making s.initial.tree).1 = none)
      (htarget : s.made.locateTarget s.directory a.manifest = .ok (m, old)) :
      Change s file mine 2 false fun t => t.put m (.file (f t))
  | writing {token n : Text} (p : Place) (bytes : Bytes) (hmine : mine token)
      (hn : s.Marked token n) : Change s file mine 0 false fun t => t.put (p ++ [n]) (.file bytes)
  | removing {token n : Text} (p : Place) (hmine : mine token) (hn : s.Marked token n) :
      Change s file mine 0 false fun t => t.erase (p ++ [n])
  | moving {token n : Text} {x : Place} (p : Place) (bytes : Bytes) (hmine : mine token)
      (hn : s.Marked token n) (hown : s.Own file x) :
      Change s file mine 0 true fun t => (t.erase (p ++ [n])).put x (.file bytes)

variable {s : Scene} {file other : Text} {mine foreign : Text → Prop} {k l r : Nat} {moved : Bool}
  {f : FileTree → FileTree} {t t' : FileTree} {place q : Place} {bytes : Bytes} {n token : Text}

theorem Twin.mono {foreign' : Text → Prop} (h : s.Twin file foreign t t')
    (hforeign : ∀ token, foreign token → foreign' token) : s.Twin file foreign' t t' where
  file := h.file
  marked p n token hn hnot := h.marked p n token hn fun hf => hnot (hforeign token hf)

theorem Marked.ne_clean {p : Place} (hn : s.Marked token n) (hq : ∀ c ∈ q, s.Clean c) :
    q ≠ p ++ [n] := by
  rintro rfl
  exact hn.unclean (hq n (by simp))

section

variable (hs : s.Proper)

include hs

/-! ## What a change leaves alone -/

/-- The archive can be made whatever the tasks have done, or never for the same cause. -/
theorem At.making_cause (h : s.At k t) : (s.making t).1 = (s.making s.initial.tree).1 ∧
    FileTree.Alike s.Clean s.Entry (s.level (max k 1)) (s.making t).2 := by
  have hmaking := hs.making_alike h.alike (hs.entries k)
  rw [hs.making_level] at hmaking
  rcases hmaking with hsame | ⟨⟨x, hx⟩, hmany⟩
  · exact hsame
  · exact absurd hmany (hs.links x hx).1

/-- The archive is made of directories, and its names have no tokens in them. -/
theorem At.making (h : s.At k t) : s.At (max k 1) (s.making t).2 :=
  ⟨(h.making_cause hs).2, fun hnone => Nat.le_trans (h.top hnone) (Nat.le_max_left ..)⟩

theorem At.making_file (h : s.At k t) (hown : s.Own file q) :
    (s.making t).2.get? q = t.get? q := by
  rcases s.making_adds t q with hsame | ⟨hnone, _⟩
  · exact hsame
  · have hinitial := (hs.grown_level k).none ((h.alike.none (hs.clean_own hown)).mp hnone)
    rcases hown.get? with ⟨_, hnode⟩ | ⟨_, hnode⟩ <;> cases hinitial.symm.trans hnode

theorem At.making_marked (h : s.At k t) (hn : s.Marked token n) (p : Place) :
    (s.making t).2.get? (p ++ [n]) = t.get? (p ++ [n]) := by
  rcases s.making_adds t (p ++ [n]) with hsame | ⟨_, hdir⟩
  · exact hsame
  · obtain ⟨_, hfile⟩ := (h.making hs).alike.plain' p n _ hn.unclean hdir
    cases hfile

variable (h : Change s file mine r moved f) (hat : s.At k t) (hfile : file ∈ s.files)

include h hat hfile

omit hfile in
/-- **A change at a place of the file of a task**: only the task itself changes it, by moving. -/
theorem Change.at_file (hother : other ∈ s.files) (hown : s.Own other q) :
    (f t).get? q = t.get? q ∨ moved = true ∧ s.Own file q ∧
      ∃ new, ∀ t : FileTree, (f t).get? q = some (.file new) := by
  have hclean := hs.clean_own hown
  cases h with
  | same => exact .inl rfl
  | making => exact .inl (hat.making_file hs hown)
  | listing g ha hok htarget =>
    obtain ⟨hlocate, _, hopen⟩ := hs.target_spec ha htarget
    refine .inl ?_
    rw [get?_put hopen.ne_nil, if_neg]
    rintro rfl
    -- a link is there before and after the archive is made, and the manifest is none
    obtain ⟨place, bytes, hleads, rfl | ⟨hto, _⟩⟩ := hown.cases
    · exact hs.outside _ _ _ _ _ ha hother hleads hlocate
    · obtain ⟨target, _, _, hlink, _⟩ := hto
      have hmade : s.made.get? q = some (.link target) := making_keeps hlink
      simp [Open, hmade] at hopen
  | writing p new hmine hn => exact .inl (by rw [get?_put (by simp), if_neg (hn.ne_clean hclean)])
  | removing p hmine hn => exact .inl (by rw [get?_erase (by simp), if_neg (hn.ne_clean hclean)])
  | @moving _ _ x p new hmine hn hown' =>
    by_cases heq : q = x
    · subst heq
      exact .inr ⟨rfl, hown', new, fun t => by rw [get?_put hown'.ne_nil, if_pos rfl]⟩
    · refine .inl ?_
      rw [get?_put hown'.ne_nil, if_neg heq, get?_erase (by simp), if_neg (hn.ne_clean hclean)]

omit hfile in
/-- **A change at a file with a token in its name**: only the task that has the token changes it. -/
theorem Change.at_marked (hn : s.Marked token n) (p : Place) :
    (f t).get? (p ++ [n]) = t.get? (p ++ [n]) ∨
      mine token ∧ ∃ node, ∀ t : FileTree, (f t).get? (p ++ [n]) = node := by
  have hsplit : ∀ {p' : Place} {n' token' : Text}, s.Marked token' n' → mine token' →
      p ++ [n] = p' ++ [n'] → mine token := by
    intro p' n' token' hn' hmine heq
    obtain ⟨_, hname⟩ := List.append_singleton_inj.mp heq
    subst hname
    rwa [hs.marked_unique hn hn']
  -- a file with a token is written, removed or moved away by its own task only
  cases h with
  | same => exact .inl rfl
  | making => exact .inl (hat.making_marked hs hn p)
  | listing g ha hok htarget =>
    obtain ⟨_, hclean, hopen⟩ := hs.target_spec ha htarget
    exact .inl (by rw [get?_put hopen.ne_nil, if_neg (hn.ne_clean hclean).symm])
  | @writing _ n' p' new hmine hn' =>
    by_cases heq : p ++ [n] = p' ++ [n']
    · exact .inr ⟨hsplit hn' hmine heq, some (.file new), fun t => by
        rw [get?_put (by simp), if_pos heq]⟩
    · exact .inl (by rw [get?_put (by simp), if_neg heq])
  | @removing _ n' p' hmine hn' =>
    by_cases heq : p ++ [n] = p' ++ [n']
    · exact .inr ⟨hsplit hn' hmine heq, none, fun t => by
        rw [get?_erase (by simp), if_pos heq]⟩
    · exact .inl (by rw [get?_erase (by simp), if_neg heq])
  | @moving _ n' x p' new hmine hn' hown =>
    have hmoved : ∀ t : FileTree, ((t.erase (p' ++ [n'])).put x (.file new)).get? (p ++ [n]) =
        (t.erase (p' ++ [n'])).get? (p ++ [n]) := fun t => by
      rw [get?_put hown.ne_nil, if_neg (hn.ne_clean (hs.clean_own hown)).symm]
    by_cases heq : p ++ [n] = p' ++ [n']
    · exact .inr ⟨hsplit hn' hmine heq, none, fun t => by
        rw [hmoved, get?_erase (by simp), if_pos heq]⟩
    · exact .inl (by rw [hmoved, get?_erase (by simp), if_neg heq])

/-- **A change keeps a tree at its level**, or takes it to the next. -/
theorem Change.at_level (hr : r ≤ k + 1) : s.At (max k r) (f t) := by
  have hshape : ∀ q, (∃ bytes, (s.level k).get? q = some (.file bytes)) →
      (s.level k).shape? q = some (.file []) := fun q hq => shape?_eq_file.mpr hq
  cases h with
  | same => rwa [Nat.max_eq_left (Nat.zero_le k)]
  | making => exact hat.making hs
  | @listing a m old g ha hok htarget =>
    refine ⟨?_, fun hnone => Nat.le_max_right ..⟩
    obtain ⟨_, hclean, hopen⟩ := hs.target_spec ha htarget
    have hm := hopen.ne_nil
    have hlisted : s.listed = s.made.put m (.file old) := by
      rw [listed, ha, hok]
      dsimp only
      rw [FileTree.modify, htarget]
      rfl
    rcases k with _ | _ | k
    · omega
    · -- the manifest is put into both trees
      rw [Nat.max_eq_right (by omega), level, hlisted]
      exact hat.alike.put hclean hm rfl (by simp)
    · rw [Nat.max_eq_left (by omega)]
      refine hat.alike.put_file hm fun _ => .inl (hshape m ⟨old, ?_⟩)
      rw [level, hlisted, get?_put hm, if_pos rfl]
  | writing p new hmine hn =>
    rw [Nat.max_eq_left (Nat.zero_le k)]
    exact ⟨hat.alike.put_unclean hn.unclean, hat.top⟩
  | removing p hmine hn =>
    rw [Nat.max_eq_left (Nat.zero_le k)]
    exact ⟨hat.alike.erase_unclean hn.unclean, hat.top⟩
  | moving p new hmine hn hown =>
    rw [Nat.max_eq_left (Nat.zero_le k)]
    refine ⟨(hat.alike.erase_unclean hn.unclean).put_file hown.ne_nil fun _ => ?_, hat.top⟩
    rcases hown.get? with ⟨_, hnode⟩ | ⟨target, hnode⟩
    · exact .inl (hshape _ ((hs.grown_level k).steady.file hnode))
    · exact .inr ⟨⟨file, hfile, hown, target, hnode⟩, target,
        (hs.grown_level k).steady.other hnode (by simp)⟩

theorem Change.keeps (hmoved : moved = false) (hown : s.Own file q) :
    (f t).get? q = t.get? q := by
  rcases h.at_file hs hat hfile hown with hsame | ⟨hmove, _⟩
  · exact hsame
  · rw [hmoved] at hmove
    cases hmove

theorem Twin.change (hat' : s.At l t') (htwin : s.Twin file foreign t t') :
    s.Twin file foreign (f t) (f t') where
  file q hown := by
    rcases h.at_file hs hat hfile hown with hsame | ⟨_, _, new, hnew⟩
    · rcases h.at_file hs hat' hfile hown with hsame' | ⟨_, _, new, hnew⟩
      · rw [hsame, hsame']
        exact htwin.file q hown
      · rw [hnew, hnew]
    · rw [hnew, hnew]
  marked p n token hn hforeign := by
    rcases h.at_marked hs hat hn p with hsame | ⟨_, node, hnode⟩
    · rcases h.at_marked hs hat' hn p with hsame' | ⟨_, node, hnode⟩
      · rw [hsame, hsame']
        exact htwin.marked p n token hn hforeign
      · rw [hnode, hnode]
    · rw [hnode, hnode]

omit hfile in
theorem Twin.frame (hother : other ∈ s.files)
    (hapart : ∀ q, s.Own other q → ¬ s.Own file q)
    (hforeign : ∀ token, mine token → foreign token) (htwin : s.Twin other foreign t t') :
    s.Twin other foreign (f t) t' where
  file q hown := by
    rcases h.at_file hs hat hother hown with hsame | ⟨_, hown', _⟩
    · rw [hsame]
      exact htwin.file q hown
    · exact absurd hown' (hapart q hown)
  marked p n token hn hnot := by
    rcases h.at_marked hs hat hn p with hsame | ⟨hmine, _⟩
    · rw [hsame]
      exact htwin.marked p n token hn hnot
    · exact absurd (hforeign token hmine) hnot

end

/-! ## How far a task has come -/

/-- A task of the batch. -/
structure Has (s : Scene) (task : Task) : Prop where
  file : task.file ∈ s.files
  archive : task.options.archive = s.archive
  directory : task.directory = s.directory

/-- A task that has read its file, so that there is one. -/
def Found (s : Scene) (task : Task) : Prop := ∃ place bytes, s.Leads task.file place bytes

/-- A file that is being replaced: its temporary file has a token of the task in its name, and the
tree is at the highest level. -/
structure Replacing (s : Scene) (task : Task) (mine : Text → Prop) (k : Nat) (r : Replacement) :
    Prop where
  found : s.Found task
  level : 2 ≤ k
  temporary : ∃ token, mine token ∧ s.Fresh token ∧ r.temporary = task.temporaryPath token

/-- What is known of a task by its stage, if the tree is at a level. -/
inductive Reached (s : Scene) (task : Task) (mine : Text → Prop) (k : Nat) : Stage → Prop where
  | reading : Reached s task mine k .reading
  | making (source : Text) (result : Conversion.Result) (a : Archive) (hfound : s.Found task)
      (ha : s.archive = some a) : Reached s task mine k (.archiving source result .making)
  | copying (source : Text) (result : Conversion.Result) (a : Archive) (token : Text)
      (hfound : s.Found task) (ha : s.archive = some a) (hk : 1 ≤ k)
      (hok : (s.making s.initial.tree).1 = none) (hmine : mine token) (hfresh : s.Fresh token) :
      Reached s task mine k (.archiving source result (.copying (Archive.copyName task.file token)))
  | recording (source : Text) (result : Conversion.Result) (a : Archive) (e : ArchiveEntry)
      (hfound : s.Found task) (ha : s.archive = some a) (hk : 1 ≤ k)
      (hok : (s.making s.initial.tree).1 = none) :
      Reached s task mine k (.archiving source result (.recording e))
  | checking (r : Replacement) (h : Replacing s task mine k r) : Reached s task mine k (.checking r)
  | writing (r : Replacement) (h : Replacing s task mine k r) : Reached s task mine k (.writing r)
  | moving (r : Replacement) (h : Replacing s task mine k r) : Reached s task mine k (.moving r)
  | cleaning (r : Replacement) (e : FileError) (h : Replacing s task mine k r) :
      Reached s task mine k (.cleaning r e)
  | finished (outcome : Except TaskError FileOutcome) : Reached s task mine k (.finished outcome)

variable {task : Task} {stage : Stage} {mine' : Text → Prop}

theorem Replacing.mono {replacement : Replacement} (h : s.Replacing task mine k replacement)
    (hmine : ∀ token, mine token → mine' token) (hle : k ≤ l) :
    s.Replacing task mine' l replacement := by
  obtain ⟨token, htoken, hfresh, htemporary⟩ := h.temporary
  exact ⟨h.found, Nat.le_trans h.level hle, token, hmine token htoken, hfresh, htemporary⟩

theorem Reached.mono (h : s.Reached task mine k stage) (hmine : ∀ token, mine token → mine' token)
    (hle : k ≤ l) : s.Reached task mine' l stage := by
  cases h with
  | reading => exact .reading
  | making source result a hfound ha => exact .making source result a hfound ha
  | copying source result a token hfound ha hk hok htoken hfresh =>
    exact .copying source result a token hfound ha (Nat.le_trans hk hle) hok
      (hmine token htoken) hfresh
  | recording source result a e hfound ha hk hok =>
    exact .recording source result a e hfound ha (Nat.le_trans hk hle) hok
  | checking r h => exact .checking r (h.mono hmine hle)
  | writing r h => exact .writing r (h.mono hmine hle)
  | moving r h => exact .moving r (h.mono hmine hle)
  | cleaning r e h => exact .cleaning r e (h.mono hmine hle)
  | finished outcome => exact .finished outcome

/-- **An error** ends a task, after its temporary file has been taken away. -/
theorem Reached.error (h : s.Reached task mine k stage) (e : FileError) (supply : Supply) :
    s.Reached task mine k (task.advance stage (.error e) supply) := by
  cases h with
  | reading | making source result a hfound ha
  | copying source result a token hfound ha hk hok htoken hfresh
  | recording source result a e' hfound ha hk hok | checking r h => exact .finished _
  | writing r h | moving r h => exact .cleaning r e h
  | cleaning r e' h | finished outcome => exact .finished _

/-! ## One action on two trees -/

/-- The tokens of a task after one more supply. -/
def With (mine : Text → Prop) (supply : Supply) (token : Text) : Prop :=
  mine token ∨ token = supply.token

/-- An action of a task gives one reply on two trees and changes both in one way. -/
def Parallel (s : Scene) (task : Task) (mine : Text → Prop) (l : Nat) (stage : Stage)
    (t t' u u' : FileTree) (reply : FileReply) : Prop :=
  ∃ r moved f, s.Change task.file mine r moved f ∧ r ≤ l + 1 ∧ u = f t ∧ u' = f t' ∧
    (moved = true → (∃ r, stage = .moving r) ∧ reply = .ok []) ∧
    ∀ supply, s.Fresh supply.token →
      s.Reached task (With mine supply) (max l r) (task.advance stage reply supply)

/-- An action of a task on two trees. -/
def Alongside (s : Scene) (task : Task) (mine : Text → Prop) (l : Nat) (stage : Stage)
    (action : FileAction) (t t' : FileTree) : Prop :=
  ∃ reply u u', t.perform s.directory action = (reply, u) ∧
    t'.perform s.directory action = (reply, u') ∧
    s.Parallel task mine l stage t t' u u' reply

theorem Parallel.of_change {reply : FileReply} (h : s.Change task.file mine 0 false f)
    (hnext : ∀ supply, s.Fresh supply.token →
      s.Reached task (With mine supply) l (task.advance stage reply supply)) :
    s.Parallel task mine l stage t t' (f t) (f t') reply :=
  ⟨0, false, f, h, Nat.zero_le _, rfl, rfl, by simp, fun supply hfresh => by
    rw [Nat.max_eq_left (Nat.zero_le l)]
    exact hnext supply hfresh⟩

theorem Parallel.of_error (h : s.Change task.file mine 0 false f)
    (hreached : s.Reached task mine l stage) (e : FileError) :
    s.Parallel task mine l stage t t' (f t) (f t') (.error e) :=
  .of_change h fun supply _ => (hreached.error e supply).mono (fun _ => .inl) (Nat.le_refl l)

section

variable (hs : s.Proper) (htask : s.Has task) (hat : s.At k t) (hat' : s.At l t') (hle : l ≤ k)
  (htwin : s.Twin task.file foreign t t') {r : Replacement} {result : Conversion.Result}
  {source : Text} {a : Archive}

include hs htask hat hat' htwin

/-- Reading: both trees have the same file, or none. -/
theorem parallel_reading : s.Alongside task mine l .reading (.read task.file) t t' := by
  rcases hs.files _ htask.file with ⟨place, bytes, hleads⟩ | ⟨e, hread⟩
  · have hsame : t'.read s.directory task.file = t.read s.directory task.file :=
      read_together (hat.together_file hs hat' htask.file hleads htwin.file) fun q hq =>
        htwin.file q hq.1
    refine ⟨_, t, t', rfl, by rw [perform, hsame],
      .of_change .same fun supply hfresh => ?_⟩
    cases hreply : t.read s.directory task.file with
    | error e => exact .finished _
    | ok content =>
      have hfound : s.Found task := ⟨place, bytes, hleads⟩
      rw [Task.advance, Task.converted]
      split
      · exact .finished _
      · split
        · exact .finished _
        · split
          · rename_i harchive
            rw [htask.archive, Option.isSome_iff_exists] at harchive
            obtain ⟨a, ha⟩ := harchive
            exact .making _ _ a hfound ha
          · rename_i harchive
            rw [htask.archive, Option.not_isSome_iff_eq_none] at harchive
            exact .checking _ ⟨hfound, hat'.top harchive, supply.token, .inr rfl, hfresh, rfl⟩
  · refine ⟨.error e, t, t', ?_, ?_, .of_error .same .reading e⟩
    · rw [perform, hat.read_fails hs htask.file (hread k)]
    · rw [perform, hat'.read_fails hs htask.file (hread l)]

omit htask htwin in
/-- Making the archive: it can be made in both trees, or in none. -/
theorem parallel_making
    (hfound : s.Found task) (ha : s.archive = some a) :
    s.Alongside task mine l (.archiving source result .making) (.makeDirectories a.root) t t' := by
  have hmaking : ∀ t : FileTree, t.makeDirectories s.directory a.root = s.making t :=
    fun t => by rw [making, ha]
  have hperform : ∀ {j : Nat} {t : FileTree}, s.At j t →
      t.perform s.directory (.makeDirectories a.root) =
        FileTree.settled "mkdir" [a.root] ((s.making s.initial.tree).1, (s.making t).2) := by
    intro j t h
    rw [perform, hmaking, ← (h.making_cause hs).1]
  rw [Alongside, hperform hat, hperform hat']
  cases hok : (s.making s.initial.tree).1 with
  | none =>
    refine ⟨.ok [], _, _, rfl, rfl, 1, false, _, .making, by omega, rfl, rfl, by simp, ?_⟩
    intro supply hfresh
    exact .copying source result a supply.token hfound ha
      (Nat.le_max_right ..) hok (.inr rfl) hfresh
  | some cause =>
    exact ⟨.error ⟨cause, "mkdir", [a.root]⟩, _, _, rfl, rfl, 1, false, _, .making, by omega, rfl,
      rfl, by simp, fun supply hfresh => .finished _⟩

theorem parallel_checking (h : s.Replacing task mine l r) :
    s.Alongside task mine l (.checking r) (.check task.file) t t' := by
  obtain ⟨place, bytes, hleads⟩ := h.found
  have hsame : t'.kind s.directory task.file = t.kind s.directory task.file :=
    kind_together (hat.together_file hs hat' htask.file hleads htwin.file) fun q hq =>
      htwin.file q hq.1
  refine ⟨_, t, t', rfl, by rw [perform, hsame],
    .of_change .same fun supply hfresh => ?_⟩
  cases t.kind s.directory task.file with
  | error e => exact .finished _
  | ok kind => exact .writing r (h.mono (fun _ => .inl) (Nat.le_refl l))

variable (hown : ∀ token, mine token → ¬ foreign token)

include hle hown

/-- The temporary file of the task is the same in both trees: its name has a token that no other
task has. -/
theorem together_temporary (h : s.Replacing task mine l r) :
    ∃ token n, mine token ∧ s.Marked token n ∧ (∀ q, (∃ p, q = p ++ [n]) → t'.get? q = t.get? q) ∧
      ∀ followLast, FileTree.Together s.directory r.temporary followLast
        (fun q => ∃ p, q = p ++ [n]) t t' := by
  obtain ⟨token, hmine, hfresh, htemporary⟩ := h.temporary
  obtain ⟨n, hn, htogether⟩ := hat.together_temporary hs hat' (Nat.le_trans h.level hle) h.level
    htask.file hfresh
  refine ⟨token, n, hmine, hn, ?_, fun followLast => htemporary ▸ htogether followLast⟩
  rintro _ ⟨p, rfl⟩
  exact htwin.marked p n token hn (hown token hmine)

theorem modify_temporary (h : s.Replacing task mine l r) (more : Bytes) :
    ∃ cause f, s.Change task.file mine 0 false f ∧
      t.modify s.directory r.temporary (fun _ => more) = (cause, f t) ∧
      t'.modify s.directory r.temporary (fun _ => more) = (cause, f t') := by
  obtain ⟨token, n, hmine, hn, hsame, htogether⟩ :=
    together_temporary hs htask hat hat' hle htwin hown h
  rcases modify_together (htogether true) (fun q hq => .inl (hsame q hq)) fun _ => more with
    ⟨cause, hfails, hfails'⟩ | ⟨_, ⟨p, rfl⟩, _, hdone, hdone'⟩
  · exact ⟨some cause, id, .same, hfails, hfails'⟩
  · exact ⟨none, _, .writing p more hmine hn, hdone, hdone'⟩

theorem parallel_writing (h : s.Replacing task mine l r) (more : Bytes) :
    s.Alongside task mine l (.writing r) (.write r.temporary more) t t' := by
  obtain ⟨cause, f, hchange, hmodify, hmodify'⟩ :=
    modify_temporary hs htask hat hat' hle htwin hown h more
  rw [Alongside, perform, perform, hmodify, hmodify']
  cases cause with
  | none =>
    exact ⟨_, _, _, rfl, rfl, .of_change hchange fun supply _ =>
      .moving r (h.mono (fun _ => .inl) (Nat.le_refl l))⟩
  | some cause => exact ⟨_, _, _, rfl, rfl, .of_error hchange (.writing r h) _⟩

/-- Moving the temporary file: it goes to the place of the file, or of the link to it. -/
theorem parallel_moving (h : s.Replacing task mine l r) :
    s.Alongside task mine l (.moving r) (.rename r.temporary task.file) t t' := by
  obtain ⟨token, n, hmine, hn, hsame, htogether⟩ :=
    together_temporary hs htask hat hat' hle htwin hown h
  obtain ⟨place, bytes, hleads⟩ := h.found
  rw [Alongside, perform, perform]
  rcases rename_together (htogether false) (hat.together_file hs hat' htask.file hleads htwin.file)
      hsame fun q hq => htwin.file q hq.1 with
    ⟨cause, hfails, hfails'⟩ | ⟨_, x, node, ⟨p, rfl⟩, hx, hnode, hdone, hdone'⟩
  · rw [hfails, hfails']
    exact ⟨_, _, _, rfl, rfl, .of_error .same (.moving r h) _⟩
  · obtain ⟨new, rfl⟩ := hat.alike.plain' p n node hn.unclean hnode
    rw [hdone, hdone']
    exact ⟨_, _, _, rfl, rfl, 0, true, _, .moving p new hmine hn hx.1, Nat.zero_le _, rfl, rfl,
      fun _ => ⟨⟨r, rfl⟩, rfl⟩, fun supply hfresh => .finished _⟩

theorem parallel_cleaning (h : s.Replacing task mine l r) (e : FileError) :
    s.Alongside task mine l (.cleaning r e) (.remove r.temporary) t t' := by
  obtain ⟨token, n, hmine, hn, hsame, htogether⟩ :=
    together_temporary hs htask hat hat' hle htwin hown h
  have hend : ∀ (reply : FileReply) supply, s.Fresh supply.token →
      ∀ j, s.Reached task (With mine supply) j (task.advance (.cleaning r e) reply supply) := by
    intro reply supply _ j
    cases reply with
    | error e' | ok bytes => exact .finished _
  rw [Alongside, perform, perform]
  rcases remove_together (htogether false) hsame with
    ⟨_ | cause, hstays, hstays'⟩ | ⟨_, ⟨p, rfl⟩, hdone, hdone'⟩
  · rw [hstays, hstays']
    exact ⟨_, _, _, rfl, rfl, .of_change .same fun supply hfresh => hend _ supply hfresh l⟩
  · rw [hstays, hstays']
    exact ⟨_, _, _, rfl, rfl, .of_error .same (.cleaning r e h) _⟩
  · rw [hdone, hdone']
    exact ⟨_, _, _, rfl, rfl, 0, false, _, .removing p hmine hn, Nat.zero_le _, rfl, rfl, by simp,
      fun supply hfresh => hend _ supply hfresh _⟩

/-- Copying the file: nothing with the name of the copy is there that another task has made. -/
theorem parallel_copying {token : Text}
    (hfound : s.Found task) (ha : s.archive = some a) (hl : 1 ≤ l)
    (hok : (s.making s.initial.tree).1 = none) (hmine : mine token) (hfresh : s.Fresh token) :
    s.Alongside task mine l (.archiving source result (.copying (Archive.copyName task.file token)))
      (.copy task.file (a.copyPath (Archive.copyName task.file token))) t t' := by
  obtain ⟨place, bytes, hleads⟩ := id hfound
  have hbase := (hs.leads_spec htask.file hleads).2.2
  have htoken := hs.isToken hfresh
  have hn : s.Marked token (storedText (Archive.copyName task.file token)) :=
    ⟨hfresh, .inl (copyName_stored htoken task.file (hs.clean_storedText hbase))⟩
  have hsame : ∀ q, (∃ p, q = p ++ [storedText (Archive.copyName task.file token)]) →
      t'.get? q = t.get? q := by
    rintro _ ⟨p, rfl⟩
    exact htwin.marked p _ token hn (hown token hmine)
  rw [Alongside, perform, perform]
  have huses := Uses.copy a task.file token ha htask.file hfresh
  rcases copy_together (hat.together_file hs hat' htask.file hleads htwin.file)
      (hat.together_copy hs hat' (Nat.le_trans hl hle) hl ha hok (isName_copyName task.file htoken)
        huses hn.unclean) (fun q hq => htwin.file q hq.1) (fun q hq => hq.2 rfl) hsame with
    ⟨cause, hfails, hfails'⟩ | ⟨_, _, old, ⟨hown', _⟩, ⟨p, rfl⟩, _, hdone, hdone'⟩
  · rw [hfails, hfails']
    exact ⟨_, _, _, rfl, rfl,
      .of_error .same (.copying source result a token hfound ha hl hok hmine hfresh) _⟩
  · rw [if_neg (hn.ne_clean (hs.clean_own hown'))] at hdone hdone'
    rw [hdone, hdone']
    refine ⟨_, _, _, rfl, rfl, 0, false, _, .writing p old hmine hn, Nat.zero_le _, rfl, rfl,
      by simp, fun supply _ => ?_⟩
    exact .recording source result a _ hfound ha (Nat.le_trans hl (Nat.le_max_left ..)) hok

omit htask htwin hown in
/-- Putting the entry into the manifest, which one of the trees may not have yet. -/
theorem parallel_recording
    {e : ArchiveEntry} (hfound : s.Found task) (ha : s.archive = some a) (hl : 1 ≤ l)
    (hok : (s.making s.initial.tree).1 = none) (more : Bytes) :
    s.Alongside task mine l (.archiving source result (.recording e)) (.append a.manifest more)
      t t' := by
  have hk := Nat.le_trans hl hle
  have hsame : ∀ q, s.made.locate s.directory a.manifest true = .ok ⟨q, s.made.get? q⟩ →
      t'.get? q = t.get? q ∨ t.Open q ∧ t'.Open q := by
    intro q hq
    rcases hat.manifest_node hs hk ha hq, hat'.manifest_node hs hl ha hq with
      ⟨⟨hmade, hopen⟩ | ⟨hclosed, hsame⟩, ⟨hmade', hopen'⟩ | ⟨hclosed', hsame'⟩⟩
    · exact .inr ⟨hopen, hopen'⟩
    · exact absurd hmade hclosed'
    · exact absurd hmade' hclosed
    · exact .inl (hsame'.trans hsame.symm)
  rw [Alongside, perform, perform]
  rcases modify_together (hat.together_manifest hs hat' hk hl ha) hsame (· ++ more) with
    ⟨cause, hfails, hfails'⟩ | ⟨m, hm, hopen, hdone, hdone'⟩
  · rw [hfails, hfails']
    exact ⟨_, _, _, rfl, rfl, .of_error .same (.recording source result a e hfound ha hl hok) _⟩
  · have htarget : s.made.locateTarget s.directory a.manifest =
        .ok (m, s.made.bytesAt m) := by
      refine locateTarget_open hm ?_
      rcases hat.manifest_node hs hk ha hm with ⟨hmade, _⟩ | ⟨_, hsame⟩
      · exact hmade
      · rwa [Open, hsame] at hopen
    rw [hdone, hdone']
    refine ⟨_, _, _, rfl, rfl, 2, false, fun t => t.put m (.file (t.bytesAt m ++ more)),
      .listing _ ha hok htarget, by omega, rfl, rfl, by simp, fun supply hfresh => ?_⟩
    exact .checking _ ⟨hfound, Nat.le_max_right .., supply.token, .inr rfl, hfresh, rfl⟩

variable {action : FileAction} (hreached : s.Reached task mine l stage)
  (haction : task.action? stage = some action)

include hreached haction

theorem parallel_action : s.Alongside task mine l stage action t t' := by
  cases hreached with
  | reading =>
    cases haction
    exact parallel_reading hs htask hat hat' htwin
  | making source result a hfound ha =>
    rw [Task.action?, htask.archive, ha] at haction
    cases haction
    exact parallel_making hs hat hat' hfound ha
  | copying source result a token hfound ha hl hok htoken hfresh =>
    rw [Task.action?, htask.archive, ha] at haction
    cases haction
    exact parallel_copying hs htask hat hat' hle htwin hown hfound ha hl hok htoken hfresh
  | recording source result a e hfound ha hl hok =>
    rw [Task.action?, htask.archive, ha] at haction
    cases haction
    exact parallel_recording hs hat hat' hle hfound ha hl hok _
  | checking r h =>
    cases haction
    exact parallel_checking hs htask hat hat' htwin h
  | writing r h =>
    cases haction
    exact parallel_writing hs htask hat hat' hle htwin hown h _
  | moving r h =>
    cases haction
    exact parallel_moving hs htask hat hat' hle htwin hown h
  | cleaning r e h =>
    cases haction
    exact parallel_cleaning hs htask hat hat' hle htwin hown h e
  | finished outcome => cases haction

variable {v v' : World} (hv : v.tree = t) (hv' : v'.tree = t')

include hv hv'

/-- An action that fails from outside: a write may leave something in the temporary file. -/
theorem parallel_fault (fault : Fault) : s.Parallel task mine l stage t t'
    (v.afterFault s.directory action fault)
    (v'.afterFault s.directory action fault) (.error fault.error) := by
  subst hv hv'
  have hnothing : s.Parallel task mine l stage v.tree v'.tree v.tree v'.tree (.error fault.error) :=
    .of_error .same hreached fault.error
  cases hreached with
  | writing r h =>
    cases haction
    unfold World.afterFault
    cases fault.leftover with
    | none => exact hnothing
    | some bytes =>
      obtain ⟨cause, f, hchange, hmodify, hmodify'⟩ :=
        modify_temporary hs htask hat hat' hle htwin hown h bytes
      dsimp only
      rw [hmodify, hmodify']
      exact .of_error hchange (.writing r h) fault.error
  | making source result a hfound ha
  | copying source result a token hfound ha hk hok htoken hfresh
  | recording source result a e hfound ha hk hok =>
    rw [Task.action?, htask.archive, ha] at haction
    cases haction
    exact hnothing
  | reading | checking r h | moving r h | cleaning r e h => cases haction; exact hnothing
  | finished outcome => cases haction

/-- **An action of a task** gives one reply in two worlds with twin trees, if it fails from outside
in both or in none, and changes both trees in one way. -/
theorem perform_together (hfault : v'.faults.head?.join = v.faults.head?.join) :
    ∃ reply u u', v.perform s.directory action =
        (reply, { v with faults := v.faults.drop 1, tree := u }) ∧
      v'.perform s.directory action =
        (reply, { v' with faults := v'.faults.drop 1, tree := u' }) ∧
      s.Parallel task mine l stage t t' u u' reply := by
  unfold World.perform
  rw [hfault]
  cases v.faults.head?.join with
  | none =>
    obtain ⟨reply, u, u', hreply, hreply', hparallel⟩ :=
      parallel_action hs htask hat hat' hle htwin hown hreached haction
    refine ⟨reply, u, u', ?_, ?_, hparallel⟩
    · dsimp only
      rw [hv, hreply]
    · dsimp only
      rw [hv', hreply']
  | some fault =>
    exact ⟨_, _, _, rfl, rfl,
      parallel_fault hs htask hat hat' hle htwin hown hreached haction hv hv' fault⟩

end

end Posonly.Scene
