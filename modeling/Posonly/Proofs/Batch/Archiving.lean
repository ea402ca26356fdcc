import Posonly.Batch.Run
import Posonly.Proofs.Batch.Storing

/-!
# A batch that stores its files

The tasks of a batch act in turns on one tree, and any action may fail. An action of one task leaves
what is known of the others (`Framed`), so whoever acts, the batch goes on and the archive is kept
(`Going.step`).
-/

open List

namespace Posonly

variable {s : Setting} {called : Place → Text} {since : Nat} {w w' : World}
  {entries entries' : List ArchiveEntry} {task other : Task} {place place' : Place}
  {stage stage' : Stage} {archived : Text} {bytes : Bytes} {action : FileAction}

/-- The copy that a task is to make. -/
def Stage.copying? : Stage → Option Text
  | .archiving _ _ (.copying archived) => some archived
  | _ => none

/-- What an action of a task at a stage leaves of the files. -/
structure Framed (s : Setting) (place : Place) (stage : Stage) (t t' : FileTree) : Prop where
  present : ∀ q bytes, Lasting s q → t.get? q = some (.file bytes) →
    ∃ bytes', t'.get? q = some (.file bytes')
  file : ∀ q bytes, Lasting s q → q ≠ place → t.get? q = some (.file bytes) →
    t'.get? q = some (.file bytes)
  absent : ∀ archived, Lasting s (s.copy archived) → stage.copying? ≠ some archived →
    t.get? (s.copy archived) = none → t'.get? (s.copy archived) = none

section

variable (hreached : Reached s called since w entries task place stage)
  (hchange : ∀ q, FileTree.Change s.archive s.Temporary (Writes s place stage) w.tree w'.tree q)

include hreached hchange

theorem framed_of_change (hpresent : w.tree.get? place = some (.file bytes)) :
    Framed s place stage w.tree w'.tree where
  present q bytes hlasting hq := by
    obtain ⟨bytes', hfile, _⟩ := (hchange q).file hq hlasting.named
    exact ⟨bytes', hfile⟩
  file q bytes hlasting hne hq := by
    obtain ⟨bytes', hfile, heq | hwrites⟩ := (hchange q).file hq hlasting.named
    · rwa [← heq]
    · rcases hwrites.listed hreached hq with hmanifest | ⟨hplace, _⟩
      · exact absurd hmanifest hlasting.notManifest
      · exact absurd hplace hne
  absent archived hlasting hstage hnone := by
    cases hchange (s.copy archived) with
    | same hsame => rw [hsame, hnone]
    | opened hq _ _ =>
      have := hq.length_le
      rw [Setting.copy, length_append, length_singleton] at this
      omega
    | gone _ _ _ _ hgone => exact hgone
    | filed parent n _ hplace hn _ _ _ _ =>
      -- of all that a task writes to, only its own copy can be missing
      have hwrites := hn.resolve_left (hlasting.named parent n hplace)
      generalize hq : s.copy archived = q at hwrites
      cases hwrites with
      | copy source result archived' =>
        obtain ⟨_, heq⟩ := append_singleton_inj.mp hq
        exact absurd (congrArg some heq.symm) hstage
      | manifest source result e => exact absurd hq hlasting.notManifest
      | file r =>
        rw [← hq, hnone] at hpresent
        cases hpresent

theorem holds_of_change (hs : s.Ready) (hplace : Lasting s place)
    (hstart : s.initial.supplied ≤ since) (hstop : w.supplied ≤ s.stop)
    (hholds : Holds s w.tree entries)
    (hstage : ∀ source result e, stage ≠ .archiving source result (.recording e)) :
    Holds s w'.tree entries := by
  have htemporary : ∀ parent n, s.manifest = parent ++ [n] → ¬ s.Temporary n := by
    rintro parent n hq ⟨_, _, _, hname⟩
    obtain ⟨_, heq⟩ := append_singleton_inj.mp hq
    exact hname.ne_manifest heq.symm
  have hsame : w'.tree.get? s.manifest = w.tree.get? s.manifest := by
    cases hchange s.manifest with
    | same hsame => exact hsame
    | opened hq _ _ =>
      have := hq.length_le
      rw [Setting.manifest, length_append, length_singleton] at this
      omega
    | gone parent n hq hn _ => exact absurd hn (htemporary parent n hq)
    | filed parent n _ hq hn _ _ _ _ =>
      have hwrites := hn.resolve_left (htemporary parent n hq)
      generalize hmanifest : s.manifest = q' at hwrites
      cases hwrites with
      | copy source result archived =>
        have hcopied := (copied_of_supplied hstop hreached.name).mono hstart
        exact absurd hmanifest.symm (hs.lasting_copy hcopied).notManifest
      | manifest source result e => exact absurd rfl (hstage source result e)
      | file r => exact absurd hmanifest.symm hplace.notManifest
  unfold Holds
  rwa [hsame]

end

/-! ## One action -/

/-- No entry is for a copy that is made from a count on. -/
def NoneSince (s : Setting) (called : Place → Text) (since : Nat) (entries : List ArchiveEntry) :
    Prop :=
  ∀ f ∈ entries, ∀ archived, Spelled archived → s.Copied since archived →
    f.file ≠ called (s.copy archived)

/-- What an action of a task leads to. -/
structure Stepped (s : Setting) (called : Place → Text) (since : Nat) (w : World)
    (entries : List ArchiveEntry) (task : Task) (place : Place) (stage : Stage) (w' : World)
    (entries' : List ArchiveEntry) (stage' : Stage) : Prop where
  kept : Kept s called w' entries'
  framed : Framed s place stage w.tree w'.tree
  reached : Reached s called since w' entries' task place stage'
  supplied : w.supplied ≤ w'.supplied
  grows : entries ⊆ entries'
  new : ∀ f ∈ entries', f ∈ entries ∨ f.file = called place

theorem Replacing.mono {r : Replacement} (h : Replacing s called w entries task place r)
    (hsupplied : w.supplied ≤ w'.supplied) (hgrows : entries ⊆ entries') :
    Replacing s called w' entries' task place r where
  listed := by
    obtain ⟨e, he, hfile⟩ := h.listed
    exact ⟨e, hgrows he, hfile⟩
  temporary := by
    obtain ⟨i, hstart, hi, htemporary⟩ := h.temporary
    exact ⟨i, hstart, Nat.lt_of_lt_of_le hi hsupplied, htemporary⟩

theorem Tasked.ne_copy (h : Tasked s called since task place)
    (hname : Naming s called) (ho : Orderly s w) (hstart : s.initial.supplied ≤ since)
    (hpresent : w.tree.get? place = some (.file bytes)) (hspelled : Spelled archived)
    (hcopied : s.Copied since archived) : called place ≠ called (s.copy archived) := by
  intro heq
  have hplace := hname.copies ho.wellFormed ho.steady hpresent hspelled (hcopied.mono hstart) heq
  obtain ⟨parent, hlast⟩ := h.last
  rw [hlast] at hplace
  obtain ⟨_, heq⟩ := append_singleton_inj.mp hplace
  exact h.old (heq ▸ hcopied)

/-- An action has led from one world to another. -/
structure Acted (p : Premises) (w : World) (action : FileAction) (reply : FileReply) (w' : World) :
    Prop where
  yields : w.tree.Yields p.directory action reply w'.tree
  faults : w'.faults <:+ w.faults
  supplied : w'.supplied = w.supplied + 1

theorem Task.converted_cases {archive : Archive} (harchive : task.options.archive = some archive)
    (source : Text) (supply : Supply) :
    (∃ outcome, task.converted source supply = .finished outcome) ∨
      ∃ result, task.converted source supply = .archiving source result .making := by
  unfold Task.converted
  split
  · exact .inl ⟨_, rfl⟩
  · rename_i result _
    split
    · exact .inl ⟨_, rfl⟩
    · rw [harchive]
      exact .inr ⟨result, rfl⟩

theorem Tasked.copyName (hs : s.Ready) (htask : Tasked s called since task place) (token : Text) :
    CopyName s.Fresh token (Archive.copyName task.file token) :=
  copyName_copyName (htask.named.imp_right hs.fresh_unknown)

/-- How a task goes on from a stage at which it acts. -/
inductive Task.Leads (task : Task) (supply : Supply) : Stage → Stage → Prop where
  | failed {stage e} : Leads task supply stage (.finished (.error e))
  | unwritten {source result} : Leads task supply .reading (task.unwritten source result)
  | making {source result} (h : task.options.archive.isSome) :
      Leads task supply .reading (.archiving source result .making)
  | copying {source result} : Leads task supply (.archiving source result .making)
      (.archiving source result (.copying (Archive.copyName task.file supply.token)))
  | recording {source result archived entry} :
      Leads task supply (.archiving source result (.copying archived))
        (.archiving source result (.recording entry))
  | checking {stage r} (h : stage = .reading ∨
        ∃ source result entry, stage = .archiving source result (.recording entry)) :
      Leads task supply stage (.checking r)
  | writing {r} : Leads task supply (.checking r) (.writing r)
  | moving {r} : Leads task supply (.writing r) (.moving r)
  | written {r} : Leads task supply (.moving r) (task.written r)
  | cleaning {stage r e} (h : stage = .writing r ∨ stage = .moving r) :
      Leads task supply stage (.cleaning r e)

theorem Task.advance_leads (haction : task.action? stage = some action)
    (reply : FileReply) (supply : Supply) :
    task.Leads supply stage (task.advance stage reply supply) := by
  cases stage with
  | reading =>
    cases reply with
    | error e => exact .failed
    | ok bytes =>
      rw [advance, converted]
      split
      · exact .failed
      · split
        · exact .unwritten
        · split
          · exact .making (by assumption)
          · exact .checking (.inl rfl)
  | archiving source result stage =>
    obtain ⟨_, _, haction⟩ := Option.bind_eq_some_iff.mp haction
    cases stage with
    | making | copying archived => cases reply <;> constructor
    | recording entry =>
      cases reply with
      | error e => exact .failed
      | ok bytes => exact .checking (.inr ⟨_, _, _, rfl⟩)
    | stored entry | failed e => cases haction
  | writing r =>
    cases reply with
    | error e => exact .cleaning (.inl rfl)
    | ok bytes => exact .moving
  | moving r =>
    cases reply with
    | error e => exact .cleaning (.inr rfl)
    | ok bytes => exact .written
  | checking r | cleaning r e => cases reply <;> constructor
  | finished outcome => cases haction

/-- The next copy of a task has the token in its name that has just been supplied. -/
theorem Task.Leads.copying? {supply : Supply} (h : task.Leads supply stage stage')
    (hcopy : stage'.copying? = some archived) :
    archived = Archive.copyName task.file supply.token := by
  cases h with
  | copying => exact (Option.some.inj hcopy).symm
  | _ => cases hcopy

section

variable {action : FileAction} {reply : FileReply} (hs : s.Ready) (hk : Kept s called w entries)
  (htask : Tasked s called since task place) {bytes : Bytes}
  (hpresent : w.tree.get? place = some (.file bytes))

include hs hk htask hpresent

omit hpresent in
theorem copying_of_making {source : Text} {result : Conversion.Result}
    (hsince : since ≤ w.supplied) (hstop : w.supplied < s.stop)
    (hacted : Acted s.premises w action reply w')
    (hstage : stage = .archiving source result .making)
    (hframed : Framed s place stage w.tree w'.tree) :
    Copying s since w' (Archive.copyName task.file (s.token w.supplied)) := by
  have hstart := hk.orderly.supplied
  have hname := htask.copyName hs (s.token w.supplied)
  have hcopied : s.Copied w.supplied (Archive.copyName task.file (s.token w.supplied)) :=
    ⟨w.supplied, Nat.le_refl _, hstop, hname⟩
  refine ⟨spelled_copyName htask.spelled (hs.tokens.shaped _ hstart hstop),
    ⟨w.supplied, hsince, by have := hacted.supplied; omega, hname⟩,
    hframed.absent _ (hs.lasting_copy (hcopied.mono hstart)) (by simp [hstage, Stage.copying?])
      (hk.orderly.unseen _ _ hcopied)⟩

theorem recording_of_copying {copied : Bytes} (time : Text)
    (h : Copying s since w archived)
    (hacted : Acted s.premises w (.copy task.file (s.root.copyPath archived)) (.ok copied) w') :
    Recording s called since w' entries place
      ⟨Path.resolve task.directory task.file, archived, time⟩ := by
  have hperform := hacted.yields.perform_eq
  rcases copy_spec hs hk.orderly htask hpresent h with ⟨hfailed, _⟩ | ⟨hcopy, _, _, hshort⟩
  · exact absurd (FileTree.settled_ok (congrArg Prod.fst hperform)) hfailed
  · have htree : w'.tree = w.tree.put (s.copy archived) (.file bytes) := by
      rw [FileTree.perform, hcopy] at hperform
      exact (congrArg Prod.snd hperform).symm
    obtain ⟨i, hi, hlt, hname⟩ := h.name
    have hsupplied := hacted.supplied
    refine ⟨?_, h.spelled, ⟨i, hi, by omega, hname⟩, hshort, bytes, ?_, ?_⟩
    · rw [htask.directory, htask.recorded]
    · rw [htree, FileTree.get?_put (by simp [Setting.copy]), if_pos rfl]
    · -- what was copied is the original still, or some task has recorded an entry before
      intro original hinitial
      rcases hk.listed.originals place original hinitial with hsame | ⟨_, hentry⟩
      · rw [hpresent, Option.some.injEq, FileNode.file.injEq] at hsame
        exact .inl hsame
      · exact .inr hentry

variable (hreached : Reached s called since w entries task place stage)
  (hstart : s.initial.supplied ≤ since) (hsince : since ≤ w.supplied) (hstop : w.supplied < s.stop)
  (hacted : Acted s.premises w action reply w')

include hreached hstart hsince hstop hacted

section

variable (hchange :
  ∀ q, FileTree.Change s.archive s.Temporary (Writes s place stage) w.tree w'.tree q)

include hchange

/-- **An action keeps the files in order and the history of the archive.** -/
theorem kept_of_change : Orderly s w' ∧ Listed s called w'.tree entries := by
  have hsupplied := hacted.supplied
  refine ⟨hk.orderly.change hs hchange hacted.faults (by omega)
    (fun q hq => hq.way hk.orderly hpresent) fun parent n hq => ?_,
    hk.listed.change hs hchange fun q old hq hold => ?_⟩
  · intro hcopied
    exact hq.seen hs htask hstart hsince (Nat.le_of_lt hstop) hreached (hcopied.mono (by omega))
  · exact (hq.listed hreached hold).imp_right And.right

theorem stepped_of_change (hholds : Holds s w'.tree entries)
    (hreached' : Reached s called since w' entries task place stage') :
    Stepped s called since w entries task place stage w' entries stage' := by
  obtain ⟨horderly, hlisted⟩ := kept_of_change hs hk htask hpresent hreached hstart hsince hstop
    hacted hchange
  have hsupplied := hacted.supplied
  exact
    { kept := ⟨horderly, hlisted, hholds⟩
      framed := framed_of_change hreached hchange hpresent
      reached := hreached'
      supplied := by omega
      grows := fun _ h => h
      new := fun f hf => .inl hf }

variable {source : Text} {result : Conversion.Result} {e : ArchiveEntry} (hname : Naming s called)
  (hnone : NoneSince s called since entries)
  (hstage : stage = .archiving source result (.recording e))

include hname hnone hstage

/-- **An entry is recorded** once its copy has been made. -/
theorem stepped_recording (hholds : Holds s w'.tree (entries ++ [e])) :
    Stepped s called since w entries task place stage w' (entries ++ [e])
      (task.replace source result (some e) (s.supply w.supplied)) := by
  obtain ⟨horderly, hlisted⟩ := kept_of_change hs hk htask hpresent hreached hstart hsince hstop
    hacted hchange
  have hframed := framed_of_change hreached hchange hpresent
  have hsupplied := hacted.supplied
  rw [hstage] at hreached
  have hcopied : s.Copied since e.archived := copied_of_supplied (Nat.le_of_lt hstop) hreached.name
  have hne : called place ≠ called (s.copy e.archived) :=
    htask.ne_copy hname hk.orderly hstart hpresent hreached.spelled hcopied
  have hlasting := hs.lasting_copy (hcopied.mono hstart)
  obtain ⟨copied, hcopy, horiginal⟩ := hreached.copied
  have hcopy' : w'.tree.get? (s.copy e.archived) = some (.file copied) :=
    hframed.file _ copied hlasting (fun heq => hne (by rw [heq])) hcopy
  have hstored : Stored s called w'.tree e place :=
    { file := hreached.file
      names := hreached.file ▸ htask.names
      lasting := htask.lasting
      present := hframed.present place bytes htask.lasting hpresent
      copyName := hcopied.mono hstart
      copyPresent := ⟨copied, hcopy'⟩
      copyShort := hreached.short }
  have hlisted' : Listed s called w'.tree (entries ++ [e]) := by
    refine hlisted.append hstored (fun f hf => hnone f hf _ hreached.spelled hcopied)
      (hreached.file ▸ hne) fun place' original hinitial hfile => ?_
    obtain ⟨_, hpresent'⟩ := hk.orderly.steady.file hinitial
    have hplace : place' = place := hname.unique hk.orderly.wellFormed hk.orderly.steady hpresent'
      hpresent (hfile.symm.trans hreached.file)
    subst hplace
    -- the copy is the original, or it was made too late to be the first
    rcases horiginal original hinitial with rfl | hentry
    · exact .inl hcopy'
    · exact .inr hentry
  exact
    { kept := ⟨horderly, hlisted', hholds⟩
      framed := hframed
      reached := ⟨⟨e, by simp, hreached.file⟩, w.supplied, by omega, by omega, rfl⟩
      supplied := by omega
      grows := subset_append_left ..
      new := fun f hf => by
        rcases mem_append.mp hf with hf | hf
        · exact .inl hf
        · rw [mem_singleton.mp hf]
          exact .inr hreached.file }

theorem step_recording
    (haction : action = .append s.root.manifest (Encoding.utf8.encode e.line)) :
    ∃ entries', Stepped s called since w entries task place stage w' entries'
      (task.advance stage reply (s.supply w.supplied)) := by
  have happend := append_spec hs hk.orderly hk.holds (Encoding.utf8.encode e.line)
  have hyields := hacted.yields
  subst haction
  cases reply with
  | ok reply =>
    have hperform := hyields.perform_eq
    rcases happend with ⟨hfailed, _⟩ | ⟨happend, _⟩
    · exact absurd (FileTree.settled_ok (congrArg Prod.fst hperform)) hfailed
    · have hstage' : task.advance stage (.ok reply) (s.supply w.supplied) =
          task.replace source result (some e) (s.supply w.supplied) := by
        rw [hstage]
        rfl
      rw [hstage']
      refine ⟨entries ++ [e], stepped_recording hs hk htask hpresent hreached hstart hsince hstop
        hacted hchange hname hnone hstage (.inr ?_)⟩
      have htree : w'.tree = w.tree.put s.manifest
          (.file (Manifest.content entries ++ Encoding.utf8.encode e.line)) := by
        rw [FileTree.perform, happend] at hperform
        exact (congrArg Prod.snd hperform).symm
      rw [htree, FileTree.get?_put (by simp [Setting.manifest]),
        if_pos rfl, Manifest.content_append]
  | error cause =>
    -- whoever has failed, the file system or a fault, has left the manifest as it was
    have hsame : w'.tree = w.tree := by
      generalize hreply : (Except.error cause : FileReply) = reply at hyields
      generalize w'.tree = t at hyields
      cases hyields with
      | failed e => rfl
      | torn e _ _ _ hwrite => cases hwrite
      | done =>
        rcases happend with ⟨_, hsame⟩ | ⟨happend, _⟩
        · rw [FileTree.perform, FileTree.settled_snd, hsame]
        · rw [FileTree.perform, happend] at hreply
          cases hreply
    have hstage' : task.advance stage (.error cause) (s.supply w.supplied) =
        Task.failed cause := by
      rw [hstage]
      rfl
    rw [hstage']
    refine ⟨entries, stepped_of_change hs hk htask hpresent hreached hstart hsince hstop hacted
      hchange ?_ trivial⟩
    rw [hsame]
    exact hk.holds

end

/-- **An action of a task keeps the archive**, whether it fails or not. -/
theorem step_kept (hname : Naming s called) (hnone : NoneSince s called since entries)
    (haction : task.action? stage = some action) :
    ∃ entries', Stepped s called since w entries task place stage w' entries'
      (task.advance stage reply (s.supply w.supplied)) := by
  have hchange := yields_change hs hk.orderly htask hpresent (Nat.le_of_lt hstop) hk.holds hreached
    haction hacted.yields
  have hmore : w.supplied ≤ w'.supplied := by
    have := hacted.supplied
    omega
  -- all actions but one leave the manifest as it is
  have hstepped : ∀ stage', (∀ source result e, stage ≠ .archiving source result (.recording e)) →
      Reached s called since w' entries task place stage' →
      ∃ entries', Stepped s called since w entries task place stage w' entries' stage' :=
    fun stage' hstage h =>
      ⟨entries, stepped_of_change hs hk htask hpresent hreached hstart hsince hstop hacted hchange
        (holds_of_change hreached hchange hs htask.lasting hstart
          (Nat.le_of_lt hstop) hk.holds hstage)
        h⟩
  cases stage with
  | reading =>
    refine hstepped _ (by simp) ?_
    cases reply with
    | error e => trivial
    | ok bytes =>
      rcases task.converted_cases htask.archive (task.options.encoding.decode bytes)
        (s.supply w.supplied) with ⟨outcome, h⟩ | ⟨result, h⟩
      · rw [Task.advance, h]
        trivial
      · rw [Task.advance, h]
        trivial
  | archiving source result stage =>
    rw [Task.action?, htask.archive, Option.bind_some] at haction
    cases stage with
    | making =>
      refine hstepped _ (by simp) ?_
      cases reply with
      | error e => trivial
      | ok bytes =>
        exact copying_of_making hs hk htask hsince hstop hacted rfl
          (framed_of_change hreached hchange hpresent)
    | copying archived =>
      cases haction
      refine hstepped _ (by simp) ?_
      cases reply with
      | error e => trivial
      | ok bytes => exact recording_of_copying hs hk htask hpresent _ hreached hacted
    | recording e =>
      cases haction
      exact step_recording hs hk htask hpresent hreached hstart hsince hstop hacted hchange hname
        hnone rfl rfl
    | stored e | failed e => cases haction
  | checking r =>
    refine hstepped _ (by simp) ?_
    cases reply with
    | error e => trivial
    | ok bytes => exact hreached.mono hmore fun _ h => h
  | writing r =>
    refine hstepped _ (by simp) ?_
    cases reply with
    | error e | ok bytes => exact hreached.mono hmore fun _ h => h
  | moving r =>
    refine hstepped _ (by simp) ?_
    cases reply with
    | error e => exact hreached.mono hmore fun _ h => h
    | ok bytes => trivial
  | cleaning r e =>
    refine hstepped _ (by simp) ?_
    cases reply with
    | error e | ok bytes => trivial
  | finished outcome => cases haction

end

/-! ## Other tasks -/

/-- **What is known of one task stays known when another acts**, as long as the two do not make the
same copy. -/
theorem Reached.frame {stage₂ : Stage} (hs : s.Ready) (hname : Naming s called)
    (ho : Orderly s w) (htask : Tasked s called since task place)
    (hpresent : w.tree.get? place = some (.file bytes))
    (hstart : s.initial.supplied ≤ since) (hstop : w.supplied ≤ s.stop)
    (hstep : Stepped s called since w entries task place stage w' entries' stage')
    (hapart : ∀ archived, stage.copying? = some archived → stage₂.copying? ≠ some archived)
    (h : Reached s called since w entries other place' stage₂) :
    Reached s called since w' entries' other place' stage₂ := by
  have hcopy :
      ∀ archived, (∃ i, since ≤ i ∧ i < w.supplied ∧ CopyName s.Fresh (s.token i) archived) →
      ∃ i, since ≤ i ∧ i < w'.supplied ∧ CopyName s.Fresh (s.token i) archived := by
    rintro archived ⟨i, hi, hlt, hcopied⟩
    exact ⟨i, hi, Nat.lt_of_lt_of_le hlt hstep.supplied, hcopied⟩
  cases stage₂ with
  | archiving source result stage₂ =>
    cases stage₂ with
    | copying archived =>
      have hcopied := (copied_of_supplied hstop h.name).mono hstart
      exact ⟨h.spelled, hcopy archived h.name,
        hstep.framed.absent archived (hs.lasting_copy hcopied)
        (fun hcopying => hapart archived hcopying rfl) h.absent⟩
    | recording e =>
      have hcopied := copied_of_supplied hstop h.name
      -- the copy is not the file of the task that acts, so its bytes stay
      obtain ⟨copied, hfile, horiginal⟩ := h.copied
      have hne : s.copy e.archived ≠ place := fun heq =>
        htask.ne_copy hname ho hstart hpresent h.spelled hcopied (by rw [heq])
      refine ⟨h.file, h.spelled, hcopy _ h.name, h.short, copied,
        hstep.framed.file _ copied (hs.lasting_copy (hcopied.mono hstart)) hne hfile, ?_⟩
      intro original hinitial
      rcases horiginal original hinitial with heq | ⟨f, hf, hentry⟩
      · exact .inl heq
      · exact .inr ⟨f, hstep.grows hf, hentry⟩
    | making | stored e | failed e => trivial
  | checking r | writing r | moving r | cleaning r e =>
    exact Replacing.mono h hstep.supplied hstep.grows
  | reading | finished outcome => trivial

/-- A batch that is under way, which has begun when so many supplies had been taken. -/
structure Going (s : Setting) (called : Place → Text) (since : Nat) (w : World)
    (entries : List ArchiveEntry) (b : Batch) : Prop where
  kept : Kept s called w entries
  start : s.initial.supplied ≤ since
  begun : since ≤ w.supplied
  noneSince : NoneSince s called since entries
  length : b.stages.length = b.tasks.length
  reached : ∀ (k : Nat) task stage, b.tasks[k]? = some task → b.stages[k]? = some stage →
    ∃ place bytes, Tasked s called since task place ∧ w.tree.get? place = some (.file bytes) ∧
      Reached s called since w entries task place stage
  /-- No two tasks are to make the same copy. -/
  apart : ∀ (k l : Nat) stage stage' archived, b.stages[k]? = some stage →
    b.stages[l]? = some stage' → stage.copying? = some archived →
      stage'.copying? = some archived → k = l

/-- A batch with a task at another stage. -/
def Batch.withStage (b : Batch) (k : Nat) (stage : Stage) : Batch :=
  { b with stages := b.stages.set k stage }

variable {b b' : Batch}

theorem Batch.withStage_cases {k l : Nat} {new : Stage}
    (h : (b.withStage k new).stages[l]? = some stage) :
    l = k ∧ stage = new ∨ l ≠ k ∧ b.stages[l]? = some stage := by
  rw [withStage, getElem?_set] at h
  split at h
  · rename_i heq
    split at h
    · exact .inl ⟨heq.symm, (Option.some.inj h).symm⟩
    · cases h
  · rename_i hne
    exact .inr ⟨Ne.symm hne, h⟩

section

variable (h : Going s called since w entries b)

include h

theorem Going.congr (htasks : b'.tasks = b.tasks)
    (hstages : b'.stages = b.stages) : Going s called since w entries b' where
  kept := h.kept
  start := h.start
  begun := h.begun
  noneSince := h.noneSince
  length := by rw [htasks, hstages]; exact h.length
  reached := by rw [htasks, hstages]; exact h.reached
  apart := by rw [hstages]; exact h.apart

theorem Going.copying {l : Nat} (hstage : b.stages[l]? = some stage)
    (hcopying : stage.copying? = some archived) : Copying s since w archived := by
  obtain ⟨hl, _⟩ := List.getElem?_eq_some_iff.mp hstage
  have htask : b.tasks[l]? = some (b.tasks.get ⟨l, by rw [← h.length]; exact hl⟩) :=
    getElem?_eq_getElem _
  obtain ⟨_, _, _, _, hreached⟩ := h.reached l _ _ htask hstage
  unfold Stage.copying? at hcopying
  split at hcopying
  · cases hcopying
    exact hreached
  · cases hcopying

theorem Going.step {k : Nat} {reply : FileReply}
    (hs : s.Ready) (hname : Naming s called)
    (hstop : w.supplied < s.stop) (htask : b.tasks[k]? = some task)
    (hstage : b.stages[k]? = some stage)
    (haction : task.action? stage = some action) (hacted : Acted s.premises w action reply w') :
    ∃ entries', Going s called since w' entries'
      (b.withStage k (task.advance stage reply (s.supply w.supplied))) := by
  obtain ⟨place, bytes, htasked, hpresent, hreached⟩ := h.reached k task stage htask hstage
  obtain ⟨entries', hstep⟩ := step_kept hs h.kept htasked hpresent hreached h.start h.begun hstop
    hacted hname h.noneSince haction
  -- a copy that is new cannot be one that another task is to make
  have hfresh : ∀ (l : Nat) stage₂ archived, b.stages[l]? = some stage₂ →
      (task.advance stage reply (s.supply w.supplied)).copying? = some archived →
      stage₂.copying? ≠ some archived := by
    intro l stage₂ archived hstage₂ hnew hcopying
    obtain ⟨i, hi, hlt, hcopy⟩ := (h.copying hstage₂ hcopying).name
    rw [(task.advance_leads haction ..).copying? hnew] at hcopy
    have hi₀ : s.initial.supplied ≤ i := Nat.le_trans h.start hi
    exact Nat.ne_of_lt hlt
      (hs.count_unique hi₀ (Nat.lt_trans hlt hstop) h.kept.orderly.supplied hstop
      hcopy (htasked.copyName hs _))
  generalize task.advance stage reply (s.supply w.supplied) = stage' at hstep hfresh ⊢
  refine ⟨entries', hstep.kept, h.start, Nat.le_trans h.begun hstep.supplied, ?_, ?_, ?_, ?_⟩
  · intro f hf archived hspelled hcopied
    rcases hstep.new f hf with hf | hfile
    · exact h.noneSince f hf archived hspelled hcopied
    · rw [hfile]
      exact htasked.ne_copy hname h.kept.orderly h.start hpresent hspelled hcopied
  · exact length_set.trans h.length
  · intro l task' stage₂ htask' hstage₂
    rcases Batch.withStage_cases hstage₂ with ⟨rfl, rfl⟩ | ⟨hl, hstage₂⟩
    · obtain rfl : task = task' := Option.some.inj (htask.symm.trans htask')
      obtain ⟨bytes', hfile⟩ := hstep.framed.present place bytes htasked.lasting hpresent
      exact ⟨place, bytes', htasked, hfile, hstep.reached⟩
    · obtain ⟨place', old, htasked', hpresent', hreached'⟩ :=
        h.reached l task' stage₂ htask' hstage₂
      obtain ⟨bytes', hfile⟩ := hstep.framed.present place' old htasked'.lasting hpresent'
      refine ⟨place', bytes', htasked', hfile,
        Reached.frame hs hname h.kept.orderly htasked hpresent
        h.start (Nat.le_of_lt hstop) hstep ?_ hreached'⟩
      exact fun archived hcopying hcopying₂ =>
        hl (h.apart l k _ _ archived hstage₂ hstage hcopying₂ hcopying)
  · intro l l' stage₁ stage₂ archived hl hl' hcopying hcopying'
    rcases Batch.withStage_cases hl with ⟨rfl, rfl⟩ | ⟨_, hold⟩
    · rcases Batch.withStage_cases hl' with ⟨rfl, _⟩ | ⟨_, hold'⟩
      · rfl
      · exact absurd hcopying' (hfresh l' stage₂ archived hold' hcopying)
    · rcases Batch.withStage_cases hl' with ⟨rfl, rfl⟩ | ⟨_, hold'⟩
      · exact absurd hcopying (hfresh l stage₁ archived hold hcopying')
      · exact h.apart l l' _ _ archived hold hold' hcopying hcopying'

end

end Posonly
