import Posonly.Proofs.Batch.Leftovers

/-!
# How far the conversion of a file has come

Any action on a file that is converted by itself can fail, and writing the temporary file can break
off half way. Each stage carries what is known of the tree (`Halfway`), and each action hands it on,
whether it fails or not (`Halfway.acts`). So it is known after any number of actions
(`halfway_after`): until the temporary file is moved, the file has the bytes that it had.
-/

open Posonly.FileTree

namespace Posonly

namespace Scene

/-- What is known of a tree by the stage of a task whose file had some bytes at the start. That no
temporary file is left after a failure holds only if taking it away did not fail in turn. -/
inductive Halfway (s : Scene) (task : Task) (place : Place) (old : Bytes)
    (calm : Prop) (t : FileTree) : Stage → Prop where
  | reading (h : t = s.initial.tree) : Halfway s task place old calm t .reading
  | making (source : Text) (result : Conversion.Result) (h : t = s.initial.tree)
      (hconverts : Converts task old source result) :
      Halfway s task place old calm t (.archiving source result .making)
  | copying (source : Text) (result : Conversion.Result) (archived token : Text) (h : t = s.made)
      (hconverts : Converts task old source result) (hfresh : s.Fresh token)
      (harchived : archived = Archive.copyName task.file token) :
      Halfway s task place old calm t (.archiving source result (.copying archived))
  | recording (source : Text) (result : Conversion.Result) (a : Archive) (ha : s.archive = some a)
      (entry : ArchiveEntry) (c : Place) (h : t = s.made.put c (.file old))
      (hconverts : Converts task old source result) (hwhole : s.Whole t)
      (hnone : s.made.get? c = none)
      (hc : ∃ n ∈ c, ¬ s.Clean n) (hfile : entry.file = Path.resolve task.directory task.file)
      (hcopy : s.Keeps place t (a.copyPath entry.archived) c old) :
      Halfway s task place old calm t (.archiving source result (.recording entry))
  | checking (r : Replacement) (hr : s.Planned task old r) (hwhole : s.Whole t)
      (hkept : s.Kept task place old r.archived t) : Halfway s task place old calm t (.checking r)
  | writing (r : Replacement) (hr : s.Planned task old r) (hwhole : s.Whole t)
      (hkept : s.Kept task place old r.archived t) : Halfway s task place old calm t (.writing r)
  | moving (r : Replacement) (q : Place) (hr : s.Planned task old r)
      (hstands : s.Stands (fun _ => False) t) (hspare : s.Spare q) (hbut : s.ClearedBut t q)
      (hleads : t.locate s.directory r.temporary false = .ok ⟨q, some (.file (task.bytes r))⟩)
      (hkept : s.Kept task place old r.archived t) :
      Halfway s task place old calm t (.moving r)
  | cleaning (r : Replacement) (e : FileError) (hr : s.Planned task old r)
      (hstands : s.Stands (fun _ => False) t)
      (hleft : s.Cleared t ∨ ∃ q bytes, s.ClearedBut t q ∧
        t.locate s.directory r.temporary false = .ok ⟨q, some (.file bytes)⟩) :
      Halfway s task place old calm t (.cleaning r e)
  | failed (e : TaskError) (hstands : s.Stands (fun _ => False) t) (hcleared : calm → s.Cleared t) :
      Halfway s task place old calm t (.finished (.error e))
  | unwritten (o : FileOutcome) (hwritten : o.written = false) (h : t = s.initial.tree) :
      Halfway s task place old calm t (.finished (.ok o))
  | written (r : Replacement) (x : Place) (hconverts : Converts task old r.source r.result)
      (hleads : t.locate s.directory task.file true = .ok ⟨x, some (.file (task.bytes r))⟩)
      (hcleared : s.Cleared t) (hkept : s.Kept task place old r.archived t) :
      Halfway s task place old calm t (task.written r)

namespace Halfway

variable {s : Scene} {task : Task} {i : Nat} {place : Place} {old : Bytes} {t u : FileTree}
  {stage : Stage} {calm : Prop} {action : FileAction} {supply : Supply} {w : World}

/-- An action that fails and changes nothing leads to a failure. A temporary file is still to be
taken away then, if there is one. -/
theorem stays (hs : s.Separate) (h : s.Halfway task place old calm t stage)
    (haction : task.action? stage = some action) (e : FileError)
    (hcalm : calm → ∀ r e, stage ≠ .cleaning r e) :
    s.Halfway task place old calm t (task.advance stage (.error e) supply) := by
  cases h with
  | reading h | making _ _ h =>
    subst h
    exact .failed _ (whole_initial hs).stands fun _ => (whole_initial hs).cleared
  | copying _ _ _ _ h =>
    subst h
    exact .failed _ (whole_made hs).stands fun _ => (whole_made hs).cleared
  | recording _ _ _ _ _ _ _ _ hwhole | checking _ _ hwhole =>
    exact .failed _ hwhole.stands fun _ => hwhole.cleared
  | writing r hr hwhole => exact .cleaning r e hr hwhole.stands (.inl hwhole.cleared)
  | moving r q hr hstands _ hbut hleads =>
    exact .cleaning r e hr hstands (.inr ⟨q, _, hbut, hleads⟩)
  | cleaning r e' _ hstands => exact .failed _ hstands fun hc => absurd rfl (hcalm hc r e')
  | failed | unwritten | written => cases haction

theorem writing_of_write {path : Text} {bytes : Bytes}
    (h : task.action? stage = some (.write path bytes)) : ∃ r, stage = .writing r := by
  cases stage with
  | archiving source result stage =>
    obtain ⟨a, _, hstore⟩ := Option.bind_eq_some_iff.mp h
    cases stage <;> cases hstore
  | writing r => exact ⟨r, rfl⟩
  | reading | checking r | moving r | cleaning r e | finished outcome => cases h

theorem converted (hs : s.Separate) (htask : task.options.archive = s.archive)
    (hfresh : s.Fresh supply.token) :
    s.Halfway task place old calm s.initial.tree
      (task.converted (task.options.encoding.decode old) supply) := by
  rw [Task.converted]
  split
  · exact .failed _ (whole_initial hs).stands fun _ => (whole_initial hs).cleared
  · rename_i result hresult
    have hconverts : Converts task old (task.options.encoding.decode old) result := ⟨rfl, hresult⟩
    split
    · exact .unwritten _ rfl rfl
    · split
      · exact .making _ _ rfl hconverts
      · rename_i harchive
        refine .checking _ ⟨hconverts, _, hfresh, rfl⟩ (whole_initial hs) fun a ha => ?_
        rw [htask, ha] at harchive
        exact absurd rfl harchive

section

variable (hs : s.Separate) (hread : s.Reads i place old) {reply : Bytes} {r : Replacement}

include hs hread

/-- The archive keeps an entry behind what its manifest held before. -/
theorem recorded (hp : s.Prepared) (hfresh : s.Fresh supply.token) {source : Text}
    {result : Conversion.Result} {entry : ArchiveEntry} {a : Archive}
    (ha : s.archive = some a)
    (h : s.Halfway task place old calm t (.archiving source result (.recording entry)))
    (hperform : t.perform s.directory
      (.append a.manifest (Encoding.utf8.encode entry.line)) = (.ok reply, u)) :
    s.Halfway task place old calm u
      (task.advance (.archiving source result (.recording entry)) (.ok reply) supply) := by
  cases h with
  | recording _ _ a' ha' _ c ht hconverts hwhole hnone hc hentry hcopy =>
    obtain rfl : a = a' := Option.some.inj (ha.symm.trans ha')
    rw [perform] at hperform
    have hu := congrArg Prod.snd hperform
    rw [settled_snd] at hu
    have hstands := hwhole.stands.modify_manifest hs ha (· ++ Encoding.utf8.encode entry.line)
    rcases modify_cases t s.directory a.manifest
        (· ++ Encoding.utf8.encode entry.line) with ⟨hfails, _⟩ | ⟨m, before, htarget, hmodify⟩
    · exact absurd (settled_ok (congrArg Prod.fst hperform)) hfails
    rw [hmodify] at hu hstands
    dsimp only at hu hstands
    obtain ⟨_, hlocate, _⟩ := locateTarget_ok htarget
    have hother : m ≠ place := (hwhole.stands.manifest_other hs ha (fun h => h) hread hlocate).symm
    have hopen := open_of_locateTarget htarget
    -- the manifest is at a clean place, so it is neither the copy nor a spare file
    obtain ⟨hclean, hheld⟩ : (∀ n ∈ m, s.Clean n) ∧
        before = s.initial.tree.held s.directory a.manifest := by
      subst ht
      exact held_of_target hp ha hnone hc hwhole.stands.within htarget
    have hcm : c ≠ m := by
      rintro rfl
      obtain ⟨n, hn, hnot⟩ := hc
      exact hnot (hclean n hn)
    have hspare : ¬ s.Spare m := not_spare_of_clean hclean
    subst hu hheld
    refine .checking _ ⟨hconverts, _, hfresh, rfl⟩
      ⟨hstands, hwhole.cleared.put hopen.ne_nil hspare _⟩ fun b hb => ?_
    obtain rfl : a = b := Option.some.inj (ha.symm.trans hb)
    exact ⟨entry, c, m, rfl, hentry, hcopy.put hopen hcm _, hother, hspare,
      locate_put hopen hlocate⟩

omit hread in
theorem written_temporary
    (h : s.Halfway task place old calm t (.writing r))
    (hperform : t.perform s.directory (.write r.temporary (task.bytes r)) = (.ok reply, u)) :
    s.Halfway task place old calm u (.moving r) := by
  cases h with
  | writing _ hr hwhole hkept =>
    obtain ⟨token, hfresh, htemporary⟩ := hr.temporary
    rw [htemporary, perform] at hperform
    have hu := congrArg Prod.snd hperform
    rw [settled_snd] at hu
    rcases hwhole.write hs hfresh fun _ => task.bytes r with
      ⟨hfails, _⟩ | ⟨q, hmodify, hspare, hnone, hbut, hstands, hleads⟩
    · exact absurd (settled_ok (congrArg Prod.fst hperform)) hfails
    rw [hmodify] at hu
    dsimp only at hu
    subst hu
    refine .moving r q hr hstands hspare hbut (htemporary ▸ hleads) fun a ha => ?_
    obtain ⟨entry, c, m, harchived, hentry, hcopy, hmanifest⟩ := hkept a ha
    have hapart : ∀ {p : Place}, ¬ s.Spare p → p ≠ q := fun hp heq => hp (heq ▸ hspare)
    exact ⟨entry, c, m, harchived, hentry, hcopy.put (.inl hnone) (hapart hcopy.lasting) _,
      hmanifest.put (.inl hnone) (hapart hmanifest.lasting) _⟩

variable (hfile : s.files[i]? = some task.file)

include hfile

theorem moved (h : s.Halfway task place old calm t (.moving r))
    (hperform : t.perform s.directory (.rename r.temporary task.file) = (.ok reply, u)) :
    s.Halfway task place old calm u (task.written r) := by
  cases h with
  | moving _ q hr hstands hspare hbut hleads hkept =>
    have hplace := hstands.locate_file hs (fun h => h) hread hfile
    obtain ⟨x, hrename, hne, hx, hfound, hlasts⟩ := rename_over hspare.ne_nil hleads hplace
    rw [perform, hrename, settled, Prod.mk.injEq] at hperform
    obtain ⟨_, rfl⟩ := hperform
    -- what is replaced was there from the start, so it is no spare file
    have hxspare : ¬ s.Spare x := by
      rcases hx with rfl | ⟨text, hlink⟩
      · exact hs.not_spare (making_keeps hread.get?)
      · exact hs.not_spare ((hstands.within.link hlink).resolve_right id)
    have hcleared : s.Cleared ((t.erase q).put x (.file (task.bytes r))) :=
      (hbut.erase hspare.ne_nil).put hne hxspare _
    refine .written r x hr.converts hfound hcleared fun a ha => ?_
    have hcarry : ∀ {path p bytes}, s.Keeps place t path p bytes →
        s.Keeps place ((t.erase q).put x (.file (task.bytes r))) path p bytes := by
      intro path p bytes hkeeps
      refine hkeeps.carry hlasts (fun _ hto => hto) ?_
      rw [get?_put hne, if_neg, get?_erase hspare.ne_nil, if_neg]
      · exact hkeeps.get?
      · rintro rfl
        exact hkeeps.lasting hspare
      · rintro rfl
        rcases hx with heq | ⟨text, hlink⟩
        · exact hkeeps.other heq
        · rw [hkeeps.get?] at hlink
          cases hlink
    obtain ⟨entry, c, m, harchived, hentry, hcopy, hmanifest⟩ := hkept a ha
    exact ⟨entry, c, m, harchived, hentry, hcarry hcopy, hcarry hmanifest⟩

/-- **What an action gives of itself**, a failure or not, hands on what is known. -/
theorem performs (hp : s.Prepared) (htask : task.options.archive = s.archive) {reply : FileReply}
    (h : s.Halfway task place old calm t stage) (haction : task.action? stage = some action)
    (hperform : t.perform s.directory action = (reply, u)) (hfresh : s.Fresh supply.token) :
    s.Halfway task place old calm u (task.advance stage reply supply) := by
  -- where a failure changes nothing and nothing is to be taken away
  have hfails : ∀ e, reply = .error e → (∀ path, action ≠ .makeDirectories path) →
      (∀ source target, action ≠ .copy source target) → (∀ r e, stage ≠ .cleaning r e) →
      s.Halfway task place old calm u (task.advance stage reply supply) := by
    intro e hreply hmake hcopy hclean
    rw [hreply] at hperform
    rw [perform_error hperform hmake hcopy, hreply]
    exact h.stays hs haction e fun _ => hclean
  have hu : (t.perform s.directory action).2 = u := by rw [hperform]
  cases id h with
  | reading ht =>
    cases haction
    have hbytes : t.read s.directory task.file = .ok old := by
      obtain ⟨file, hfile', hlocate⟩ := hread
      obtain rfl : task.file = file := Option.some.inj (hfile.symm.trans hfile')
      rw [ht]
      exact read_eq_ok_iff.mpr ⟨place, hlocate⟩
    rw [perform, hbytes, Prod.mk.injEq] at hperform
    obtain ⟨rfl, rfl⟩ := hperform
    rw [ht]
    exact converted hs htask hfresh
  | making source result ht hconverts =>
    rw [Task.action?, htask] at haction
    obtain ⟨a, ha, haction⟩ := Option.bind_eq_some_iff.mp haction
    cases haction
    have hmade : u = s.made := by
      rw [← hu, perform, settled_snd, ht, made, Scene.making, ha]
    cases reply with
    | ok reply => exact .copying source result _ _ hmade hconverts hfresh rfl
    | error e =>
      rw [hmade]
      exact .failed _ (whole_made hs).stands fun _ => (whole_made hs).cleared
  | copying source result archived token ht hconverts htoken harchived =>
    rw [Task.action?, htask] at haction
    obtain ⟨a, ha, haction⟩ := Option.bind_eq_some_iff.mp haction
    cases haction
    rw [ht, perform] at hperform
    rw [ht, perform, settled_snd] at hu
    rcases copy_made hs htoken harchived hread hfile with
      ⟨hnone, hsame⟩ | ⟨c, hcopy, hnone, hc, hwhole, hkeeps⟩
    · cases reply with
      | ok reply => exact absurd (settled_ok (congrArg Prod.fst hperform)) hnone
      | error e =>
        rw [← hu, hsame]
        exact .failed _ (whole_made hs).stands fun _ => (whole_made hs).cleared
    · rw [hcopy, settled, Prod.mk.injEq] at hperform
      obtain ⟨rfl, rfl⟩ := hperform
      exact .recording source result a ha _ c rfl hconverts hwhole hnone hc rfl hkeeps
  | recording source result a ha entry =>
    rw [Task.action?, htask, ha] at haction
    cases haction
    cases reply with
    | ok reply => exact h.recorded hs hread hp hfresh ha hperform
    | error e => exact hfails e rfl (by simp) (by simp) (by simp)
  | checking r hr hwhole hkept =>
    cases haction
    cases reply with
    | ok reply =>
      obtain rfl : t = u := congrArg Prod.snd hperform
      exact .writing r hr hwhole hkept
    | error e => exact hfails e rfl (by simp) (by simp) (by simp)
  | writing r =>
    cases haction
    cases reply with
    | ok reply => exact h.written_temporary hs hperform
    | error e => exact hfails e rfl (by simp) (by simp) (by simp)
  | moving r =>
    cases haction
    cases reply with
    | ok reply => exact h.moved hs hread hfile hperform
    | error e => exact hfails e rfl (by simp) (by simp) (by simp)
  | cleaning r e hr hstands hleft =>
    cases haction
    obtain ⟨token, htoken, htemporary⟩ := hr.temporary
    rw [htemporary] at hleft
    have hwhole := hstands.remove hs htoken hleft
    rw [htemporary, perform, settled_snd] at hu
    rw [hu] at hwhole
    cases reply with
    | ok reply | error e' => exact .failed _ hwhole.stands fun _ => hwhole.cleared
  | failed | unwritten | written => cases haction

/-- **Whether an action fails or not**, it hands on what is known. -/
theorem acts (hp : s.Prepared) (htask : task.options.archive = s.archive)
    (h : s.Halfway task place old calm w.tree stage) (haction : task.action? stage = some action)
    (hfresh : s.Fresh supply.token)
    (hcalm : calm → ∀ r e, stage = .cleaning r e → w.faults.head?.join = none) :
    s.Halfway task place old calm (w.perform s.directory action).2.tree
      (task.advance stage (w.perform s.directory action).1 supply) := by
  cases hfault : w.faults.head?.join with
  | none =>
    -- nothing comes from outside
    rw [World.perform, hfault]
    exact h.performs hs hread hfile hp htask haction rfl hfresh
  | some f =>
    have hperform : w.perform s.directory action = (.error f.error,
        { w with faults := w.faults.drop 1, tree := w.afterFault s.directory action f }) := by
      rw [World.perform, hfault]
    rw [hperform]
    dsimp only
    have hclean : calm → ∀ r e, stage ≠ .cleaning r e := by
      intro hc r e hstage
      rw [hcalm hc r e hstage] at hfault
      cases hfault
    unfold World.afterFault
    split
    · -- the temporary file may have been written in part
      rename_i path bytes more hleftover
      obtain ⟨r, rfl⟩ := writing_of_write haction
      cases haction
      cases h with
      | writing _ hr hwhole =>
        obtain ⟨token, htoken, htemporary⟩ := hr.temporary
        rw [htemporary]
        rcases hwhole.write hs htoken fun _ => more with
          ⟨_, hsame⟩ | ⟨q, hmodify, _, _, hbut, hstands, hleads⟩
        · rw [hsame]
          exact .cleaning r _ hr hwhole.stands (.inl hwhole.cleared)
        · rw [hmodify]
          exact .cleaning r _ hr hstands (.inr ⟨q, _, hbut, htemporary ▸ hleads⟩)
    · exact h.stays hs haction _ hclean

end

/-- **The file has the bytes that it had**, or all of those that it is converted to. -/
theorem reads (hs : s.Separate) (hread : s.Reads i place old) (hfile : s.files[i]? = some task.file)
    (h : s.Halfway task place old calm t stage) :
    t.read s.directory task.file = .ok old ∨
      ∃ result, Converts task old (task.options.encoding.decode old) result ∧
        t.read s.directory task.file = .ok (task.options.encoding.encode result.text) := by
  have hstays : s.Stands (fun _ => False) t → t.read s.directory task.file = .ok old :=
    fun hstands => read_eq_ok_iff.mpr
      ⟨place, hstands.locate_file hs (fun hnot => hnot) hread hfile⟩
  cases h with
  | reading h | making _ _ h => exact .inl (hstays (h ▸ (whole_initial hs).stands))
  | copying _ _ _ _ h => exact .inl (hstays (h ▸ (whole_made hs).stands))
  | recording _ _ _ _ _ _ _ _ hwhole | checking _ _ hwhole | writing _ _ hwhole =>
    exact .inl (hstays hwhole.stands)
  | moving _ _ _ hstands | cleaning _ _ _ hstands | failed _ hstands =>
    exact .inl (hstays hstands)
  | unwritten _ _ h => exact .inl (hstays (h ▸ (whole_initial hs).stands))
  | written r x hconverts hleads =>
    obtain ⟨hsource, hresult⟩ := hconverts
    rw [hsource] at hresult
    exact .inr ⟨r.result, ⟨rfl, hresult⟩, read_eq_ok_iff.mpr ⟨x, hleads⟩⟩

theorem reads_of_error (hs : s.Separate) (hread : s.Reads i place old)
    (hfile : s.files[i]? = some task.file) {e : TaskError}
    (h : s.Halfway task place old calm t (.finished (.error e))) :
    t.read s.directory task.file = .ok old := by
  cases h with
  | failed _ hstands =>
    exact read_eq_ok_iff.mpr ⟨place, hstands.locate_file hs (fun hnot => hnot) hread hfile⟩

theorem cleared_of_finished (hs : s.Separate) (hcalm : calm)
    {outcome : Except TaskError FileOutcome}
    (h : s.Halfway task place old calm t (.finished outcome)) : s.Cleared t := by
  generalize hstage : Stage.finished outcome = stage at h
  cases h with
  | failed _ _ hcleared => exact hcleared hcalm
  | unwritten _ _ h =>
    rw [h]
    exact (whole_initial hs).cleared
  | written _ _ _ _ hcleared => exact hcleared
  | _ => cases hstage

theorem tree_of_unwritten {o : FileOutcome}
    (h : s.Halfway task place old calm t (.finished (.ok o)))
    (hnot : o.written = false) : t = s.initial.tree := by
  generalize hstage : Stage.finished (.ok o) = stage at h
  cases h with
  | unwritten _ _ h => exact h
  | written r =>
    cases hstage
    cases hnot
  | _ => cases hstage

end Halfway

theorem finished_of_rank {stage : Stage}
    (h : (∃ outcome, stage = .finished outcome) ∨ Task.longest ≤ rank stage) :
    ∃ outcome, stage = .finished outcome := by
  rcases h with h | h
  · exact h
  · have hlongest : Task.longest = 8 := rfl
    rw [hlongest] at h
    unfold rank at h
    split at h <;> first | exact ⟨_, rfl⟩ | omega

end Scene

/-- A file that is converted by itself, after so many actions. -/
def Task.after (task : Task) (p : Premises) (w : World) (n : Nat) : Stage × World :=
  (task.procedure.run p.host n .reading).run w

namespace Scene

variable {s : Scene} {task : Task} {i : Nat} {place : Place} {old : Bytes}

theorem after_succ (p : Premises) (w : World) (n : Nat) : task.after p w (n + 1) =
    (task.procedure.step p.host (task.after p w n).1).run (task.after p w n).2 :=
  run_succ p n .reading w

theorem live_after (p : Premises) (w : World) (n : Nat) : Live task (task.after p w n).1 := by
  induction n with
  | zero => exact .inr ⟨_, rfl⟩
  | succ n ih =>
    rw [after_succ]
    generalize task.after p w n = reached at ih ⊢
    obtain ⟨stage, w⟩ := reached
    rcases ih with ⟨outcome, rfl⟩ | ⟨action, haction⟩
    · exact .inl ⟨outcome, rfl⟩
    · rw [step_acts task.procedure p haction]
      exact live_advance haction ..

theorem halfway_after (hs : s.Separate) (hp : s.Prepared) (htask : task.options.archive = s.archive)
    (hread : s.Reads i place old) (hfile : s.files[i]? = some task.file) {calm : Prop}
    (hcalm : calm → ∀ n r e w, task.after s.premises s.initial n = (.cleaning r e, w) →
      w.faults.head?.join = none) (n : Nat) (hstop : s.initial.supplied + n ≤ s.stop) :
    s.Halfway task place old calm (task.after s.premises s.initial n).2.tree
        (task.after s.premises s.initial n).1 ∧
      s.initial.supplied ≤ (task.after s.premises s.initial n).2.supplied ∧
      (task.after s.premises s.initial n).2.supplied ≤ s.initial.supplied + n ∧
      ((∃ outcome, (task.after s.premises s.initial n).1 = .finished outcome) ∨
        n ≤ rank (task.after s.premises s.initial n).1) := by
  induction n with
  | zero => exact ⟨.reading rfl, Nat.le_refl _, Nat.le_refl _, .inr (Nat.zero_le _)⟩
  | succ n ih =>
    obtain ⟨hbefore, hle, hge, hends⟩ := ih (by omega)
    have hcalm := fun hc r e hstage => hcalm hc n r e (task.after s.premises s.initial n).2
      (Prod.ext hstage rfl)
    have hlive : Live task (task.after s.premises s.initial n).1 := live_after ..
    rw [after_succ]
    generalize task.after s.premises s.initial n = reached at hbefore hle hge hends hcalm hlive ⊢
    obtain ⟨stage, w⟩ := reached
    dsimp only at hbefore hle hge hends hcalm hlive ⊢
    rcases hlive with ⟨outcome, rfl⟩ | ⟨action, haction⟩
    · -- it stays where it is
      rw [step_finished]
      exact ⟨hbefore, hle, Nat.le_succ_of_le hge, .inl ⟨outcome, rfl⟩⟩
    · have hfresh : s.Fresh (s.supply w.supplied).token := ⟨w.supplied, hle, by omega, rfl⟩
      have hnext := hbefore.acts hs hread hfile hp htask haction hfresh hcalm
      rw [step_acts task.procedure s.premises haction]
      refine ⟨hnext, Nat.le_succ_of_le hle, Nat.succ_le_succ hge, .inr ?_⟩
      rcases hends with ⟨outcome, rfl⟩ | hrun
      · cases haction
      · exact Nat.lt_of_le_of_lt hrun (rank_advance haction _ _)

end Scene

end Posonly
