import Posonly.Files.Memory
import Posonly.Proofs.Archive.Names

/-!
# What discovery finds

Discovery only looks at the files (`Looks`), and every path it finds is that of a source, in the
shortest form that its spelling has (`findSources_looks`).
-/

open List

namespace Posonly

variable {α β : Type} {l : SourceList}

/-- An action on the host in memory that changes nothing there, and of whose result something is
known. -/
def Looks (w : World) (x : ExceptT FileError (StateM World) α) (Q : α → Prop) : Prop :=
  ∃ result, StateT.run x.run w = (result, w) ∧ ∀ a, result = .ok a → Q a

namespace Looks

variable {w : World} {x : ExceptT FileError (StateM World) α} {P : α → Prop} {Q : β → Prop}

theorem pure {a : α} (h : P a) : Looks w (pure a) P := by
  refine ⟨.ok a, rfl, fun b hb => ?_⟩
  cases hb
  exact h

theorem throw (e : FileError) : Looks w (throw e) P := ⟨.error e, rfl, fun _ h => by cases h⟩

theorem bind {f : α → ExceptT FileError (StateM World) β} (hx : Looks w x P)
    (hf : ∀ a, P a → Looks w (f a) Q) : Looks w (x >>= f) Q := by
  obtain ⟨result, hrun, hresult⟩ := hx
  unfold Looks
  rw [ExceptT.run_bind, StateT.run_bind, hrun]
  cases result with
  | error e => exact ⟨.error e, rfl, fun b hb => by cases hb⟩
  | ok a => exact hf a (hresult a rfl)

theorem imp {Q : α → Prop} (hx : Looks w x P) (h : ∀ a, P a → Q a) : Looks w x Q := by
  obtain ⟨result, hrun, hresult⟩ := hx
  exact ⟨result, hrun, fun a ha => h a (hresult a ha)⟩

/-- **A fold keeps what its steps keep** of the elements that it has come past. -/
theorem foldlM {f : β → α → ExceptT FileError (StateM World) β} {Q : List α → β → Prop}
    {as : List α} {init : β} (hinit : Q [] init)
    (hstep : ∀ done a found, a ∈ as → Q done found → Looks w (f found a) (Q (done ++ [a]))) :
    Looks w (as.foldlM f init) (Q as) := by
  have hfold : ∀ rest done found, (∀ a ∈ rest, a ∈ as) → Q done found →
      Looks w (rest.foldlM f found) (Q (done ++ rest)) := by
    intro rest
    induction rest with
    | nil =>
      intro done found _ hfound
      rw [append_nil]
      exact pure hfound
    | cons a rest ih =>
      intro done found hmem hfound
      rw [foldlM_cons, append_cons]
      refine (hstep done a found (hmem a (by simp)) hfound).bind fun next hnext => ?_
      exact ih (done ++ [a]) next (fun b hb => hmem b (mem_cons_of_mem a hb)) hnext
  exact hfold as [] init (fun _ h => h) hinit

end Looks

/-- The path of a source, in its shortest form. -/
structure Searched (file : Text) : Prop where
  source : isSource file
  normal : ∃ path, file = Path.normalize path

theorem Path.join_normal (p q : Text) : ∃ path, Path.join p q = Path.normalize path := by
  unfold Path.join
  split
  · exact ⟨q, rfl⟩
  · split
    · exact ⟨p, rfl⟩
    · exact ⟨_, rfl⟩

namespace Text

variable {texts : List Text}

theorem mem_insertSorted {t s : Text} :
    s ∈ insertSorted t texts ↔ s = t ∨ s ∈ texts := by
  fun_induction insertSorted t texts with
  | case1 => simp
  | case2 u rest heq =>
    obtain rfl := beq_iff_eq.mp heq
    simp
  | case3 => simp
  | case4 u rest _ _ ih => rw [mem_cons, ih, mem_cons, or_left_comm]

theorem ne_of_precedes {s t : Text} (h : t.precedes s) : t ≠ s := by
  rintro rfl
  induction t with
  | nil => cases h
  | cons u t ih => exact ih (by simpa [precedes] using h)

theorem precedes_trans {r s t : Text} (hrs : r.precedes s) (hst : s.precedes t) : r.precedes t := by
  induction r generalizing s t with
  | nil =>
    cases t with
    | nil => simp [precedes] at hst
    | cons v t => rfl
  | cons u r ih =>
    cases s with
    | nil => simp [precedes] at hrs
    | cons v s =>
      cases t with
      | nil => simp [precedes] at hst
      | cons x t =>
        simp only [precedes, Bool.or_eq_true, Bool.and_eq_true,
          decide_eq_true_eq, beq_iff_eq] at hrs hst ⊢
        rcases hrs with hlt | ⟨rfl, hrs⟩
        · rcases hst with hlt' | ⟨rfl, _⟩
          · exact .inl (UInt16.lt_trans hlt hlt')
          · exact .inl hlt
        · exact hst.imp_right fun h => ⟨h.1, ih hrs h.2⟩

/-- Of two different texts, one precedes the other. -/
theorem precedes_or {s t : Text} (hne : t ≠ s) : t.precedes s ∨ s.precedes t := by
  induction t generalizing s with
  | nil =>
    cases s with
    | nil => exact absurd rfl hne
    | cons v s => exact .inl rfl
  | cons u t ih =>
    cases s with
    | nil => exact .inr rfl
    | cons v s =>
      simp only [precedes, Bool.or_eq_true, Bool.and_eq_true, decide_eq_true_eq, beq_iff_eq]
      rcases Nat.lt_trichotomy u.toNat v.toNat with hlt | heq | hlt
      · exact .inl (.inl hlt)
      · obtain rfl := UInt16.toNat_inj.mp heq
        exact (ih fun heq => hne (by rw [heq])).imp (fun h => .inr ⟨rfl, h⟩) fun h => .inr ⟨rfl, h⟩
      · exact .inr (.inl hlt)

/-- **Texts in order stay in order** when one is put in. -/
theorem insertSorted_pairwise {t : Text}
    (h : texts.Pairwise fun r s => r.precedes s) :
    (insertSorted t texts).Pairwise fun r s => r.precedes s := by
  fun_induction insertSorted t texts with
  | case1 => exact pairwise_singleton ..
  | case2 => exact h
  | case3 u rest _ hbefore =>
    obtain ⟨hu, _⟩ := pairwise_cons.mp h
    refine pairwise_cons.mpr ⟨forall_mem_cons.mpr ⟨hbefore, fun s hs => ?_⟩, h⟩
    exact precedes_trans hbefore (hu s hs)
  | case4 u rest hne hnot ih =>
    obtain ⟨hu, hrest⟩ := pairwise_cons.mp h
    refine pairwise_cons.mpr ⟨fun s hs => ?_, ih hrest⟩
    rcases mem_insertSorted.mp hs with rfl | hs
    · exact (precedes_or fun heq => hne (beq_iff_eq.mpr heq)).resolve_left hnot
    · exact hu s hs

end Text

theorem SourceList.mem_add {files : List Text} {file : Text} :
    file ∈ (l.add files).files ↔ file ∈ files ∨ file ∈ l.files := by
  unfold SourceList.add
  dsimp only
  generalize l.files = found
  induction files generalizing found with
  | nil => simp
  | cons f files ih =>
    rw [foldl_cons, ih, Text.mem_insertSorted, mem_cons, or_left_comm, or_assoc]

theorem SourceList.add_pairwise (files : List Text)
    (h : l.files.Pairwise fun r s => r.precedes s) :
    (l.add files).files.Pairwise fun r s => r.precedes s := by
  unfold SourceList.add
  dsimp only
  generalize l.files = found at h ⊢
  induction files generalizing found with
  | nil => exact h
  | cons f files ih => exact ih _ (Text.insertSorted_pairwise h)

variable (p : Premises)

variable (w : World)

/-- What is found below a directory is the name of a source, in its shortest form. -/
theorem sourcesBelow_looks (depth : Nat) (directory : Text) :
    Looks w (sourcesBelow p.host depth directory) fun found => ∀ file ∈ found, Searched file := by
  induction depth generalizing directory with
  | zero => exact .pure fun _ h => by cases h
  | succ depth ih =>
    rw [sourcesBelow]
    have hlist : Looks w (ExceptT.mk (p.host.list directory)) fun _ => True :=
      ⟨_, rfl, fun _ _ => trivial⟩
    refine hlist.bind fun entries _ =>
      .foldlM (Q := fun _ found => ∀ file ∈ found, Searched file) (fun _ h => by cases h) ?_
    intro done entry found _ hfound
    obtain ⟨name, kind⟩ := entry
    cases kind with
    | link => exact .pure hfound
    | directory =>
      refine (ih (Path.join directory name)).bind fun below hbelow => .pure fun file hfile => ?_
      exact (mem_append.mp hfile).elim (hfound file) (hbelow file)
    | file =>
      refine .pure fun file hfile => ?_
      split at hfile
      · rename_i hsource
        rcases mem_append.mp hfile with hfile | hfile
        · exact hfound file hfile
        · rw [mem_singleton.mp hfile]
          exact ⟨hsource, Path.join_normal directory name⟩
      · exact hfound file hfile

theorem addPath_looks (hl : ∀ file ∈ l.files, Searched file) (path : Text) :
    Looks w (l.addPath p.host path) fun l => ∀ file ∈ l.files, Searched file := by
  unfold SourceList.addPath
  have hkind : Looks w (ExceptT.lift (p.host.kind path)) fun _ => True :=
    ⟨_, rfl, fun _ _ => trivial⟩
  refine hkind.bind fun kind _ => ?_
  cases kind with
  | error e =>
    dsimp only
    split
    · exact .pure hl
    · exact .throw e
  | ok kind =>
    have hgiven : Looks w (Pure.pure (if isSource path then l.add [Path.normalize path] else l))
        fun l => ∀ file ∈ l.files, Searched file := by
      refine .pure fun file hfile => ?_
      split at hfile
      · rename_i hsource
        rcases SourceList.mem_add.mp hfile with hfile | hfile
        · rw [mem_singleton.mp hfile]
          exact ⟨isSource_normalize hsource, path, rfl⟩
        · exact hl file hfile
      · exact hl file hfile
    cases kind with
    | directory =>
      refine (sourcesBelow_looks p w pathLimit path).bind fun below hbelow =>
        .pure fun file hfile => ?_
      exact (SourceList.mem_add.mp hfile).elim (hbelow file) (hl file)
    | file | link => exact hgiven

theorem findSources_looks (paths : List Text) :
    Looks w (ExceptT.mk (findSources p.host paths)) fun l => ∀ file ∈ l.files, Searched file :=
  .foldlM (Q := fun _ (l : SourceList) => ∀ file ∈ l.files, Searched file) (fun _ h => by cases h)
    fun _ path _ _ hl => addPath_looks p w hl path

end Posonly
