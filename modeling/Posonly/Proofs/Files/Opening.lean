import Posonly.Proofs.Files.Lasting

/-!
# Directories that are made hold no files

Where a directory had to be made, nothing was before, and so nothing is below it but further
directories that were made with it. A path that led nowhere before some directories were made may
lead to one of them now, or to where something can be put, but it leads to no file
(`makeAlong_file`).
-/

open List

namespace Posonly.FileTree

variable {t : FileTree} {place q : Place} {cs names : List Text}
  {followLast : Bool} {links more : Nat} {bytes : Bytes} {x : Text}

theorem follow_not_both {spot : Spot} (h : t.follow followLast links place cs = .error .noEntry)
    (h' : t.follow followLast more place cs = .ok spot) : False := by
  rcases follow_any h' links with hmany | hsame
  · cases hmany.symm.trans h
  · cases hsame.symm.trans h

theorem follow_below (hnames : ∀ n ∈ cs, Path.IsName n)
    (hlinks : ∀ r target, t.get? (place ++ r) ≠ some (.link target)) {found : Option FileNode}
    (h : t.follow followLast links place cs = .ok ⟨q, found⟩) : q = place ++ cs := by
  have hdown : ∀ walk, t.walk followLast place cs = .ok walk →
      walk = .arrived ⟨place ++ cs, t.get? (place ++ cs)⟩ := by
    clear h
    intro walk hwalk
    induction cs generalizing place with
    | nil =>
      rw [FileTree.walk, Except.ok.injEq] at hwalk
      rw [append_nil]
      exact hwalk.symm
    | cons name rest ih =>
      have hname := hnames name (by simp)
      obtain ⟨_, ⟨next, hpasses, hrest⟩ | ⟨_, rfl, _, harrived⟩ | ⟨target, _, hlink, _, _⟩⟩ :=
        walk_cons_cases hwalk
      · cases hpasses with
        | blank hblank => exact absurd hblank (by simp [hname.nonempty, hname.notDot])
        | up _ hup => exact absurd hup (by simp [hname.notUp])
        | down _ hdir =>
          have hmore := ih (fun n hn => hnames n (.tail _ hn))
            (fun r target => by rw [append_assoc]; exact hlinks _ target) hrest
          rwa [append_assoc, singleton_append] at hmore
      · exact harrived
      · exact absurd hlink (hlinks [name] target)
  rcases follow_cases h with hwalk | ⟨_, _, _, _, hwalk, _⟩
  · have harrived := hdown _ hwalk
    rw [Walk.arrived.injEq, Spot.mk.injEq] at harrived
    exact harrived.1
  · cases hdown _ hwalk

theorem WellFormed.nothing_below (ht : t.WellFormed) (hnone : t.get? q = none) (r : List Text) :
    t.get? (q ++ r) = none := by
  cases hnode : t.get? (q ++ r) with
  | none => rfl
  | some node =>
    by_cases hr : r = []
    · rw [hr, append_nil, hnone] at hnode
      cases hnode
    · rw [ht.directory_above hnode (prefix_append q r) (by simpa using hr)] at hnone
      cases hnone

/-- **Making directories brings no files**: names that led nowhere lead to none. -/
theorem makeAlong_file (ht : t.WellFormed) (hplace : t.get? place = some .directory)
    (hnames : ∀ n ∈ names, Path.IsName n) (hx : Path.IsName x)
    (hnone : t.follow followLast links place (names ++ [x]) = .error .noEntry) :
    (t.makeAlong place names).2.follow followLast more place (names ++ [x]) ≠
      .ok ⟨q, some (.file bytes)⟩ := by
  intro hfile
  induction names generalizing place links more with
  | nil => exact follow_not_both hnone hfile
  | cons name rest ih =>
    have hrest : ∀ n ∈ rest, Path.IsName n := fun n hn => hnames n (.tail _ hn)
    have hds : rest ++ [x] ≠ [] := by simp
    have hgrown := grown_makeAlong t place (name :: rest)
    have hplace' := hgrown.steady.other hplace (by simp)
    rcases makeAlong_cases t place name rest with ⟨_, hstuck⟩ | ⟨hshort, hmakes⟩
    · rw [hstuck] at hfile
      exact follow_not_both hnone hfile
    have hdown := Downward.of_isName (hnames name (by simp)) hshort
    rcases hmakes with ⟨hmissing, hmade⟩ | ⟨p, henters⟩
    · -- the file would stand below what has been made
      have hadds := makeAlong_adds t place (name :: rest) q
      have hdir := makeAlong_made place t name rest
      rw [get?_of_follow hfile] at hadds
      rw [← hmade] at hdir
      rcases follow_enters followLast hds hplace' hdown (.directory hdir) more with
        hmany | ⟨k, hsame⟩
      · cases hmany.symm.trans hfile
      · have hq := follow_below (forall_mem_concat hrest hx) (fun r target hlink => ?_)
          (hsame.symm.trans hfile)
        · rcases hadds with hsame | ⟨_, hdir⟩
          · rw [hq, ht.nothing_below hmissing] at hsame
            cases hsame
          · cases hdir
        · have hbefore := hgrown.noLinks _ target hlink
          rw [ht.nothing_below hmissing] at hbefore
          cases hbefore
    · -- in both trees the others are followed from the directory that is there
      rcases follow_enters followLast hds hplace hdown henters links with hmany | ⟨k, hsame⟩
      · cases hmany.symm.trans hnone
      rcases follow_enters followLast hds hplace' hdown (hgrown.enters henters) more with
        hmany | ⟨k', hsame'⟩
      · cases hmany.symm.trans hfile
      · have hlast := hsame'.symm.trans hfile
        rw [makeAlong_enters hshort henters] at hlast
        exact ih henters.get? hrest (hsame.symm.trans hnone) hlast

end Posonly.FileTree
