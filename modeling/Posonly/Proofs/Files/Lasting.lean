import Posonly.Proofs.Files.Growth

/-!
# Lookups while links are replaced

A file that is moved over a link takes the place of the link. What else led through this link then
leads elsewhere, but such a path led to the file behind the link before. So as long as the
directories of a tree stay, and of its links all but some that lead to files, a path that leads to
any other file goes on leading there (`locate_lasting`).
-/

open List

namespace Posonly.FileTree

variable {t t' : FileTree} {place q x : Place} {cs ds : List Text} {followLast : Bool} {links : Nat}
  {node : FileNode} {target : Text} {directory path : Text} {bytes : Bytes} {gone : Place → Prop}

/-- The directories of a tree are those of another, and so are its links but for some. -/
structure Lasts (gone : Place → Prop) (t t' : FileTree) : Prop where
  directory {q : Place} : t.get? q = some .directory → t'.get? q = some .directory
  link {q : Place} {target : Text} : t.get? q = some (.link target) →
    t'.get? q = some (.link target) ∨ gone q

/-! ## How many links are allowed -/

theorem follow_unique {more : Nat} {spot spot' : Spot}
    (h : t.follow followLast links place cs = .ok spot)
    (h' : t.follow followLast more place cs = .ok spot') : spot = spot' := by
  rcases follow_any h more with hmany | hsame
  · cases hmany.symm.trans h'
  · exact Except.ok.inj (hsame.symm.trans h')

theorem LinksTo.eq (h : t.LinksTo x q) (h' : t.LinksTo x place) : q = place := by
  obtain ⟨target, _, _, hlink, hfile⟩ := h
  obtain ⟨target', _, _, hlink', hfile'⟩ := h'
  obtain rfl : target = target' := by
    rwa [hlink, Option.some.injEq, FileNode.link.injEq] at hlink'
  exact congrArg Spot.place (follow_unique hfile hfile')

/-- **Names behind a link that leads to a file** lead to this file, and there are none. -/
theorem LinksTo.unique (h : t.LinksTo x q) (hlink : t.get? x = some (.link target))
    (hfollow : t.follow followLast links (linkStart x target) (Path.components target ++ ds) =
      .ok ⟨place, some node⟩) (hends : followLast = true ∨ ds ≠ []) :
    followLast = true ∧ place = q := by
  obtain ⟨target', links', bytes, hlink', hfile⟩ := h
  obtain rfl : target' = target := by
    rwa [hlink', Option.some.injEq, FileNode.link.injEq] at hlink
  by_cases hds : ds = []
  · rw [hds, append_nil] at hfollow
    have htrue : followLast = true := hends.resolve_right (not_not_intro hds)
    rw [htrue] at hfollow
    exact ⟨htrue, congrArg Spot.place (follow_unique hfollow hfile)⟩
  · -- the link would lead to a directory
    obtain ⟨p, _, _, _, hdirectory, _⟩ := follow_append hds hfollow
    have hsame := congrArg Spot.node (follow_unique hfile (hdirectory links (Nat.le_refl _)))
    cases hsame

/-! ## Lookups in a tree that lasts -/

section

-- in the other tree a link at the end may be followed even if it was not before
variable {gone : Place → Prop} {followLast' : Bool} (h : Lasts gone t t')
  (hmore : followLast = true → followLast' = true)

include h hmore

omit hmore in
theorem walk_arrived_lasting (hwalk : t.walk followLast place cs = .ok (.arrived ⟨q, some node⟩))
    (hend : followLast' = true → ∀ target, t'.get? q ≠ some (.link target)) :
    t'.walk followLast' place cs = .ok (.arrived ⟨q, t'.get? q⟩) := by
  induction cs generalizing place with
  | nil =>
    rw [FileTree.walk, Except.ok.injEq, Walk.arrived.injEq, Spot.mk.injEq] at hwalk
    rw [FileTree.walk, hwalk.1]
  | cons name rest ih =>
    obtain ⟨hdir, ⟨next, hpasses, hrest⟩ | ⟨hname, rfl, _, harrived⟩ | ⟨_, _, _, _, hsent⟩⟩ :=
      walk_cons_cases hwalk
    · rw [(hpasses.mono h.directory).walk (h.directory hdir)]
      exact ih hrest
    · rw [Walk.arrived.injEq, Spot.mk.injEq] at harrived
      rw [harrived.1] at hend ⊢
      exact walk_last (h.directory hdir) hname hend
    · cases hsent

/-- A link sends the search on in the other tree, too, unless it is gone there. -/
theorem walk_sentOn_lasting (hwalk : t.walk followLast place cs = .ok (.sentOn q ds)) :
    t'.walk followLast' place cs = .ok (.sentOn q ds) ∨
      ∃ x target rest, gone x ∧ t.get? x = some (.link target) ∧ q = linkStart x target ∧
        ds = Path.components target ++ rest ∧ (followLast = true ∨ rest ≠ []) := by
  induction cs generalizing place with
  | nil => cases hwalk
  | cons name rest ih =>
    obtain ⟨hdir,
      ⟨next, hpasses, hrest⟩ | ⟨_, _, _, harrived⟩ | ⟨target, hname, hlink, hends, hsent⟩⟩ :=
      walk_cons_cases hwalk
    · rw [(hpasses.mono h.directory).walk (h.directory hdir)]
      exact ih hrest
    · cases harrived
    · cases hsent
      rcases h.link hlink with hlink' | hgone
      · exact .inl (walk_link (h.directory hdir) hname hlink' (hends.imp_right hmore))
      · refine .inr ⟨_, target, rest, hgone, hlink, ?_, rfl, hends.symm⟩
        rw [linkStart, dropLast_concat]

section

variable (hgone : ∀ x, gone x → ∃ r, t.LinksTo x r ∧ (followLast = true → r ≠ q))

include hgone

/-- **Names go on leading where they led**, if no link that is gone leads to the same file. -/
theorem follow_lasting (hfollow : t.follow followLast links place cs = .ok ⟨q, some node⟩)
    (hend : followLast' = true → ∀ target, t'.get? q ≠ some (.link target)) :
    t'.follow followLast' links place cs = .ok ⟨q, t'.get? q⟩ := by
  induction links using Nat.strongRecOn generalizing place cs with
  | _ links ih =>
    rcases follow_cases hfollow with hwalk | ⟨n, p, ds, rfl, hwalk, hrest⟩
    · exact follow_arrived (walk_arrived_lasting h hwalk hend)
    · rcases walk_sentOn_lasting h hmore hwalk with
        hwalk' | ⟨x, target, rest, hx, hlink, rfl, rfl, hends⟩
      · rw [follow_sentOn hwalk', if_neg (by omega)]
        exact ih n (by omega) hrest
      · -- what led through the link led to its file, but that is another one
        obtain ⟨r, hto, hother⟩ := hgone x hx
        obtain ⟨hfollows, heq⟩ := hto.unique hlink hrest hends
        exact absurd heq.symm (hother hfollows)

theorem locate_lasting
    (hlocate : t.locate directory path followLast = .ok ⟨q, some node⟩)
    (hend : followLast' = true → ∀ target, t'.get? q ≠ some (.link target)) :
    t'.locate directory path followLast' = .ok ⟨q, t'.get? q⟩ := by
  rcases locate_cases directory path with ⟨cause, hfails⟩ | ⟨start, cs, hfollows⟩
  · rw [hfails] at hlocate
    cases hlocate
  · rw [hfollows] at hlocate ⊢
    exact follow_lasting h hmore hgone hlocate hend

end

end

theorem Steady.lasts (h : t.Steady t') : Lasts gone t t' :=
  ⟨fun hdir => h.other hdir (by simp), fun hlink => .inl (h.other hlink (by simp))⟩

/-- **A path that leads to a file** goes on leading there as long as all that stands in the tree
stays. -/
theorem locate_steady {followLast' : Bool} (h : t.Steady t')
    (hmore : followLast = true → followLast' = true)
    (hlocate : t.locate directory path followLast = .ok ⟨q, some (.file bytes)⟩) :
    t'.locate directory path followLast' = .ok ⟨q, t'.get? q⟩ := by
  obtain ⟨_, hfile⟩ := h.file (get?_of_locate hlocate)
  exact locate_lasting h.lasts hmore (fun _ => False.elim) hlocate (by simp [hfile])

/-! ## The last link -/

/-- If the last link is not to be followed, names lead as far as if it were, or up to a link. -/
theorem walk_unfollowed {walk : Walk} (hwalk : t.walk true place cs = .ok walk) :
    t.walk false place cs = .ok walk ∨ ∃ x target, t.get? x = some (.link target) ∧
      walk = .sentOn (linkStart x target) (Path.components target) ∧
      t.walk false place cs = .ok (.arrived ⟨x, some (.link target)⟩) := by
  induction cs generalizing place with
  | nil => exact .inl hwalk
  | cons name rest ih =>
    obtain ⟨hdir, ⟨next, hpasses, hrest⟩ | ⟨hname, rfl, _, rfl⟩ | ⟨target, hname, hlink, _, rfl⟩⟩ :=
      walk_cons_cases hwalk
    · rw [hpasses.walk hdir]
      exact ih hrest
    · exact .inl (walk_last hdir hname (by simp))
    · by_cases hnil : rest = []
      · subst hnil
        refine .inr ⟨_, target, hlink, ?_, ?_⟩
        · rw [linkStart, dropLast_concat, append_nil]
        · rw [walk_last hdir hname (by simp), hlink]
      · exact .inl (walk_link hdir hname hlink (.inl hnil))

theorem follow_unfollowed
    (hfollow : t.follow true links place cs = .ok ⟨q, some (.file bytes)⟩) :
    t.follow false links place cs = .ok ⟨q, some (.file bytes)⟩ ∨
      ∃ x target, t.follow false links place cs = .ok ⟨x, some (.link target)⟩ ∧ t.LinksTo x q := by
  induction links using Nat.strongRecOn generalizing place cs with
  | _ links ih =>
    rcases follow_cases hfollow with hwalk | ⟨n, p, ds, rfl, hwalk, hrest⟩
    · rcases walk_unfollowed hwalk with hsame | ⟨x, target, _, hsent, _⟩
      · exact .inl (follow_arrived hsame)
      · cases hsent
    · rcases walk_unfollowed hwalk with hsame | ⟨x, target, hlink, hsent, harrived⟩
      · rw [follow_sentOn hsame, if_neg (by omega)]
        exact ih n (by omega) hrest
      · cases hsent
        exact .inr ⟨x, target, follow_arrived harrived, target, n, bytes, hlink, hrest⟩

/-- **A path that leads to a file** leads there without its last link, or to a link to the file. -/
theorem locate_unfollowed
    (hlocate : t.locate directory path true = .ok ⟨q, some (.file bytes)⟩) :
    t.locate directory path false = .ok ⟨q, some (.file bytes)⟩ ∨
      ∃ x target, t.locate directory path false = .ok ⟨x, some (.link target)⟩ ∧ t.LinksTo x q := by
  rcases locate_cases directory path with ⟨cause, hfails⟩ | ⟨start, cs, hfollows⟩
  · rw [hfails] at hlocate
    cases hlocate
  · rw [hfollows] at hlocate ⊢
    exact follow_unfollowed hlocate

/-! ## Directories -/

theorem Lasts.put_directory (h : Lasts gone t t') (hne : q ≠ [])
    (hdir : t'.get? q = some .directory) : Lasts gone (t.put q .directory) t' := by
  refine ⟨fun {p} hp => ?_, fun {p target} hp => ?_⟩
  · rw [get?_put hne] at hp
    split at hp
    · rename_i heq
      rwa [heq]
    · exact h.directory hp
  · rw [get?_put hne] at hp
    split at hp
    · cases hp
    · exact h.link hp

/-- **Directories are made where they are to be made**: a tree with no directories but some that are
there when all have been made gets no others. -/
theorem makeAlong_within {names : List Text} {cause : Option FileCause} {u : FileTree}
    (hmade : u.makeAlong place names = (cause, u)) (h : Lasts (fun _ => False) t u)
    (hpresent : ∀ q, t.get? q = none → u.get? q = none ∨ u.get? q = some .directory) :
    Lasts (fun _ => False) (t.makeAlong place names).2 u := by
  induction names generalizing t place with
  | nil => exact h
  | cons name rest ih =>
    rcases makeAlong_cases t place name rest with
      ⟨_, hstuck⟩ | ⟨hshort, ⟨hnone, hmakes⟩ | ⟨p, henters⟩⟩
    · rwa [hstuck]
    · have hdir : u.get? (place ++ [name]) = some .directory := by
        rcases hpresent _ hnone with hnone | hdir
        · -- it would have been made
          rw [makeAlong, if_neg (Nat.not_lt.mpr hshort), hnone] at hmade
          exact absurd hmade.symm (makeAlong_ne hnone)
        · exact hdir
      rw [makeAlong_enters hshort (.directory hdir)] at hmade
      rw [hmakes]
      refine ih hmade (h.put_directory (by simp) hdir) fun q hq => ?_
      rw [get?_put (by simp)] at hq
      split at hq
      · cases hq
      · exact hpresent q hq
    · have henters' : Enters u place name p := by
        cases henters with
        | directory hdir => exact .directory (h.directory hdir)
        | link target p hlink hfound =>
          -- the link is in both trees, so both go on at the directory that it leads to
          have hdir : u.get? p = some .directory := h.directory (get?_of_follow hfound)
          refine .link target p ((h.link hlink).resolve_right id) ?_
          rw [follow_lasting h id (fun _ => False.elim) hfound (by simp [hdir]), hdir]
      rw [makeAlong_enters hshort henters'] at hmade
      rw [makeAlong_enters hshort henters]
      exact ih hmade h hpresent

end Posonly.FileTree
