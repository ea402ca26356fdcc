import Posonly.Proofs.Files.Alike

/-!
# Directories that are made

Making directories adds some to a tree and takes nothing away. What a path led to before, it leads
to afterwards (`locate_grown`). Trees that are alike get the same directories (`makeAlong_alike`),
and making them a second time changes nothing and fails for the same cause, if it does
(`makeAlong_twice`).
-/

namespace Posonly.FileTree

variable {t t' : FileTree} {place q : Place} {clean : Text → Prop} {loose : Place → Prop}
  {name : Text} {node : FileNode} {bytes : Bytes}

/-! ## Trees that have grown -/

/-- What stands in one tree still stands in another, and nothing in this one is a new link. -/
structure Grown (t t' : FileTree) : Prop where
  steady : t.Steady t'
  noLinks : ∀ q target, t'.get? q = some (.link target) → t.get? q = some (.link target)

theorem Grown.refl (t : FileTree) : Grown t t := ⟨.refl t, fun _ _ h => h⟩

theorem Grown.trans {t'' : FileTree} (h : Grown t t') (h' : Grown t' t'') : Grown t t'' where
  steady :=
    { file := fun hfile => by
        obtain ⟨_, hfile'⟩ := h.steady.file hfile
        exact h'.steady.file hfile'
      other := fun hnode hother => h'.steady.other (h.steady.other hnode hother) hother }
  noLinks q target hlink := h.noLinks q target (h'.noLinks q target hlink)

theorem grown_put_file (hopen : t.Open q) : Grown t (t.put q (.file bytes)) where
  steady :=
    { file := fun {p _} hfile => by
        rw [get?_put hopen.ne_nil]
        split
        · exact ⟨_, rfl⟩
        · exact ⟨_, hfile⟩
      other := fun {p node} hnode hother => by
        rw [get?_put hopen.ne_nil, if_neg]
        · exact hnode
        · rintro rfl
          rcases hopen with hnone | ⟨old, hold⟩
          · rw [hnone] at hnode
            cases hnode
          · rw [hold] at hnode
            exact hother old (Option.some.inj hnode).symm }
  noLinks p target hlink := by
    rw [get?_put hopen.ne_nil] at hlink
    split at hlink
    · cases hlink
    · exact hlink

section

variable {followLast : Bool} {links : Nat} {cs : List Text} (h : Grown t t')

include h

theorem Grown.directory (hnode : t.get? q = some node) :
    t'.get? q = some .directory ↔ t.get? q = some .directory := by
  refine ⟨fun hdir => ?_, fun hdir => h.steady.other hdir (by simp)⟩
  cases node with
  | file bytes =>
    obtain ⟨_, hfile⟩ := h.steady.file hnode
    cases hdir.symm.trans hfile
  | directory => exact hnode
  | link target => cases hdir.symm.trans (h.steady.other hnode (by simp))

theorem Grown.none (hnone : t'.get? q = none) : t.get? q = none := by
  cases hnode : t.get? q with
  | none => rfl
  | some node =>
    cases node with
    | file bytes =>
      obtain ⟨_, hfile⟩ := h.steady.file hnode
      cases hnone.symm.trans hfile
    | directory | link _ => cases hnone.symm.trans (h.steady.other hnode (by simp))

theorem walk_grown (hfound : t.walk followLast place cs ≠ .error .noEntry) :
    t'.walk followLast place cs = (t.walk followLast place cs).map (Walk.on t') := by
  induction cs generalizing place with
  | nil => rfl
  | cons name rest ih =>
    obtain ⟨node, hnode⟩ := Option.ne_none_iff_exists'.mp fun hnone : t.get? place = none =>
      hfound (by rw [walk_closed (by simp [hnone]), if_pos hnone])
    refine walk_cons_rel (R := fun r r' => r' = r.map (Walk.on t')) (fun _ => rfl)
      (h.directory hnode) ⟨h.none, fun hnone => ?_⟩ (fun hdir hname _ => ⟨fun hrest => ?_, ?_⟩)
      fun next hwalk _ => ih (hwalk ▸ hfound)
    · cases hnone.symm.trans hnode
    · exact ⟨h.none, fun hnone => absurd (walk_missing hdir hname hnone hrest) hfound⟩
    · exact fun target => ⟨h.noLinks _ target, fun hlink => h.steady.other hlink (by simp)⟩

theorem follow_grown (hfound : t.follow followLast links place cs ≠ .error .noEntry) :
    t'.follow followLast links place cs =
      (t.follow followLast links place cs).map (Spot.on t') := by
  refine follow_rel (R := fun r r' => r' = r.map (Spot.on t'))
    (fun links place cs => t.follow followLast links place cs ≠ .error .noEntry) (fun _ => rfl)
    (fun _ _ _ hfound => .inl (walk_grown h fun heq => hfound (follow_error heq)))
    (fun _ _ _ q ds hfound hsent => ?_) hfound
  rwa [follow_sentOn hsent, if_neg (by omega)] at hfound

theorem LinksTo.grown {x : Place} (hlinks : t.LinksTo x q) : t'.LinksTo x q := by
  obtain ⟨target, links, bytes, hlink, hfile⟩ := hlinks
  obtain ⟨bytes', hfile'⟩ := h.steady.file (get?_of_follow hfile)
  refine ⟨target, links, bytes', h.steady.other hlink (by simp), ?_⟩
  rw [follow_grown h (by rw [hfile]; simp), hfile, ← hfile']
  rfl

theorem locate_grown {directory path : Text}
    (hfound : t.locate directory path followLast ≠ .error .noEntry) :
    t'.locate directory path followLast =
      (t.locate directory path followLast).map (Spot.on t') := by
  rcases locate_cases directory path with ⟨cause, hfails⟩ | ⟨start, cs, hfollows⟩
  · rw [hfails, hfails]
    rfl
  · rw [hfollows] at hfound
    rw [hfollows, hfollows]
    exact follow_grown h hfound

omit h in
/-- A file that is put where a path leads is found there. -/
theorem locate_put {directory path : Text} {node : Option FileNode} (hopen : t.Open q)
    (hlocate : t.locate directory path followLast = .ok ⟨q, node⟩) :
    (t.put q (.file bytes)).locate directory path followLast = .ok ⟨q, some (.file bytes)⟩ := by
  rw [locate_grown (grown_put_file hopen) (by rw [hlocate]; simp), hlocate, Except.map, Spot.on,
    get?_put hopen.ne_nil, if_pos rfl]

theorem Grown.enters (henters : Enters t place name q) : Enters t' place name q := by
  cases henters with
  | directory hdir => exact .directory (h.steady.other hdir (by simp))
  | link target q hlink hfound =>
    refine .link target q (h.steady.other hlink (by simp)) ?_
    rw [follow_grown h (by rw [hfound]; simp), hfound]
    dsimp only [Except.map, Spot.on]
    rw [h.steady.other (get?_of_follow hfound) (by simp)]

end

/-! ## Making directories -/

section

variable {names : List Text} {cause : Option FileCause}

theorem makeAlong_made (place : Place) (t : FileTree) (name : Text) (rest : List Text) :
    ((t.put (place ++ [name]) .directory).makeAlong (place ++ [name]) rest).2.get?
      (place ++ [name]) = some .directory :=
  makeAlong_directory (by rw [get?_put (by simp), if_pos rfl])

/-- **What making directories can do**: it adds some where nothing was. -/
theorem makeAlong_adds (t : FileTree) (place : Place) (names : List Text) (q : Place) :
    (t.makeAlong place names).2.get? q = t.get? q ∨
      t.get? q = none ∧ (t.makeAlong place names).2.get? q = some .directory := by
  induction names generalizing t place with
  | nil => exact .inl rfl
  | cons name rest ih =>
    rcases makeAlong_cases t place name rest with
      ⟨cause, hstuck⟩ | ⟨hshort, ⟨hnone, hmade⟩ | ⟨p, henters⟩⟩
    · rw [hstuck]
      exact .inl rfl
    · rw [hmade]
      by_cases hq : q = place ++ [name]
      · subst hq
        exact .inr ⟨hnone, makeAlong_made place t name rest⟩
      · have hmore := ih (t.put (place ++ [name]) .directory) (place ++ [name])
        rwa [get?_put (by simp), if_neg hq] at hmore
    · rw [makeAlong_enters hshort henters]
      exact ih t p

theorem makeAlong_ne {rest : List Text}
    (hnone : t.get? (place ++ [name]) = none) :
    (cause, t) ≠ (t.put (place ++ [name]) .directory).makeAlong (place ++ [name]) rest := by
  intro heq
  have hmade := makeAlong_made place t name rest
  rw [← heq, hnone] at hmade
  cases hmade

theorem makeAlong_keeps (h : t.get? q = some node) :
    (t.makeAlong place names).2.get? q = some node := by
  rcases makeAlong_adds t place names q with hsame | ⟨hnone, _⟩
  · exact hsame.trans h
  · rw [h] at hnone
    cases hnone

theorem grown_makeAlong (t : FileTree) (place : Place) (names : List Text) :
    Grown t (t.makeAlong place names).2 where
  steady :=
    { file := fun h => ⟨_, makeAlong_keeps h⟩
      other := fun h _ => makeAlong_keeps h }
  noLinks q target hlink := by
    rcases makeAlong_adds t place names q with hsame | ⟨_, hdir⟩
    · exact hsame.symm.trans hlink
    · rw [hlink] at hdir
      cases hdir

/-- **Making directories again** changes nothing and fails for the same cause, if it does. -/
theorem makeAlong_twice {t₁ : FileTree}
    (h : t.makeAlong place names = (cause, t₁)) : t₁.makeAlong place names = (cause, t₁) := by
  induction names generalizing t place with
  | nil =>
    cases h
    rfl
  | cons name rest ih =>
    have hgrown := grown_makeAlong t place (name :: rest)
    rw [h] at hgrown
    rcases makeAlong_cases t place name rest with ⟨_, hstuck⟩ | ⟨hshort, ⟨_, hmade⟩ | ⟨p, henters⟩⟩
    · obtain rfl : t = t₁ := congrArg Prod.snd (hstuck.symm.trans h)
      exact h
    · -- what has been made is there the second time
      rw [hmade] at h
      have hdir := makeAlong_made place t name rest
      rw [h] at hdir
      rw [makeAlong_enters hshort (.directory hdir)]
      exact ih h
    · rw [makeAlong_enters hshort henters] at h
      rw [makeAlong_enters hshort (hgrown.enters henters)]
      exact ih h

theorem makeAlong_grown (hgrown : Grown t t') (h : t.makeAlong place names = (none, t)) :
    t'.makeAlong place names = (none, t') := by
  induction names generalizing place with
  | nil => rfl
  | cons name rest ih =>
    rcases makeAlong_cases t place name rest with
      ⟨_, hstuck⟩ | ⟨hshort, ⟨hnone, hmade⟩ | ⟨p, henters⟩⟩
    · cases hstuck.symm.trans h
    · exact absurd (h.symm.trans hmade) (makeAlong_ne hnone)
    · rw [makeAlong_enters hshort henters] at h
      rw [makeAlong_enters hshort (hgrown.enters henters)]
      exact ih h

theorem follow_enters {ds : List Text} (followLast : Bool) (hds : ds ≠ [])
    (hplace : t.get? place = some .directory) (hname : Downward name) (h : Enters t place name q)
    (links : Nat) :
    t.follow followLast links place (name :: ds) = .error .tooManyLinks ∨
      ∃ k, t.follow followLast links place (name :: ds) = t.follow followLast k q ds := by
  have hfound : t.follow true linkLimit place [name] = .ok ⟨q, some .directory⟩ := by
    cases h with
    | directory hdir => rw [follow_arrived (walk_last hplace hname (by simp [hdir])), hdir]
    | link _ _ _ hfound => exact hfound
  exact follow_through followLast hds hfound (by simp) links

/-- **Below directories that have been made** a name that no link has leads somewhere, or it is too
long, or too many links are on the way. -/
theorem follow_made {links : Nat} {x : Text} {followLast : Bool} (hx : Path.IsName x)
    (hlink : ∀ p target, t.get? (p ++ [x]) ≠ some (.link target))
    (hnames : ∀ n ∈ names, Path.IsName n)
    (hplace : t.get? place = some .directory) (h : t.makeAlong place names = (none, t)) :
    t.follow followLast links place (names ++ [x]) ≠ .error .noEntry := by
  induction names generalizing place links with
  | nil =>
    rw [List.nil_append]
    by_cases hlong : longestName < pathBytes x
    · rw [follow_error
        (walk_long hplace (by simp [hx.nonempty, hx.notDot]) (by simp [hx.notUp]) hlong)]
      simp
    · have hdown := Downward.of_isName hx (Nat.not_lt.mp hlong)
      rw [follow_arrived (walk_last hplace hdown fun _ => hlink place)]
      simp
  | cons name rest ih =>
    have hrest : ∀ n ∈ rest, Path.IsName n := fun n hn => hnames n (.tail _ hn)
    rcases makeAlong_cases t place name rest with
      ⟨_, hstuck⟩ | ⟨hshort, ⟨hnone, hmade⟩ | ⟨p, henters⟩⟩
    · cases hstuck.symm.trans h
    · exact absurd (h.symm.trans hmade) (makeAlong_ne hnone)
    · rw [makeAlong_enters hshort henters] at h
      have hmore : ∀ links, t.follow followLast links p (rest ++ [x]) ≠ .error .noEntry :=
        fun _ => ih hrest henters.get? h
      have hdown := Downward.of_isName (hnames name (by simp)) hshort
      have hds : rest ++ [x] ≠ [] := by simp
      rcases follow_enters followLast hds hplace hdown henters links with hmany | ⟨k, hsame⟩
      · exact fun heq => by cases hmany.symm.trans heq
      · exact fun heq => hmore k (hsame.symm.trans heq)

/-- Directories that are made lie in directories. -/
theorem nested_makeAlong (ht : t.Nested) (hplace : t.get? place = some .directory) :
    (t.makeAlong place names).2.Nested := by
  induction names generalizing t place with
  | nil => exact ht
  | cons name rest ih =>
    rcases makeAlong_cases t place name rest with
      ⟨_, hstuck⟩ | ⟨hshort, ⟨hnone, hmade⟩ | ⟨p, henters⟩⟩
    · rwa [hstuck]
    · rw [hmade]
      refine ih (fun p n hdir => ?_) (by rw [get?_put (by simp), if_pos rfl])
      rw [get?_put (by simp)] at hdir ⊢
      split
      · rfl
      · split at hdir
        · rename_i heq
          rwa [(List.append_inj' heq rfl).1]
        · exact ht p n hdir
    · rw [makeAlong_enters hshort henters]
      exact ih ht henters.get?

/-- **Making directories** adds the same ones to trees that are alike, or fails in both for the same
cause, unless it fails over too many links and one of the links has been replaced. -/
theorem makeAlong_alike (halike : Alike clean loose t t')
    (hloose : ∀ x, loose x → ∃ q, t.LinksTo x q) (hdir : t.get? place = some .directory)
    (hplace : ∀ n ∈ place, clean n) (hnames : ∀ n ∈ names, Path.IsName n ∧ clean n) :
    (t'.makeAlong place names).1 = (t.makeAlong place names).1 ∧
        Alike clean loose (t.makeAlong place names).2 (t'.makeAlong place names).2 ∨
      (∃ x, loose x) ∧ (t.makeAlong place names).1 = some .tooManyLinks := by
  induction names generalizing t t' place with
  | nil => exact .inl ⟨rfl, halike⟩
  | cons name rest ih =>
    obtain ⟨hname, hclean⟩ := hnames name (by simp)
    have hq := forall_mem_concat hplace hclean
    have hrest : ∀ n ∈ rest, Path.IsName n ∧ clean n := fun n hn => hnames n (.tail _ hn)
    rw [makeAlong, makeAlong.eq_def t]
    dsimp only
    by_cases hlong : longestName < pathBytes name
    · rw [if_pos hlong, if_pos hlong]
      exact .inl ⟨rfl, halike⟩
    rw [if_neg hlong, if_neg hlong]
    cases hnode : t.get? (place ++ [name]) with
    | none =>
      rw [(halike.none hq).mpr hnode]
      have hput :
          (t.put (place ++ [name]) .directory).get? (place ++ [name]) = some .directory := by
        rw [get?_put (by simp), if_pos rfl]
      have hgrown : Grown t (t.put (place ++ [name]) .directory) := by
        have hgrown := grown_makeAlong t place [name]
        rwa [makeAlong, if_neg hlong, hnode] at hgrown
      refine ih (halike.put hq (by simp) rfl (by simp)) (fun x hx => ?_) hput hq hrest
      obtain ⟨q, hlinks⟩ := hloose x hx
      exact ⟨q, hlinks.grown hgrown⟩
    | some node =>
      cases node with
      | directory =>
        rw [(halike.directory hq).mpr hnode]
        exact ih halike hloose hnode hq hrest
      | file bytes =>
        obtain ⟨bytes', hfile⟩ := halike.file hq hnode
        rw [hfile]
        exact .inl ⟨rfl, halike⟩
      | link target =>
        by_cases hreplaced : Replaced loose t t' (place ++ [name])
        · -- a file is in the way in one tree, and a link to a file in the other
          obtain ⟨bytes', hfile'⟩ := hreplaced.file
          obtain ⟨q, hlinks⟩ := hloose _ hreplaced.loose
          have hdown := Downward.of_isName hname (Nat.not_lt.mp hlong)
          rw [hfile']
          dsimp only
          rcases hlinks.follow hdir hdown linkLimit with hmany | ⟨bytes, hfile⟩
          · rw [hmany]
            exact .inr ⟨⟨_, hreplaced.loose⟩, rfl⟩
          · rw [hfile]
            exact .inl ⟨rfl, halike⟩
        · rw [(halike.link hq hreplaced).mpr hnode]
          dsimp only
          have hnone : ∀ n ∈ [name].dropLast, clean n := by simp
          rcases follow_alike true halike hloose linkLimit hplace hnone with
            hsame | ⟨x, hx, hmany | ⟨_, hfile', _, _, _, hfile⟩⟩
          · rw [hsame]
            cases hfound : t.follow true linkLimit place [name] with
            | error cause => cases cause <;> exact .inl ⟨rfl, halike⟩
            | ok spot =>
              -- a link leads to a clean place, where the other tree has something alike
              have hspot := follow_clean halike.links hplace (by simpa using hclean) hfound
              obtain ⟨found, node⟩ := spot
              have hon := get?_of_follow hfound
              dsimp only [Except.map, Spot.on]
              cases node with
              | none =>
                rw [(halike.none hspot).mpr hon]
                exact .inl ⟨rfl, halike⟩
              | some node =>
                cases node with
                | directory =>
                  rw [(halike.directory hspot).mpr hon]
                  exact ih halike hloose hon hspot hrest
                | file bytes =>
                  obtain ⟨bytes', hfile⟩ := halike.file hspot hon
                  rw [hfile]
                  exact .inl ⟨rfl, halike⟩
                | link target =>
                  rcases halike.shape found hspot with hshape | ⟨_, _, _, hfile⟩
                  · rw [shape?_eq_link.mp (hshape ▸ shape?_eq_link.mpr hon)]
                    exact .inl ⟨rfl, halike⟩
                  · rw [hfile]
                    exact .inl ⟨rfl, halike⟩
          · rw [hmany]
            exact .inr ⟨⟨x, hx.loose⟩, rfl⟩
          · obtain ⟨bytes', hbytes⟩ := hx.file
            rw [hfile, hfile', hbytes]
            exact .inl ⟨rfl, halike⟩

end

end Posonly.FileTree
