import Mathlib.Data.List.Induction
import Mathlib.Data.List.TakeWhile
import Posonly.Path
import Posonly.Proofs.Text.Split

/-!
# What paths spell

An absolute path without dots spells the names that lead to a place, and is had back from them
(`simplify_absolute`). A path without needless components leads up before it leads down
(`descending_normalize`), so that every name in it is one of the place it spells (`mem_target`).
-/

open List Posonly.Text

namespace Posonly.Path

/-- A component that names something. -/
structure IsName (n : Text) : Prop where
  nonempty : n ≠ []
  notDot : n ≠ [dot]
  notUp : n ≠ up
  noSlash : slash ∉ n

instance (n : Text) : Decidable (IsName n) :=
  decidable_of_iff (n ≠ [] ∧ n ≠ [dot] ∧ n ≠ up ∧ slash ∉ n)
    ⟨fun ⟨h₁, h₂, h₃, h₄⟩ => ⟨h₁, h₂, h₃, h₄⟩, fun h => ⟨h.1, h.2, h.3, h.4⟩⟩

/-- The absolute path that some names make. -/
def absolute (names : List Text) : Text := slash :: ofComponents names

/-- The names that a path spells if it starts at a base, dots followed. -/
def target (base p : Text) : List Text :=
  simplify false (if isAbsolute p then p else base ++ [slash] ++ p)

theorem resolve_eq (base p : Text) : resolve base p = absolute (target base p) := rfl

/-! ## Components -/

variable {b : Bool} {n p : Text} {cs s : List Text} {q : Text} {c : Text}

theorem components_append (p q : Text) :
    components (p ++ slash :: q) = components p ++ components q :=
  splitOn_append_cons slash p q

theorem components_slash (q : Text) : components (slash :: q) = [] :: components q :=
  components_append [] q

theorem components_ofComponents (h : ∀ c ∈ cs, slash ∉ c) (hne : cs ≠ []) :
    components (ofComponents cs) = cs :=
  splitOn_joined h hne

theorem isAbsolute_absolute (cs : List Text) : isAbsolute (absolute cs) = true := rfl

theorem components_absolute (h : ∀ c ∈ cs, slash ∉ c) (hne : cs ≠ []) :
    components (absolute cs) = [] :: cs := by
  rw [absolute, components_slash, components_ofComponents h hne]

theorem ofComponents_components (p : Text) : ofComponents (components p) = p :=
  joined_splitOn slash p

theorem ofComponents_concat (cs : List Text) (n : Text) :
    ofComponents (cs ++ [n]) = if cs = [] then n else ofComponents cs ++ slash :: n := by
  induction cs with
  | nil => rfl
  | cons c cs ih =>
    cases cs with
    | nil => simp [ofComponents, Text.joined]
    | cons d cs =>
      have hcons : ∀ e es, ofComponents (c :: e :: es) = c ++ [slash] ++ ofComponents (e :: es) :=
        fun _ _ => rfl
      rw [cons_append, cons_append, hcons, ← cons_append, ih, hcons,
        if_neg (by simp), if_neg (by simp)]
      simp

/-! ## Following dots -/

theorem push_name (h : IsName n) : push b s n = n :: s := by
  rw [push.eq_def, if_neg (by simp [h.nonempty, h.notDot]), if_neg (by simp [h.notUp])]

theorem push_blank (h : n = [] ∨ n = [dot]) : push b s n = s := by
  rw [push.eq_def, if_pos (by simpa using h)]

theorem foldl_push_names (h : ∀ n ∈ cs, IsName n) : cs.foldl (push b) s = cs.reverse ++ s := by
  induction cs generalizing s with
  | nil => rfl
  | cons n cs ih =>
    rw [foldl_cons, push_name (h n (by simp)), ih fun m hm => h m (.tail _ hm)]
    simp

theorem component_cases (hslash : slash ∉ n) : n = up ∨ IsName n ∨ n = [] ∨ n = [dot] := by
  by_cases hup : n = up
  · exact .inl hup
  · by_cases hblank : n = [] ∨ n = [dot]
    · exact .inr (.inr hblank)
    · rw [not_or] at hblank
      exact .inr (.inl ⟨hblank.1, hblank.2, hup, hslash⟩)

/-- Components that lead up before they lead down. -/
def Descending (cs : List Text) : Prop := cs.Pairwise fun c d => d = up → c = up

/-- What is on the stack while dots are followed: the last name first, two dots below all names. -/
structure Stacked (b : Bool) (s : List Text) : Prop where
  names : ∀ n ∈ s, IsName n ∨ (n = up ∧ b = true)
  descending : s.Pairwise fun d c => d = up → c = up

theorem Stacked.nil : Stacked b [] := ⟨by simp, List.Pairwise.nil⟩

theorem Stacked.push (h : Stacked b s) (hslash : slash ∉ n) : Stacked b (push b s n) := by
  rcases component_cases hslash with rfl | hname | hblank
  · rw [push.eq_def, if_neg (by decide), if_pos (by decide)]
    cases s with
    | nil =>
      cases b with
      | false => exact .nil
      | true => exact ⟨by simp, pairwise_singleton ..⟩
    | cons last rest =>
      obtain ⟨hbelow, hrest⟩ := pairwise_cons.mp h.descending
      dsimp only
      split
      · -- two dots stay where two dots stand already
        rename_i hlast
        rw [beq_iff_eq] at hlast
        subst hlast
        refine ⟨fun m hm => ?_, pairwise_cons.mpr ⟨fun m hm _ => ?_, h.descending⟩⟩
        · rcases mem_cons.mp hm with rfl | hm
          · exact h.names up (by simp)
          · exact h.names m hm
        · rcases mem_cons.mp hm with rfl | hm
          · rfl
          · exact hbelow m hm rfl
      · exact ⟨fun m hm => h.names m (.tail _ hm), hrest⟩
  · rw [push_name hname]
    refine ⟨fun m hm => ?_, pairwise_cons.mpr ⟨fun m _ hup => absurd hup hname.notUp, h.descending⟩⟩
    rcases mem_cons.mp hm with rfl | hm
    · exact .inl hname
    · exact h.names m hm
  · rwa [push_blank hblank]

theorem Stacked.foldl (h : Stacked b s) (hslash : ∀ c ∈ cs, slash ∉ c) :
    Stacked b (cs.foldl (Path.push b) s) := by
  induction cs generalizing s with
  | nil => exact h
  | cons c cs ih =>
    exact ih (h.push (hslash c (by simp))) fun d hd => hslash d (.tail _ hd)

theorem slash_notMem_component (h : c ∈ components p) : slash ∉ c :=
  notMem_of_mem_splitOn h

theorem Stacked.component (h : Stacked b s) (hn : n ∈ s) : n ≠ [] ∧ slash ∉ n := by
  rcases h.names n hn with hname | ⟨rfl, _⟩
  · exact ⟨hname.nonempty, hname.noSlash⟩
  · decide

/-- **What is left of a path** is names and, if it may lead up, two dots ahead of them. -/
theorem stacked_simplify (b : Bool) (p : Text) : Stacked b (simplify b p).reverse := by
  rw [simplify, reverse_reverse]
  exact Stacked.nil.foldl fun c hc => slash_notMem_component hc

theorem isName_of_mem_simplify (h : n ∈ simplify false p) : IsName n := by
  rcases (stacked_simplify false p).names n (mem_reverse.mpr h) with hname | ⟨_, hb⟩
  · exact hname
  · cases hb

theorem descending_simplify (b : Bool) (p : Text) : Descending (simplify b p) := by
  have h := (stacked_simplify b p).descending
  rwa [pairwise_reverse] at h

theorem component_of_mem_simplify (h : n ∈ simplify b p) : n ≠ [] ∧ slash ∉ n :=
  (stacked_simplify b p).component (mem_reverse.mpr h)

theorem simplify_absolute (h : ∀ n ∈ cs, IsName n) : simplify b (absolute cs) = cs := by
  rw [simplify, absolute, components_slash, foldl_cons, push_blank (.inl rfl)]
  by_cases hne : cs = []
  · rw [hne]
    rfl
  · rw [components_ofComponents (fun c hc => (h c hc).noSlash) hne, foldl_push_names h]
    simp

theorem absolute_injective {ds : List Text} (hcs : ∀ n ∈ cs, IsName n) (hds : ∀ n ∈ ds, IsName n)
    (h : absolute cs = absolute ds) : cs = ds := by
  rw [← simplify_absolute (b := false) hcs, h, simplify_absolute hds]

/-- Following a component brings nothing onto the stack but itself and two dots. -/
theorem mem_push (h : n ∈ push b s c) : n = up ∨ n = c ∨ n ∈ s := by
  unfold push at h
  cases s <;> grind

theorem mem_foldl_push (h : n ∈ cs.foldl (push b) s) : n = up ∨ n ∈ cs ∨ n ∈ s := by
  induction cs generalizing s with
  | nil => exact .inr (.inr h)
  | cons c cs ih =>
    rcases ih h with hup | hcs | hs
    · exact .inl hup
    · exact .inr (.inl (.tail _ hcs))
    · rcases mem_push hs with hup | rfl | hs
      · exact .inl hup
      · exact .inr (.inl (by simp))
      · exact .inr (.inr hs)

theorem mem_simplify (h : n ∈ simplify b p) : n = up ∨ n ∈ components p := by
  rcases mem_foldl_push (mem_reverse.mp h) with hup | hcs | hnil
  · exact .inl hup
  · exact .inr hcs
  · cases hnil

/-! ## The place that a path spells -/

theorem target_eq (base p : Text) : target base p = ((components p).foldl (push false)
      (if isAbsolute p then [] else simplify false base).reverse).reverse := by
  unfold target
  split
  · rfl
  · rw [simplify, append_assoc, singleton_append, components_append, foldl_append,
      simplify, reverse_reverse]

theorem isName_of_mem_target {base : Text} (h : n ∈ target base p) : IsName n :=
  isName_of_mem_simplify h

theorem suffix_foldl_push (hslash : ∀ c ∈ cs, slash ∉ c) (hup : up ∉ cs) :
    s <:+ cs.foldl (push b) s := by
  induction cs generalizing s with
  | nil => exact suffix_refl s
  | cons c cs ih =>
    rw [mem_cons, not_or] at hup
    have hrest := ih (s := push b s c) (fun d hd => hslash d (.tail _ hd)) hup.2
    rcases component_cases (hslash c (by simp)) with rfl | hname | hblank
    · exact absurd rfl hup.1
    · rw [push_name hname] at hrest
      rw [foldl_cons, push_name hname]
      exact (suffix_cons c s).trans hrest
    · rw [push_blank hblank] at hrest
      rwa [foldl_cons, push_blank hblank]

theorem Descending.up_notMem (h : Descending (c :: cs)) (hc : c ≠ up) : up ∉ cs :=
  fun hmem => hc ((pairwise_cons.mp h).1 up hmem rfl)

theorem Descending.tail (h : Descending (c :: cs)) : Descending cs :=
  (pairwise_cons.mp h).2

theorem mem_foldl_push_of_descending (hslash : ∀ c ∈ cs, slash ∉ c) (hdesc : Descending cs)
    (hn : IsName n) (h : n ∈ cs) : n ∈ cs.foldl (push b) s := by
  induction cs generalizing s with
  | nil => cases h
  | cons c cs ih =>
    have hslash' : ∀ d ∈ cs, slash ∉ d := fun d hd => hslash d (.tail _ hd)
    rcases mem_cons.mp h with rfl | h
    · -- no two dots come behind a name, so it stays on the stack
      rw [foldl_cons, push_name hn]
      exact (suffix_foldl_push hslash' (hdesc.up_notMem hn.notUp)).subset (by simp)
    · exact ih hslash' hdesc.tail h

/-- **A path that leads up first spells every name in it.** -/
theorem mem_target {base : Text} (hdesc : Descending (components p)) (hn : IsName n)
    (h : n ∈ components p) : n ∈ target base p := by
  rw [target_eq, mem_reverse]
  exact mem_foldl_push_of_descending (fun c hc => slash_notMem_component hc) hdesc hn h

/-! ## Paths without needless components -/

theorem ofComponents_ne_nil (h : ∀ c ∈ cs, c ≠ []) (hne : cs ≠ []) : ofComponents cs ≠ [] := by
  intro hnil
  have hsplit : cs = [[]] ∨ ∃ c d es, cs = c :: d :: es := by
    rcases cs with _ | ⟨c, _ | ⟨d, es⟩⟩
    · exact absurd rfl hne
    · exact .inl (by rw [← hnil]; rfl)
    · exact .inr ⟨c, d, es, rfl⟩
  rcases hsplit with rfl | ⟨c, d, es, rfl⟩
  · exact h [] (by simp) rfl
  · simp [ofComponents, Text.joined] at hnil

theorem normalize_eq (hne : simplify (!isAbsolute p) p ≠ []) :
    normalize p = (if isAbsolute p then [slash] else []) ++
      ofComponents (simplify (!isAbsolute p) p) ++
        (if p.getLast? == some slash then [slash] else []) := by
  have hp : p.isEmpty = false := by
    cases p with
    | nil => exact absurd rfl hne
    | cons u p => rfl
  have hsimple := ofComponents_ne_nil (fun c hc => (component_of_mem_simplify hc).1) hne
  unfold normalize
  rw [if_neg (by simp [hp]), if_neg (by simpa using hsimple)]

theorem components_normalize (hne : simplify (!isAbsolute p) p ≠ []) :
    components (normalize p) = (if isAbsolute p then [[]] else []) ++
      simplify (!isAbsolute p) p ++ (if p.getLast? == some slash then [[]] else []) := by
  have hsimple := components_ofComponents
    (fun c hc => (component_of_mem_simplify (b := !isAbsolute p) hc).2) hne
  have htrail : components (ofComponents (simplify (!isAbsolute p) p) ++
      (if p.getLast? == some slash then [slash] else [])) =
      simplify (!isAbsolute p) p ++ (if p.getLast? == some slash then [[]] else []) := by
    split
    · rw [components_append, hsimple]
      rfl
    · rw [append_nil, append_nil, hsimple]
  rw [normalize_eq hne, append_assoc]
  split
  · rw [singleton_append, components_slash, htrail]
    rfl
  · rw [nil_append, htrail]
    rfl

theorem normalize_short (h : simplify (!isAbsolute p) p = []) :
    normalize p ∈ [[dot], [slash], [dot, slash]] := by
  unfold normalize
  rw [h]
  dsimp only
  split
  · simp
  · rw [if_pos (by rfl)]
    split_ifs <;> simp

/-- **A path without needless components leads up before it leads down.** -/
theorem descending_normalize (p : Text) : Descending (components (normalize p)) := by
  by_cases hne : simplify (!isAbsolute p) p = []
  · have hall : ∀ q ∈ [[dot], [slash], [dot, slash]], Descending (components q) := by
      unfold Descending
      decide
    exact hall _ (normalize_short hne)
  · rw [components_normalize hne]
    refine pairwise_append.mpr ⟨pairwise_append.mpr ⟨?_, descending_simplify .., ?_⟩, ?_, ?_⟩
    · split <;> simp
    · intro c hc d hd hup
      split at hc
      · rename_i habs
        rw [habs] at hd
        exact absurd hup (isName_of_mem_simplify hd).notUp
      · cases hc
    · split <;> simp
    · intro c _ d hd hup
      split at hd
      · rw [mem_singleton.mp hd] at hup
        cases hup
      · cases hd

/-! ## Names at the end of a path -/

theorem components_name (h : slash ∉ n) : components n = [n] := splitOn_of_notMem h

theorem simplify_append_name (hn : IsName n) :
    simplify b (p ++ slash :: n) = simplify b p ++ [n] := by
  rw [simplify, components_append, components_name hn.noSlash, foldl_append, foldl_cons,
    foldl_nil, push_name hn, reverse_cons, simplify]

theorem isAbsolute_append (hp : p ≠ []) : isAbsolute (p ++ q) = isAbsolute p := by
  cases p with
  | nil => exact absurd rfl hp
  | cons u p => rfl

theorem getLast?_append_name (hn : IsName n) :
    ((p ++ slash :: n).getLast? == some slash) = false := by
  obtain ⟨m, u, rfl⟩ : ∃ m u, n = m ++ [u] := ⟨_, _, (dropLast_append_getLast hn.nonempty).symm⟩
  have hu : u ≠ slash := fun h => hn.noSlash (by simp [h])
  rw [← cons_append, ← append_assoc, getLast?_concat]
  simpa using hu

theorem join_eq_normalize (hp : p ≠ []) (hq : q ≠ []) :
    join p q = normalize (p ++ slash :: q) := by
  rw [join, if_neg (by simpa using hp), if_neg (by simpa using hq)]
  simp

/-- **A name behind a path** is the last component of the two together. -/
theorem components_join (hp : p ≠ []) (hn : IsName n) : components (join p n) =
      (if isAbsolute p then [[]] else []) ++ simplify (!isAbsolute p) p ++ [n] := by
  rw [join_eq_normalize hp hn.nonempty, components_normalize, isAbsolute_append hp,
    simplify_append_name hn, getLast?_append_name hn]
  · simp
  · rw [simplify_append_name hn]
    simp

theorem join_absolute (hcs : ∀ c ∈ cs, IsName c) (hn : IsName n) :
    join (absolute cs) n = absolute (cs ++ [n]) := by
  have habs : isAbsolute (absolute cs ++ slash :: n) = true := rfl
  rw [join_eq_normalize (by simp [absolute]) hn.nonempty, normalize_eq, habs,
    simplify_append_name hn, simplify_absolute hcs, getLast?_append_name hn]
  · simp [absolute]
  · rw [simplify_append_name hn]
    simp

theorem paired_iff_components (p : Text) : p.Paired ↔ ∀ c ∈ components p, c.Paired := by
  conv_lhs => rw [← ofComponents_components p]
  exact paired_joined (by decide)

theorem paired_absolute : (absolute cs).Paired ↔ ∀ c ∈ cs, c.Paired := by
  rw [absolute, ← nil_append (slash :: _), paired_append_cons (by decide)]
  rw [ofComponents, paired_joined (by decide)]
  exact and_iff_right paired_nil

/-! ## What a path is left with -/

/-- The components that a path is left with. An empty one ahead of them says that it is absolute. -/
def front (p : Text) : List Text :=
  (if isAbsolute p then [[]] else []) ++ simplify (!isAbsolute p) p

theorem Stacked.foldl_reverse (h : Stacked b s) : s.reverse.foldl (Path.push b) [] = s := by
  induction s with
  | nil => rfl
  | cons c s ih =>
    obtain ⟨hbelow, hrest⟩ := pairwise_cons.mp h.descending
    rw [reverse_cons, foldl_append, ih ⟨fun n hn => h.names n (by simp [hn]), hrest⟩,
      foldl_cons, foldl_nil]
    rcases h.names c (by simp) with hname | ⟨rfl, rfl⟩
    · exact push_name hname
    · -- two dots stay on two dots, and below them there is nothing else
      rw [push.eq_def, if_neg (by decide), if_pos (by decide)]
      cases s with
      | nil => rfl
      | cons d s =>
        obtain rfl := hbelow d (by simp) rfl
        rfl

theorem foldl_push_blanks (h : ∀ c ∈ cs, c = [] ∨ c = [dot]) : cs.foldl (push b) s = s := by
  induction cs with
  | nil => rfl
  | cons c cs ih =>
    rw [foldl_cons, push_blank (h c (by simp))]
    exact ih fun d hd => h d (mem_cons_of_mem c hd)

/-- **A path without needless components is left with its own**, whatever blanks stand at its end.
-/
theorem front_of_components {blanks : List Text} (hcs : Stacked (!b) cs.reverse) (hne : cs ≠ [])
    (hblanks : ∀ c ∈ blanks, c = [] ∨ c = [dot])
    (h : components p = (if b then [[]] else []) ++ cs ++ blanks) :
    isAbsolute p = b ∧ simplify (!b) p = cs := by
  have hroot : (if b then [[]] else []).foldl (push (!b)) [] = [] :=
    foldl_push_blanks (by split <;> simp)
  refine ⟨?_, ?_⟩
  · obtain ⟨c, cs, rfl⟩ := exists_cons_of_ne_nil hne
    have hc : c ≠ [] := (hcs.component (by simp)).1
    cases b with
    | true =>
      rw [← ofComponents_components p, h]
      rfl
    | false =>
      cases p with
      | nil => rfl
      | cons u p =>
        rw [isAbsolute, head?_cons, beq_eq_false_iff_ne]
        intro hu
        rw [Option.some.inj hu, components_slash] at h
        exact hc (List.cons.inj h).1.symm
  · rw [simplify, h, foldl_append, foldl_append, hroot, foldl_push_blanks hblanks]
    have hstay := hcs.foldl_reverse
    rw [reverse_reverse] at hstay
    rw [hstay, reverse_reverse]

theorem join_front (hp : p ≠ []) (hn : IsName n) : isAbsolute (join p n) = isAbsolute p ∧
      simplify (!isAbsolute p) (join p n) = simplify (!isAbsolute p) p ++ [n] := by
  refine front_of_components ?_ (by simp) (fun _ h => absurd h not_mem_nil) ?_
  · have hstacked := stacked_simplify (!isAbsolute p) p
    rw [reverse_concat, ← push_name (b := !isAbsolute p) hn]
    exact hstacked.push hn.noSlash
  · rw [components_join hp hn, append_nil, append_assoc]

theorem front_join (hp : p ≠ []) (hn : IsName n) : front (join p n) = front p ++ [n] := by
  obtain ⟨habs, hsimple⟩ := join_front hp hn
  rw [front, habs, hsimple, front, append_assoc]

theorem components_join_front (hp : p ≠ []) (hn : IsName n) :
    components (join p n) = front (join p n) := by
  rw [front_join hp hn, components_join hp hn, front]

theorem components_normalize_front (p : Text) : isAbsolute (normalize p) = isAbsolute p ∧
    ∃ blanks, (∀ c ∈ blanks, c = [] ∨ c = [dot]) ∧
      components (normalize p) = front p ++ blanks := by
  by_cases hne : simplify (!isAbsolute p) p = []
  · unfold normalize front
    rw [hne]
    dsimp only
    split
    · rename_i hempty
      rw [List.isEmpty_iff.mp hempty]
      exact ⟨rfl, [[dot]], by decide, by decide⟩
    · rw [if_pos (by rfl)]
      cases isAbsolute p with
      | true => exact ⟨rfl, [[]], by decide, rfl⟩
      | false =>
        rw [if_neg (by simp)]
        split
        · exact ⟨rfl, [[dot], []], by decide, rfl⟩
        · exact ⟨rfl, [[dot]], by decide, rfl⟩
  · have hblanks : ∀ c ∈ (if p.getLast? == some slash then [[]] else []), c = [] ∨ c = [dot] := by
      split <;> simp
    exact ⟨(front_of_components (stacked_simplify _ p) hne hblanks (components_normalize hne)).1, _,
      hblanks, components_normalize hne⟩

theorem join_ne_nil (hp : p ≠ []) (hn : IsName n) : join p n ≠ [] := by
  intro hnil
  have hlast := congrArg List.getLast? (components_join hp hn)
  rw [hnil, getLast?_concat] at hlast
  exact hn.nonempty (Option.some.inj hlast).symm

/-- **Behind a name**, joining only puts one more component at the end. -/
theorem join_join {m : Text} (hp : p ≠ []) (hn : IsName n) (hm : IsName m) :
    join (join p n) m = join p n ++ slash :: m := by
  have hne := join_ne_nil hp hn
  rw [← ofComponents_components (join (join p n) m), ← ofComponents_components (_ ++ slash :: m),
    components_join_front hne hm, front_join hne hm, components_append, components_name hm.noSlash,
    components_join_front hp hn]

/-! ## Parts of a path -/

theorem eq_of_dropWhile {a u : UInt16} {t rest : Text}
    (h : t.dropWhile (· != a) = u :: rest) : u = a := by
  have hhead := head?_dropWhile_not (· != a) t
  rw [h] at hhead
  simpa using hhead

theorem basename_append_slash (p : Text) : basename (p ++ [slash]) = basename p := by
  rw [basename, reverse_concat, dropWhile_cons_of_pos (by simp), basename]

theorem dropWhile_slash_reverse (q : Text) (hne : n ≠ []) (hslash : slash ∉ n) :
    (q ++ n).reverse.dropWhile (· == slash) = n.reverse ++ q.reverse ∧
      ∀ v ∈ n.reverse, (v != slash) = true := by
  obtain ⟨m, u, rfl⟩ : ∃ m u, n = m ++ [u] := ⟨_, _, (dropLast_append_getLast hne).symm⟩
  have hall : ∀ v ∈ (m ++ [u]).reverse, (v != slash) = true := by
    intro v hv
    rw [mem_reverse] at hv
    exact bne_iff_ne.mpr fun h => hslash (h ▸ hv)
  have hu : (u == slash) = false := by simpa using hall u (by simp)
  refine ⟨?_, hall⟩
  rw [reverse_append, reverse_concat, cons_append, dropWhile_cons_of_neg (by simp [hu])]

theorem basename_name (hne : n ≠ []) (hslash : slash ∉ n) (hp : p = [] ∨ ∃ q, p = q ++ [slash]) :
    basename (p ++ n) = n := by
  obtain ⟨hdrop, hall⟩ := dropWhile_slash_reverse p hne hslash
  rw [basename, hdrop, takeWhile_append_of_pos hall]
  rcases hp with rfl | ⟨q, rfl⟩
  · simp
  · have hlast : (q ++ [slash]).reverse = slash :: q.reverse := reverse_concat ..
    rw [hlast, takeWhile_cons_of_neg (by simp)]
    simp

theorem basename_ofComponents (hne : n ≠ []) (hslash : slash ∉ n) (hp : p = [] ∨ p = [slash]) :
    basename (p ++ ofComponents (cs ++ [n])) = n := by
  rw [ofComponents_concat]
  split
  · refine basename_name hne hslash (hp.imp_right ?_)
    rintro rfl
    exact ⟨[], rfl⟩
  · rw [← append_assoc, append_cons]
    exact basename_name hne hslash (.inr ⟨_, rfl⟩)

theorem basename_of_components (h : components p = cs ++ [n]) (hn : IsName n) : basename p = n := by
  have hname : basename ([] ++ ofComponents (cs ++ [n])) = n :=
    basename_ofComponents hn.nonempty hn.noSlash (.inl rfl)
  rwa [nil_append, ← h, ofComponents_components] at hname

theorem target_of_components (base : Text) (h : components p = cs ++ [n]) (hn : IsName n) :
    ∃ place, target base p = place ++ [n] := by
  rw [target_eq, h, foldl_append, foldl_cons, foldl_nil, push_name hn, reverse_cons]
  exact ⟨_, rfl⟩

theorem basename_normalize (hne : simplify (!isAbsolute p) p ≠ []) :
    ∃ cs, simplify (!isAbsolute p) p = cs ++ [basename (normalize p)] := by
  obtain ⟨cs, n, hcs⟩ : ∃ cs n, simplify (!isAbsolute p) p = cs ++ [n] :=
    ⟨_, _, (dropLast_append_getLast hne).symm⟩
  obtain ⟨hn, hslash⟩ : n ≠ [] ∧ slash ∉ n :=
    component_of_mem_simplify (b := !isAbsolute p) (p := p) (by simp [hcs])
  have hname : basename ((if isAbsolute p then [slash] else []) ++ ofComponents (cs ++ [n])) = n :=
    basename_ofComponents hn hslash (by split <;> simp)
  refine ⟨cs, ?_⟩
  rw [normalize_eq hne, hcs]
  by_cases htrail : p.getLast? == some slash
  · rw [if_pos htrail, basename_append_slash, hname]
  · rw [if_neg htrail, append_nil, hname]

theorem slash_notMem_basename (p : Text) : slash ∉ basename p := by
  rw [basename, mem_reverse]
  intro hmem
  simpa using mem_takeWhile_imp hmem

theorem simplify_concat_slash (p : Text) : simplify b (p ++ [slash]) = simplify b p := by
  rw [simplify, components_append, foldl_append]
  change (push b ((components p).foldl (push b) []) []).reverse = _
  rw [push_blank (.inl rfl), simplify]

theorem eq_append_basename {u : UInt16} (hu : u ≠ slash) (p : Text) :
    ∃ q, (q = [] ∨ ∃ q', q = q' ++ [slash]) ∧ p ++ [u] = q ++ basename (p ++ [u]) := by
  have hbase : basename (p ++ [u]) = ((u :: p.reverse).takeWhile (· != slash)).reverse := by
    rw [basename, reverse_concat, dropWhile_cons_of_neg (by simpa using hu)]
  have hparts := takeWhile_append_dropWhile (p := (· != slash)) (l := u :: p.reverse)
  refine ⟨((u :: p.reverse).dropWhile (· != slash)).reverse, ?_, ?_⟩
  · cases hrest : (u :: p.reverse).dropWhile (· != slash) with
    | nil => exact .inl rfl
    | cons v rest =>
      obtain rfl := eq_of_dropWhile hrest
      exact .inr ⟨rest.reverse, reverse_cons⟩
  · rw [hbase, ← reverse_append, hparts, reverse_cons, reverse_reverse]

theorem simplify_basename (hn : IsName (basename p)) : ∃ cs, simplify b p = cs ++ [basename p] := by
  induction p using List.reverseRecOn with
  | nil => exact absurd rfl hn.nonempty
  | append_singleton p u ih =>
    by_cases hu : u = slash
    · -- a slash at the end changes neither side
      subst hu
      rw [basename_append_slash] at hn ⊢
      rw [simplify_concat_slash]
      exact ih hn
    · obtain ⟨q, hq, hp⟩ := eq_append_basename hu p
      generalize basename (p ++ [u]) = n at hn hp
      rw [hp]
      rcases hq with rfl | ⟨q', rfl⟩
      · refine ⟨[], ?_⟩
        rw [nil_append, simplify, components_name hn.noSlash, foldl_cons, foldl_nil, push_name hn]
        rfl
      · rw [append_assoc, singleton_append, simplify_append_name hn]
        exact ⟨_, rfl⟩

theorem basename_normalize_of_isName (hn : IsName (basename p)) :
    basename (normalize p) = basename p := by
  obtain ⟨cs, hcs⟩ := simplify_basename (b := !isAbsolute p) hn
  obtain ⟨ds, hds⟩ := basename_normalize (p := p) (by simp [hcs])
  exact (append_singleton_inj.mp (hds.symm.trans hcs)).2

/-- **A path that is no mere dots spells a place with its last component for a name.** -/
theorem target_normalize (base : Text) (hn : IsName (basename (normalize p)))
    (hne : simplify (!isAbsolute p) p ≠ []) :
    ∃ place, target base (normalize p) = place ++ [basename (normalize p)] := by
  obtain ⟨cs, hcs⟩ := basename_normalize hne
  have hblank : ∀ s, (if p.getLast? == some slash then [[]] else []).foldl (push false) s = s :=
    fun s => foldl_push_blanks (by split <;> simp)
  rw [target_eq, components_normalize hne]
  generalize (if isAbsolute (normalize p) then [] else simplify false base).reverse = start
  rw [foldl_append, hblank, hcs, ← append_assoc, foldl_append, foldl_cons,
    foldl_nil, push_name hn, reverse_cons]
  exact ⟨_, rfl⟩

/-- What stands ahead of a name at the end of a text, from the last slash on. -/
theorem dropWhile_reverse_name (hne : n ≠ []) (hslash : slash ∉ n) :
    ((q ++ n).reverse.dropWhile (· == slash)).dropWhile (· != slash) =
      q.reverse.dropWhile (· != slash) := by
  obtain ⟨hdrop, hall⟩ := dropWhile_slash_reverse q hne hslash
  rw [hdrop, dropWhile_append_of_pos hall]

theorem dirname_absolute (hcs : ∀ c ∈ cs, IsName c) (hn : IsName n) :
    dirname (absolute (cs ++ [n])) = absolute cs := by
  have habs : isAbsolute (absolute (cs ++ [n])) = true := rfl
  unfold dirname
  rw [habs]
  dsimp only
  rw [show (absolute (cs ++ [n])).drop 1 = ofComponents (cs ++ [n]) from rfl, ofComponents_concat]
  by_cases hnil : cs = []
  · rw [if_pos hnil, ← nil_append n, dropWhile_reverse_name hn.nonempty hn.noSlash, hnil]
    rfl
  · have hparent := ofComponents_ne_nil (fun c hc => (hcs c hc).nonempty) hnil
    have hlength : (ofComponents cs).length ≠ 0 := by simpa using hparent
    rw [if_neg hnil, append_cons, dropWhile_reverse_name hn.nonempty hn.noSlash,
      reverse_concat, dropWhile_cons_of_neg (by simp), length_cons,
      length_reverse, if_neg (by omega), if_neg (by omega), absolute, ofComponents_concat,
      if_neg hnil, take_succ_cons, take_left]
    rfl

theorem dirname_eq {rest : Text}
    (h : ((p.drop 1).reverse.dropWhile (· == slash)).dropWhile (· != slash) = rest) :
    dirname p = if rest.length = 0 then (if isAbsolute p then [slash] else [dot])
      else if isAbsolute p ∧ rest.length = 1 then [slash, slash] else p.take rest.length := by
  rw [← h]
  rfl

/-- The directory part of a path is a piece of it, if it is more than dots and slashes. -/
theorem dirname_cases (p : Text) : dirname p ∈ [[slash], [dot], [slash, slash]] ∨
      dirname p ≠ [] ∧ ∃ q, p = dirname p ++ slash :: q := by
  cases hrest : ((p.drop 1).reverse.dropWhile (· == slash)).dropWhile (· != slash) with
  | nil =>
    rw [dirname_eq hrest, if_pos length_nil]
    left
    split <;> simp
  | cons u rest =>
    obtain rfl := eq_of_dropWhile hrest
    have hsuffix : slash :: rest <:+ (p.drop 1).reverse := by
      rw [← hrest]
      exact (dropWhile_suffix _).trans (dropWhile_suffix _)
    obtain ⟨more, hmore⟩ := hsuffix
    have htail : p.drop 1 = rest.reverse ++ slash :: more.reverse := by
      rw [← reverse_reverse (p.drop 1), ← hmore]
      simp
    rw [dirname_eq hrest, if_neg (by simp)]
    cases p with
    | nil => simp at htail
    | cons v p =>
      rw [drop_succ_cons, drop_zero] at htail
      have htake : (v :: p).take (rest.length + 1) = v :: rest.reverse := by
        rw [take_succ_cons, htail, ← length_reverse, take_left]
      split
      · left
        simp
      · right
        rw [length_cons, htake, htail]
        exact ⟨by simp, _, rfl⟩

/-! ## Extensions -/

theorem extension_cases (p : Text) :
    extension p = [] ∨ ∃ stem s, basename p = stem ++ dot :: s ∧ dot ∉ s ∧
      extension p = dot :: s := by
  have hparts := takeWhile_append_dropWhile (p := (· != dot)) (l := (basename p).reverse)
  cases hrest : (basename p).reverse.dropWhile (· != dot) with
  | nil =>
    -- without a dot the name is all suffix
    rw [hrest, append_nil] at hparts
    left
    unfold extension
    dsimp only
    rw [hparts]
    simp
  | cons u rest =>
    obtain rfl := eq_of_dropWhile hrest
    have hname : basename p =
        rest.reverse ++ dot :: ((basename p).reverse.takeWhile (· != dot)).reverse := by
      rw [hrest] at hparts
      have hwhole := congrArg List.reverse hparts
      rw [reverse_reverse, reverse_append, reverse_cons, append_assoc, singleton_append] at hwhole
      exact hwhole.symm
    have hdot : dot ∉ ((basename p).reverse.takeWhile (· != dot)).reverse := by
      rw [mem_reverse]
      intro hmem
      simpa using mem_takeWhile_imp hmem
    unfold extension
    dsimp only
    split
    · exact .inl rfl
    · exact .inr ⟨_, _, hname, hdot, rfl⟩

theorem stem_append_extension (p : Text) : stem p ++ extension p = basename p := by
  rcases extension_cases p with h | ⟨s, t, hname, _, h⟩
  · rw [stem, h]
    simp
  · rw [stem, h, hname, length_append, Nat.add_sub_cancel, take_left]

end Posonly.Path
