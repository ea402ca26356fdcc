import Mathlib.Data.List.Forall2
import Posonly.Proofs.Archive.Names
import Posonly.Proofs.Text.Chunks

/-!
# Names as they are stored

A path keeps its text up to surrogates without a partner, which are replaced (`storedText`). So a
token in a name is still there when the name is stored (`infix_storedText`), and a path that ends in
such a name leads to something that has it (`locate_stored`).
-/

open List Posonly.Path Posonly.Encoding Posonly.Archive

namespace Posonly

variable {t a b name token : Text} {u : UInt16}

/-- The units that are stored for a code point. -/
def storedCode (c : Nat) : Text :=
  unitsOfCode (if Text.isSurrogateCode c then replacement else c)

theorem storedText_eq (t : Text) : storedText t = t.codePoints.flatMap storedCode := by
  have hone : ∀ c < 0x110000, ∀ rest, decodeUtf8 none (encodeCode c ++ rest) =
      storedCode c ++ decodeUtf8 none rest := by
    intro c hc rest
    cases hs : Text.isSurrogateCode c with
    | false =>
      rw [decodeUtf8_encodeCode hc hs, storedCode, hs]
      rfl
    | true =>
      -- a surrogate has no bytes of its own
      have hsame : encodeCode c = encodeCode replacement := by
        unfold encodeCode
        rw [hs]
        rfl
      rw [hsame, decodeUtf8_encodeCode (by decide) (by decide), storedCode, hs]
      rfl
  have hall : ∀ cs : List Nat, (∀ c ∈ cs, c < 0x110000) →
      decodeUtf8 none (cs.flatMap encodeCode) = cs.flatMap storedCode := by
    intro cs hcs
    induction cs with
    | nil => rfl
    | cons c cs ih =>
      rw [flatMap_cons, hone c (hcs c (by simp)), ih fun d hd => hcs d (.tail _ hd), flatMap_cons]
  exact hall t.codePoints t.codePoints_lt

theorem storedText_append_cons (a : Text) (hu : Text.isSurrogate u = false) (b : Text) :
    storedText (a ++ u :: b) = storedText a ++ u :: storedText b := by
  have hunit : storedCode u.toNat = [u] := by
    rw [storedCode, Text.isSurrogateCode_toNat, hu, if_neg (by simp), unitsOfCode,
      if_pos u.toNat_lt]
    simp
  rw [storedText_eq, storedText_eq, storedText_eq, Text.codePoints_append_cons a hu,
    flatMap_append, flatMap_cons, hunit]
  rfl

theorem storedText_plain_append (h : ∀ v ∈ a, Text.isSurrogate v = false) (b : Text) :
    storedText (a ++ b) = a ++ storedText b := by
  induction a with
  | nil => rfl
  | cons v a ih =>
    have hcut := storedText_append_cons [] (h v (by simp)) (a ++ b)
    rwa [ih fun w hw => h w (.tail _ hw)] at hcut

theorem infix_storedText (ht : IsToken token) (h : token <:+: t) : token <:+: storedText t := by
  obtain ⟨before, after, rfl⟩ := h
  have hplain : ∀ v ∈ token, Text.isSurrogate v = false := fun v hv => (ht.unit hv).2.2.2.2
  cases token with
  | nil => exact nil_infix
  | cons v rest =>
    have hrest := storedText_plain_append (fun w hw => hplain w (.tail _ hw)) after
    refine ⟨storedText before, storedText after, ?_⟩
    rw [append_assoc, append_assoc, cons_append, cons_append,
      storedText_append_cons before (hplain v (by simp)), hrest]

/-- **What is stored is the text**, unit by unit, but for those that are replaced. -/
theorem forall₂_storedText (t : Text) :
    List.Forall₂ (fun u v : UInt16 => v = u ∨ v = 0xFFFD) t (storedText t) := by
  have hone : ∀ c, List.Forall₂ (fun u v : UInt16 => v = u ∨ v = 0xFFFD)
      (unitsOfCode c) (storedCode c) := by
    intro c
    unfold storedCode
    split
    · rename_i hs
      have hlt : c < 0x10000 := by
        simp only [Text.isSurrogateCode, Bool.and_eq_true, decide_eq_true_eq] at hs
        omega
      rw [unitsOfCode, if_pos hlt]
      exact .cons (.inr rfl) .nil
    · exact forall₂_same.mpr fun _ _ => .inl rfl
  rw [storedText_eq]
  conv => arg 2; rw [← Text.flatMap_unitsOfCode t]
  induction t.codePoints with
  | nil => exact .nil
  | cons c cs ih =>
    rw [flatMap_cons, flatMap_cons]
    exact rel_append (hone c) ih

theorem mem_of_mem_storedText (hu : u ≠ 0xFFFD) (h : u ∈ storedText t) : u ∈ t := by
  have hunits := forall₂_storedText t
  generalize storedText t = stored at h hunits
  induction hunits with
  | nil => cases h
  | cons hunit _ ih =>
    rcases mem_cons.mp h with rfl | h
    · rw [hunit.resolve_right hu]
      exact mem_cons_self
    · exact mem_cons_of_mem _ (ih h)

theorem slash_notMem_storedText (h : slash ∉ t) : slash ∉ storedText t :=
  fun hmem => h (mem_of_mem_storedText (by decide) hmem)

theorem eq_of_forall₂_stored (h : List.Forall₂ (fun u v : UInt16 => v = u ∨ v = 0xFFFD) a b)
    (hplain : ∀ v ∈ b, v ≠ 0xFFFD) : a = b := by
  induction h with
  | nil => rfl
  | cons hunit _ ih =>
    rw [hunit.resolve_right (hplain _ (by simp)), ih fun v hv => hplain v (.tail _ hv)]

theorem isName_stored (h : IsName name) : IsName (storedText name) := by
  have hplain : ∀ n, (∀ v ∈ n, v ≠ 0xFFFD) → storedText name = n → name = n := by
    intro n hn heq
    have hunits := forall₂_storedText name
    rw [heq] at hunits
    exact eq_of_forall₂_stored hunits hn
  exact ⟨fun heq => h.nonempty (hplain _ (by simp) heq),
    fun heq => h.notDot (hplain _ (by decide) heq),
    fun heq => h.notUp (hplain _ (by decide) heq), slash_notMem_storedText h.noSlash⟩

theorem isName_of_stored (hslash : slash ∉ name) (h : IsName (storedText name)) :
    IsName name where
  nonempty := by rintro rfl; exact h.nonempty rfl
  notDot := by rintro rfl; exact h.notDot (by decide)
  notUp := by rintro rfl; exact h.notUp (by decide)
  noSlash := hslash

/-- What is stored has a text in it that needs no replacing only if it was there. -/
theorem infix_of_infix_storedText (hplain : ∀ v ∈ token, v ≠ 0xFFFD) (h : token <:+: storedText t) :
    token <:+: t := by
  obtain ⟨before, after, heq⟩ := h
  have hunits := forall₂_storedText t
  rw [← heq, append_assoc] at hunits
  have hrest := forall₂_drop_append _ _ _ hunits
  have htoken := forall₂_take_append _ _ _ hrest
  rw [← eq_of_forall₂_stored htoken hplain]
  exact (List.take_prefix ..).isInfix.trans (drop_suffix ..).isInfix

/-! ## Names with tokens -/

theorem isName_of_token (ht : IsToken token) (h : token <:+: name) (hslash : slash ∉ name) :
    IsName name := by
  have hlength : 36 ≤ name.length := by
    rw [← ht.length]
    exact h.length_le
  refine ⟨fun heq => ?_, fun heq => ?_, fun heq => ?_, hslash⟩ <;>
    exact absurd (heq ▸ hlength) (by decide)

theorem isName_storedText (ht : IsToken token) (h : token <:+: name) (hslash : slash ∉ name) :
    IsName (storedText name) :=
  isName_of_token ht (infix_storedText ht h) (slash_notMem_storedText hslash)

theorem storedText_plain (h : ∀ v ∈ a, Text.isSurrogate v = false) : storedText a = a := by
  have hstored := storedText_plain_append h []
  rwa [append_nil, show storedText [] = [] from rfl, append_nil] at hstored

theorem temporaryName_stored (ht : IsToken token) (base : Text) :
    TemporaryName token (storedText ("." ++ base ++ "." ++ token ++ ".tmp")) := by
  have hplain : ∀ v ∈ token ++ Text.ofString ".tmp", Text.isSurrogate v = false := by
    intro v hv
    rcases mem_append.mp hv with hv | hv
    · exact (ht.unit hv).2.2.2.2
    · have hall : ∀ w ∈ Text.ofString ".tmp", Text.isSurrogate w = false := by decide
      exact hall v hv
  have hparts : (("." ++ base ++ "." ++ token ++ ".tmp" : Text)) =
      [] ++ dot :: (base ++ dot :: (token ++ Text.ofString ".tmp")) := by
    simp only [append_assoc]
    rfl
  refine ⟨storedText base, ?_⟩
  rw [hparts, storedText_append_cons _ (by decide), storedText_append_cons _ (by decide),
    storedText_plain hplain]
  simp only [append_assoc]
  rfl

theorem copyName_stored {tokens : Text → Prop} (ht : IsToken token) (file : Text)
    (h : ∀ other, tokens other → ¬ other <:+: storedText (basename file)) :
    CopyName tokens token (storedText (copyName file token)) := by
  have hplain : ∀ v ∈ token, Text.isSurrogate v = false := fun v hv => (ht.unit hv).2.2.2.2
  have hstored : storedText (copyName file token) =
      storedText (stem file) ++ "-" ++ token ++ storedText (extension file) := by
    have hparts : copyName file token =
        stem file ++ 0x2D :: (token ++ extension file) := by
      rw [copyName, append_assoc, append_assoc]
      rfl
    rw [hparts, storedText_append_cons _ (by decide), storedText_plain_append hplain,
      append_assoc, append_assoc]
    rfl
  rw [hstored]
  rcases extension_cases file with hnone | ⟨s, e, _, hdot, hext⟩
  · rw [← stem_append_extension, hnone, append_nil] at h
    rw [hnone, show storedText [] = [] from rfl, append_nil]
    exact .bare _ h
  · rw [hext, ← nil_append (dot :: e), storedText_append_cons _ (by decide)]
    exact .dotted _ _ fun hmem => hdot (mem_of_mem_storedText (by decide) hmem)

theorem slash_notMem_token (ht : IsToken token) : slash ∉ token :=
  fun hmem => (ht.unit hmem).1 rfl

/-! ## Paths -/

/-- **What is stored for a path** has what is stored for its components. -/
theorem components_stored (path : Text) :
    components (storedText path) = (components path).map storedText := by
  have hall : ∀ cs : List Text, (∀ c ∈ cs, slash ∉ c) → cs ≠ [] →
      components (storedText (ofComponents cs)) = cs.map storedText := by
    intro cs hcs hne
    induction cs using List.reverseRecOn with
    | nil => exact absurd rfl hne
    | append_singleton cs n ih =>
      have hname : components (storedText n) = [storedText n] :=
        components_name (slash_notMem_storedText (hcs n (by simp)))
      rw [ofComponents_concat, map_append]
      split
      · rename_i hnil
        rwa [hnil]
      · rename_i hnil
        rw [storedText_append_cons _ (by decide), components_append, hname,
          ih (fun c hc => hcs c (mem_append_left _ hc)) hnil]
        rfl
  have hcomponents := hall (components path) (fun c hc => slash_notMem_component hc)
    (Text.splitOn_ne_nil _ _)
  rwa [ofComponents_components] at hcomponents

theorem components_join_last (p : Text) (hname : IsName name) :
    ∃ cs, components (join p name) = cs ++ [name] := by
  by_cases hp : p = []
  · subst hp
    have hsimple : ∀ b, simplify b name = [name] := by
      intro b
      rw [simplify, components_name hname.noSlash, foldl_cons, foldl_nil, push_name hname]
      rfl
    have hjoin : join [] name = normalize name := rfl
    have hend : (name.getLast? == some slash) = false := by
      rw [beq_eq_false_iff_ne]
      intro heq
      exact hname.noSlash (mem_of_getLast? heq)
    rw [hjoin, components_normalize (by simp [hsimple]), hsimple, hend]
    exact ⟨_, append_nil _⟩
  · exact ⟨_, components_join hp hname⟩

theorem temporaryPath_last (task : Task) (ht : IsToken token) :
    ∃ cs n, components (task.temporaryPath token) = cs ++ [n] ∧ token <:+: n ∧
      TemporaryName token (storedText n) ∧
      ∀ c ∈ cs, c ∈ [[], [dot], up] ∨ c ∈ components task.file := by
  have htoken : token <:+: "." ++ basename task.file ++ "." ++ token ++ ".tmp" := ⟨_, _, rfl⟩
  have hslash : slash ∉ "." ++ basename task.file ++ "." ++ token ++ ".tmp" := by
    have hpoint : slash ∉ (("." : String) : Text) := by decide
    have htmp : slash ∉ ((".tmp" : String) : Text) := by decide
    simp only [mem_append, not_or]
    exact ⟨⟨⟨⟨hpoint, slash_notMem_basename task.file⟩, hpoint⟩, slash_notMem_token ht⟩, htmp⟩
  obtain ⟨cs, hlast, hcs⟩ := components_join_dirname task.file (isName_of_token ht htoken hslash)
  exact ⟨cs, _, hlast, htoken, temporaryName_stored ht _, hcs⟩

theorem isName_copyName (file : Text) (ht : IsToken token) :
    IsName (copyName file token) := by
  have hslash : slash ∉ copyName file token := by
    have hdash : slash ∉ (("-" : String) : Text) := by decide
    have hparts := slash_notMem_basename file
    rw [← stem_append_extension, mem_append, not_or] at hparts
    simp only [copyName, mem_append, not_or]
    exact ⟨⟨⟨hparts.1, hdash⟩, slash_notMem_token ht⟩, hparts.2⟩
  exact isName_of_token ht ⟨_, _, rfl⟩ hslash

theorem copyPath_last (a : Archive) (file : Text) (ht : IsToken token) :
    ∃ cs, components (a.copyPath (copyName file token)) =
      cs ++ [copyName file token] :=
  components_join_last a.root (isName_copyName file ht)

/-! ## Looking up paths -/

theorem storedText_absolute {names : List Text} (hnames : ∀ n ∈ names, IsName n) :
    storedText (absolute names) = absolute (names.map storedText) := by
  have hslash :
      storedText (absolute names) = slash :: storedText (ofComponents names) :=
    storedText_append_cons [] (by decide) _
  rw [hslash, absolute]
  by_cases hne : names = []
  · rw [hne]
    rfl
  · rw [← ofComponents_components (storedText (ofComponents names)), components_stored,
      components_ofComponents (fun c hc => (hnames c hc).noSlash) hne]

namespace FileTree

variable {tree : FileTree} {directory path : Text} {followLast : Bool} {spot : Spot}
  {cs : List Text} {place : Place}

/-- A zero is stored as it is, so there is none in a path that leads somewhere. -/
theorem contains_zero_of_locate (h : tree.locate directory path followLast = .ok spot) :
    path.contains 0 = false := by
  rw [Bool.eq_false_iff]
  intro hzero
  rw [contains_iff_mem] at hzero
  obtain ⟨before, rest, rfl⟩ := append_of_mem hzero
  refine (follow_of_stored h).1 ?_
  rw [storedText_append_cons before (by decide)]
  simp

/-- **A path that ends in a name with a token** leads to something with the name that is stored for
it, if no link has this name. -/
theorem locate_stored (hname : IsName (storedText name))
    (hlink : ∀ q target, tree.get? (q ++ [storedText name]) ≠ some (.link target))
    (hlast : components path = cs ++ [name])
    (h : tree.locate directory path followLast = .ok spot) :
    ∃ q, spot = ⟨q ++ [storedText name], tree.get? (q ++ [storedText name])⟩ := by
  have hds : components (storedText path) = cs.map storedText ++ [storedText name] := by
    rw [components_stored, hlast, map_append]
    rfl
  obtain ⟨_, _, hfollow⟩ := follow_of_stored h
  rw [hds] at hfollow
  obtain ⟨q, hspot, _, _⟩ := follow_name hname (fun _ => hlink) hfollow
  exact ⟨q, hspot⟩

theorem walk_ends {walk : Walk} (ht : tree.Nested)
    (hdir : tree.get? place = some .directory) (h : tree.walk true place cs = .ok walk) :
    (∃ spot, walk = .arrived spot ∧ ∀ target, spot.node ≠ some (.link target)) ∨
      ∃ p ds, walk = .sentOn p ds ∧ tree.get? p = some .directory := by
  induction cs generalizing place with
  | nil =>
    rw [FileTree.walk, hdir, Except.ok.injEq] at h
    exact .inl ⟨_, h.symm, by simp⟩
  | cons c cs ih =>
    obtain ⟨_, ⟨next, hpasses, hmore⟩ | ⟨_, _, hlink, rfl⟩ | ⟨target, _, _, _, rfl⟩⟩ :=
      walk_cons_cases h
    · exact ih (hpasses.get?_next ht hdir) hmore
    · exact .inl ⟨_, rfl, hlink rfl⟩
    · refine .inr ⟨_, _, rfl, ?_⟩
      split
      · rfl
      · exact hdir

theorem follow_ne_link {links : Nat} (ht : tree.Nested)
    (hdir : tree.get? place = some .directory) (h : tree.follow true links place cs = .ok spot)
    (target : Text) : spot.node ≠ some (.link target) := by
  induction links using Nat.strongRecOn generalizing place cs with
  | _ links ih =>
    rcases follow_cases h with hwalk | ⟨n, p, ds, rfl, hwalk, hmore⟩
    · rcases walk_ends ht hdir hwalk with ⟨_, hspot, hlink⟩ | ⟨_, _, hsent, _⟩
      · rw [Walk.arrived.inj hspot]
        exact hlink target
      · cases hsent
    · rcases walk_ends ht hdir hwalk with ⟨_, hspot, _⟩ | ⟨_, _, hsent, hp⟩
      · cases hspot
      · cases hsent
        exact ih n (by omega) hp hmore

/-- **No path ends at a link** that is to be followed. -/
theorem locate_ne_link (ht : tree.Nested) (h : tree.locate directory path true = .ok spot)
    (target : Text) : spot.node ≠ some (.link target) := by
  obtain ⟨_, _, hfollow⟩ := follow_of_stored h
  obtain ⟨c, cs, hcs⟩ := exists_cons_of_ne_nil (Text.splitOn_ne_nil slash (storedText path))
  have hdir : tree.get? (if isAbsolute (storedText path) then [] else placeOf directory) =
      some .directory := by
    rw [components, hcs] at hfollow
    rcases follow_cases hfollow with
      hwalk | ⟨_, _, _, _, hwalk, _⟩ <;> exact (walk_cons_cases hwalk).1
  exact follow_ne_link ht hdir hfollow target

end FileTree

end Posonly
