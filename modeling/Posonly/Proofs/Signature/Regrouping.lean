import Posonly.Proofs.Signature.Marker

/-!
# The parameter list without its marker

Deleting the span of an extraction takes the marker and at most one comma out of the token list.
What is left falls into the same groups as before, less the group of the marker, whenever the comma
goes along that would otherwise be left over. There is one way to miss it: a comment right behind
the marker hides the comma that follows, and there is none to be had ahead of the marker on its
line. Then a separator is left over (`regroup_iff`).
-/

open List Bool

namespace Posonly.Signature

open Text (isSpaceOrTab)

variable {source : Text} {target : Target} {scope : ScopeKind}

/-! ## Visible tokens -/

/-- There is something to be seen between two offsets. -/
def Visible (source : Text) (start stop : Nat) : Prop :=
  ∃ i u, start ≤ i ∧ i < stop ∧ source[i]? = some u ∧ isLineBlank u = false

variable {a b stop start q : Nat} {u : UInt16} {t m : Token} {children : List Tree} {span : Range}
  {left right pre post : List Token} {before after : List (List Token)} {e : Extraction}
  {rest : List Token}

theorem Visible.lt (h : Visible source a b) : a < b := by
  obtain ⟨i, _, hai, hib, _⟩ := h
  omega

theorem blank_of_isLineBlank (h : isLineBlank u = true) :
    isGapBlank u = true ∧ Text.isBlank u = true := by
  simp only [isLineBlank, isSpaceOrTab, Text.isBreak, or_eq_true, beq_iff_eq] at h
  rcases h with (rfl | rfl) | (rfl | rfl) <;> decide

theorem visible_of_isPunctuation {text : Text} (h : isPunctuation text = true)
    (hslice : source.slice a b = text) : Visible source a b := by
  have hall : ∀ t ∈ punctuation, ∃ u, t.head? = some u ∧ isLineBlank u = false := by
    have hhead : ∀ t ∈ punctuation, (t.head?).any (fun u => !isLineBlank u) = true := by decide
    intro t ht
    obtain ⟨u, hu, hb⟩ := (Option.any_eq_true _ _).mp (hhead t ht)
    exact ⟨u, hu, by simpa using hb⟩
  obtain ⟨u, hu, hb⟩ := hall text (contains_iff_mem.mp h)
  rw [← hslice, head?_eq_getElem?, Text.getElem?_slice] at hu
  split at hu
  · exact ⟨a, u, Nat.le_refl _, by omega, by simpa using hu, hb⟩
  · cases hu

theorem Lexeme.visible {i : Nat} (hi : i < stop) (h : Lexeme source i stop t)
    (hc : t.isComment = false) : Visible source t.start t.stop := by
  have hspelled := h.spelled
  have hrange := h.range hi
  have seen : ∀ {u : UInt16}, source[i]? = some u → isGapBlank u = false →
      Visible source t.start t.stop := fun hu hb =>
    ⟨i, _, by omega, hrange.2.1, hu, eq_false_iff.mpr fun hline =>
      absurd (blank_of_isLineBlank hline).1 (by rw [hb]; simp)⟩
  cases h with
  | comment _ => cases hc
  | stars _ _ _ =>
    have hp : isPunctuation "**" = true := by decide
    exact visible_of_isPunctuation hp (hspelled rfl).1
  | mark _ hp => exact visible_of_isPunctuation hp (hspelled rfl).1
  | name hu hb _ _ _ | other hu hb => exact seen hu hb

/-- The nodes of a parameter list show something, other than comments and what was skipped. -/
def ShowsNodes (source : Text) (children : List Tree) : Prop :=
  ∀ c ∈ children, c.kind ≠ .error → c.kind ≠ .comment → Visible source c.start c.stop

theorem Classified.visible {c : Tree} (hshows : ShowsNodes source children) (hmem : c ∈ children)
    (h : Classified source c t) (hc : t.isComment = false) : Visible source t.start t.stop := by
  cases h with
  | comment _ => cases hc
  | skipped _ hp _ _ hslice _ _ => exact visible_of_isPunctuation hp hslice
  | name hk => exact hshows c hmem (by rw [hk]; decide) (by rw [hk]; decide)
  | mark _ hp => exact visible_of_isPunctuation hp rfl
  | error _ hblank =>
    obtain ⟨u, hu, hb⟩ := all_eq_false.mp hblank
    obtain ⟨i, hi⟩ := mem_iff_getElem?.mp hu
    rw [Text.getElem?_slice] at hi
    split at hi
    · refine ⟨c.start + i, u, Nat.le_add_right .., by assumption, hi, ?_⟩
      exact eq_false_iff.mpr fun hline => hb (blank_of_isLineBlank hline).2
    · cases hi
  | other hne hnc => exact hshows c hmem hne hnc

theorem visible_of_mem_tokenize (hin : ∀ c ∈ children, c.start ≤ c.stop ∧ c.stop ≤ stop)
    (hshows : ShowsNodes source children) (ht : t ∈ tokenize source start stop children)
    (hc : t.isComment = false) : Visible source t.start t.stop := by
  rcases mem_tokenize hin ht with ⟨c, hmem, hcl⟩ | ⟨i, e, hi, _, hlex⟩
  · exact hcl.visible hshows hmem hc
  · exact hlex.visible hi hc

/-! ## What a span takes out -/

/-- Whether a token lies in a range. -/
def inside (span : Range) (t : Token) : Bool :=
  decide (span.start ≤ t.start) && decide (t.stop ≤ span.stop)

/-- The tokens that are no comments. -/
def significant (tokens : List Token) : List Token := tokens.filter fun t => !t.isComment

/-- The groups of what is left of a token list when a range is deleted. -/
def groupsOutside (span : Range) (tokens : List Token) : List (List Token) :=
  groups (tokens.filter fun t => !inside span t)

theorem groupsOutside_eq (span : Range) (tokens : List Token) : groupsOutside span tokens =
      cutAt (·.isPunct ",") ((significant tokens).filter fun t => !inside span t) := by
  rw [groupsOutside, groups, significant, filter_filter, filter_filter]
  simp only [Bool.and_comm]

theorem inside_iff : inside span t = true ↔ span.start ≤ t.start ∧ t.stop ≤ span.stop := by
  rw [inside, and_eq_true, decide_eq_true_eq, decide_eq_true_eq]

theorem not_inside_of_blank (hvis : Visible source t.start t.stop)
    (hblank : inside span t = true → source.Throughout isLineBlank t.start t.stop) :
    inside span t = false := by
  obtain ⟨i, u, hti, hit, hu, hb⟩ := hvis
  refine Bool.eq_false_iff.mpr fun hs => ?_
  rw [hblank hs i u hti hit hu] at hb
  cases hb

/-- A range between blanks takes out what lies between them and nothing else. -/
theorem filter_outside (span : Range) (taken : List Token) {p : Nat}
    (hleft : ∀ t ∈ left, Visible source t.start t.stop ∧ t.stop ≤ p)
    (hstart : source.Throughout isLineBlank span.start p)
    (htaken : ∀ t ∈ taken, inside span t = true)
    (hright : ∀ t ∈ right, Visible source t.start t.stop ∧ q ≤ t.start)
    (hstop : source.Throughout isLineBlank q span.stop) :
    ((left ++ taken) ++ right).filter (fun t => !inside span t) = left ++ right := by
  have hl : left.filter (fun t => !inside span t) = left := filter_eq_self.mpr fun t ht => by
      rw [not_inside_of_blank (hleft t ht).1
        fun hs => hstart.mono (inside_iff.mp hs).1 (hleft t ht).2]; rfl
  have ht : taken.filter (fun t => !inside span t) = [] :=
    filter_eq_nil_iff.mpr fun t ht => by rw [htaken t ht]; simp
  have hr : right.filter (fun t => !inside span t) = right := filter_eq_self.mpr fun t ht => by
      rw [not_inside_of_blank (hright t ht).1
        fun hs => hstop.mono (hright t ht).2 (inside_iff.mp hs).2]; rfl
  rw [filter_append, filter_append, hl, ht, hr, append_nil]

/-! ## The marker and its group -/

theorem cutAt_comma {c : Token} (hc : c.isPunct "," = true) (xs ys : List Token) :
    cutAt (·.isPunct ",") (xs ++ c :: ys) =
      cutAt (·.isPunct ",") xs ++ cutAt (·.isPunct ",") ys := by
  simp only [cutAt_eq_splitOnP]
  exact splitOnP_append_cons xs ys hc

theorem groups_around (hl : m ∉ left) (hr : m ∉ right)
    (h : cutAt (·.isPunct ",") (left ++ m :: right) = before ++ [m] :: after) :
    (before = [] ∧ left = [] ∨
      ∃ us c, c.isPunct "," = true ∧ left = us ++ [c] ∧ cutAt (·.isPunct ",") us = before) ∧
    (after = [] ∧ right = [] ∨
      ∃ c us, c.isPunct "," = true ∧ right = c :: us ∧ cutAt (·.isPunct ",") us = after) := by
  obtain ⟨xs, ys, hlist, hbefore, hafter⟩ := cutAt_eq_append_cons h
  obtain ⟨rfl, _, rfl⟩ := (append_cons_inj_of_notMem hl hr).mp hlist
  exact ⟨hbefore, hafter⟩

theorem previousAt_length (pre : List Token) (m : Token) (post : List Token) :
    previousAt (pre ++ m :: post) pre.length = pre.getLast? := by
  unfold previousAt
  split
  · rename_i h
    rw [length_eq_zero_iff.mp h]
    rfl
  · rw [getElem?_append_left (by omega), getLast?_eq_getElem?]

theorem extracted_at (hlaid : Laid source (pre ++ m :: post)) (hm : m.isPunct "/" = true)
    (hext : extract source (pre ++ m :: post) target scope = .ok (some e))
    (hgroups : groups (pre ++ m :: post) = before ++ [m] :: after) :
    Extracted source (pre ++ m :: post) m pre.length e := by
  obtain ⟨_, _, marker, index, hx⟩ := extract_eq_some hext
  have hgroup : m :: [] ∈ groups (pre ++ m :: post) := by rw [hgroups]; simp
  obtain ⟨j, hj⟩ := exists_mem_heads hgroup
  obtain ⟨rfl, rfl⟩ : m = marker ∧ j = index := Prod.mk.injEq .. ▸ hx.only _ hj hm
  -- a token that is not empty stands at one index only
  have hone := (hlaid.spelled m (by simp)).unit hm
  have hat : (pre ++ m :: post)[pre.length]? = some m := by simp
  have hjat := mem_heads hj
  have hindex : j = pre.length := by
    rcases Nat.lt_trichotomy j pre.length with h | h | h
    · have := hlaid.stop_le hjat hat h
      omega
    · exact h
    · have := hlaid.stop_le hat hjat h
      omega
  exact hindex ▸ hx

/-! ## Regrouping -/

/-- A comment stands right behind the marker, so a comma behind it is out of sight, and there is no
comma to be had ahead of the marker on its line. -/
def CommaHidden (source : Text) (pre : List Token) (m : Token) (post : List Token) : Prop :=
  (post.head?).any Token.isComment = true ∧ commaBefore? source m.start pre.getLast? = none

/-- Groups without the empty one that a trailing comma leaves. -/
def withoutTrailing (gs : List (List Token)) : List (List Token) :=
  if gs.getLast? = some [] then gs.dropLast else gs

theorem significant_append (xs ys : List Token) :
    significant (xs ++ ys) = significant xs ++ significant ys :=
  filter_append ..

theorem significant_cons (h : t.isComment = false) (ts : List Token) :
    significant (t :: ts) = t :: significant ts := by
  rw [significant, filter_cons, h]
  rfl

/-- On a line of its own a marker has no comma ahead of it. -/
theorem commaBefore?_of_wholeLine? {previous : Option Token}
    (hprev : ∀ p, previous = some p → p.Spelled source ∧ p.stop ≤ m.start)
    (h : (wholeLine? source m.start m.stop).isSome) :
    commaBefore? source m.start previous = none := by
  cases hbefore : commaBefore? source m.start previous with
  | none => rfl
  | some p =>
    exfalso
    obtain ⟨line, hline⟩ := Option.isSome_iff_exists.mp h
    obtain ⟨hp, hcomma, hblank⟩ := commaBefore?_eq_some hbefore
    obtain ⟨hspelled, hle⟩ := hprev p hp
    obtain ⟨hunit, hstop⟩ := hspelled.unit hcomma
    obtain ⟨hstart, hline, _⟩ := wholeLine?_eq_some hline
    -- the line starts at or before the comma, which is then among its blanks
    have hlt : source.lineStart m.start ≤ p.start := by
      by_contra hgt
      have hpos : 0 < source.lineStart m.start := by omega
      obtain ⟨u, hu, hbreak⟩ := Text.break_before_lineStart hpos
      by_cases heq : source.lineStart m.start - 1 = p.start
      · rw [heq, hunit] at hu
        cases hu
        exact absurd hbreak (by decide)
      · have := Text.lineStart_le source m.start
        exact not_breakAt_of_throughout hblank (by omega) (by omega) ⟨u, hu, hbreak⟩
    exact absurd (hline p.start _ (by omega) (by omega) hunit) (by decide)

/-- Tokens that are no comments show something. -/
def Shows (source : Text) (tokens : List Token) : Prop :=
  ∀ t ∈ tokens, t.isComment = false → Visible source t.start t.stop

theorem Shows.apart (hvis : Shows source (pre ++ m :: post))
    (hlaid : Laid source (pre ++ m :: post)) :
    (∀ t ∈ significant pre, Visible source t.start t.stop ∧ t.stop ≤ m.start) ∧
      ∀ t ∈ significant post, Visible source t.start t.stop ∧ m.stop ≤ t.start := by
  obtain ⟨hpre, hpost⟩ := hlaid.apart
  constructor
  · intro t ht
    obtain ⟨htp, htc⟩ := mem_filter.mp ht
    exact ⟨hvis t (by simp [htp]) (by simpa using htc), hpre t htp⟩
  · intro t ht
    obtain ⟨htp, htc⟩ := mem_filter.mp ht
    exact ⟨hvis t (by simp [htp]) (by simpa using htc), hpost t htp⟩

theorem kept_behind {n : Token} (hlaid : Laid source (pre ++ m :: n :: rest))
    (hvis : Shows source (pre ++ m :: n :: rest)) (hle : start ≤ m.start)
    (hblank : source.Throughout isSpaceOrTab start m.start) (hend : LineEnd source n.stop stop) :
    (significant pre ++ m :: n :: significant rest).filter (fun t => !inside ⟨start, stop⟩ t) =
      significant pre ++ significant rest := by
  have hlist : pre ++ m :: n :: rest = (pre ++ [m]) ++ n :: rest := by simp
  have hmn := hlaid.apart.2 n (by simp)
  have hm := (hlaid.range m (by simp)).1
  have hn := (hlaid.range n (by simp)).1
  have hns := hend.le
  have hleft := (hvis.apart hlaid).1
  rw [hlist] at hlaid hvis
  have hright := (hvis.apart hlaid).2
  have hkept := filter_outside ⟨start, stop⟩ [m, n] hleft
    (hblank.imp fun u hu => by rw [isLineBlank, hu, Bool.true_or])
    (fun t ht => ?_) hright hend.blank
  · rwa [append_assoc] at hkept
  · rw [inside_iff]
    rcases mem_pair.mp ht with rfl | rfl
    · exact ⟨hle, by dsimp only; omega⟩
    · exact ⟨by dsimp only; omega, hns⟩

theorem kept_ahead {p : Token} (hlaid : Laid source (pre ++ p :: m :: post))
    (hvis : Shows source (pre ++ p :: m :: post)) :
    (significant pre ++ p :: m :: significant post).filter
      (fun t => !inside ⟨p.start, m.stop⟩ t) = significant pre ++ significant post := by
  have hm := (hlaid.range m (by simp)).2
  exact kept_behind hlaid hvis (Nat.le_refl _) (Text.throughout_of_le (Nat.le_refl _))
    (lineEnd_of_throughout (Nat.le_refl _) hm (Text.throughout_of_le (Nat.le_refl _)))

theorem kept_alone (hlaid : Laid source (pre ++ m :: post))
    (hvis : Shows source (pre ++ m :: post)) (hle : start ≤ m.start)
    (hblank : source.Throughout isSpaceOrTab start m.start) (hend : LineEnd source m.stop stop) :
    (significant pre ++ m :: significant post).filter (fun t => !inside ⟨start, stop⟩ t) =
      significant pre ++ significant post := by
  obtain ⟨hleft, hright⟩ := hvis.apart hlaid
  have hkept := filter_outside ⟨start, stop⟩ [m] hleft
    (hblank.imp fun u hu => by rw [isLineBlank, hu, Bool.true_or])
    (fun t ht => ?_) hright hend.blank
  · rwa [append_assoc] at hkept
  · rw [inside_iff, mem_singleton.mp ht]
    exact ⟨hle, hend.le⟩

/-- What stands around a marker that is alone in its group: a comma ahead of it, and a comma or
nothing behind it. -/
structure Surrounded (pre post : List Token) (before after : List (List Token)) : Prop where
  ahead : ∃ us c, c.isPunct "," = true ∧ significant pre = us ++ [c] ∧
    cutAt (·.isPunct ",") us = before
  behind : after = [] ∧ significant post = [] ∨ ∃ c us, c.isPunct "," = true ∧
    significant post = c :: us ∧ cutAt (·.isPunct ",") us = after

theorem Extracted.surrounded (hx : Extracted source (pre ++ m :: post) m pre.length e)
    (hlaid : Laid source (pre ++ m :: post)) (hvis : Shows source (pre ++ m :: post))
    (hcuts : cutAt (·.isPunct ",") (significant pre ++ m :: significant post) =
      before ++ [m] :: after) : Surrounded pre post before after := by
  have hone := ((hlaid.spelled m (by simp)).unit hx.slash).2
  obtain ⟨hleft, hright⟩ := hvis.apart hlaid
  obtain ⟨hbefore, hafter⟩ := groups_around (fun h => by have := (hleft m h).2; omega)
    (fun h => by have := (hright m h).2; omega) hcuts
  refine ⟨hbefore.resolve_left fun hfirst => ?_, hafter⟩
  -- a name stands ahead of the marker, so its group is not the first one
  obtain ⟨t, i, hti, hkind, hi⟩ := hx.exists_name
  rw [getElem?_append_left hi] at hti
  have hmem : t ∈ significant pre := mem_filter.mpr
    ⟨mem_of_getElem? hti, by rw [Token.isComment, hkind]; rfl⟩
  rw [hfirst.2] at hmem
  cases hmem

namespace Surrounded

/-- With the comma behind it, a marker takes its group along. -/
theorem cutAt_behind {n : Token} (h : Surrounded pre (n :: rest) before after)
    (hn : n.isComment = false) :
    cutAt (·.isPunct ",") (significant pre ++ significant rest) = before ++ after := by
  obtain ⟨us, c, hc, hus, hcut⟩ := h.ahead
  rw [hus, append_assoc, singleton_append, cutAt_comma hc, hcut]
  have hafter := h.behind
  rw [significant_cons hn] at hafter
  rcases hafter with ⟨_, hnil⟩ | ⟨c', us', _, hcons, hcut'⟩
  · cases hnil
  · rw [List.cons.injEq] at hcons
    rw [hcons.2, hcut']

/-- With the comma ahead of it, a marker takes its group along as well. -/
theorem cutAt_ahead {p : Token} (h : Surrounded (pre ++ [p]) post before after)
    (hp : p.isComment = false) :
    cutAt (·.isPunct ",") (significant pre ++ significant post) = before ++ after := by
  obtain ⟨us, c, _, hus, hcut⟩ := h.ahead
  rw [significant_append, significant_cons hp] at hus
  rw [(append_inj' hus rfl).1]
  rcases h.behind with ⟨rfl, hnil⟩ | ⟨c', us', hc', hcons, hcut'⟩
  · rw [hnil, append_nil, append_nil, hcut]
  · rw [hcons, cutAt_comma hc', hcut, hcut']

/-- Without a comma, a marker leaves an empty group. -/
theorem cutAt_alone (h : Surrounded pre post before after) :
    cutAt (·.isPunct ",") (significant pre ++ significant post) = before ++ [[]] ∧ after = [] ∨
      cutAt (·.isPunct ",") (significant pre ++ significant post) = before ++ [] :: after ∧
        after ≠ [] ∧ ∃ c us, c.isPunct "," = true ∧ significant post = c :: us := by
  obtain ⟨us, c, hc, hus, hcut⟩ := h.ahead
  rw [hus, append_assoc, singleton_append, cutAt_comma hc, hcut]
  rcases h.behind with ⟨rfl, hnil⟩ | ⟨c', us', hc', hcons, hcut'⟩
  · rw [hnil]
    exact .inl ⟨rfl, rfl⟩
  · refine .inr ⟨by rw [hcons, cutAt, if_pos hc', hcut'], ?_, c', us', hc', hcons⟩
    rw [← hcut']
    exact cutAt_ne_nil _ _

end Surrounded

/-- A comma that counts, but does not stand right behind the marker, is hidden by a comment. -/
theorem comment_of_comma_behind {c : Token} {us : List Token} (hc : c.isPunct "," = true)
    (hpost : significant post = c :: us) (hfol : post.head?.filter (·.isPunct ",") = none) :
    (post.head?).any Token.isComment = true := by
  cases post with
  | nil => cases hpost
  | cons n rest =>
    by_contra hnc
    have hnc : n.isComment = false := by simpa using hnc
    rw [significant_cons hnc, List.cons.injEq] at hpost
    rw [head?_cons, Option.filter_some, hpost.1, hc] at hfol
    cases hfol

/-- **What is left of the groups.** They are those around the marker, with a trailing comma left in
its place if nothing follows, and an empty group if what follows is hidden. -/
theorem groupsOutside_span (hlaid : Laid source (pre ++ m :: post))
    (hvis : Shows source (pre ++ m :: post))
    (hx : Extracted source (pre ++ m :: post) m pre.length e)
    (hgroups : groups (pre ++ m :: post) = before ++ [m] :: after) :
    (groupsOutside e.span (pre ++ m :: post) = before ++ after ∧
      (after ≠ [] → ¬ CommaHidden source pre m post)) ∨
    (groupsOutside e.span (pre ++ m :: post) = before ++ [[]] ∧ after = []) ∨
    (groupsOutside e.span (pre ++ m :: post) = before ++ [] :: after ∧ after ≠ [] ∧
      CommaHidden source pre m post) := by
  have hsig : significant (pre ++ m :: post) = significant pre ++ m :: significant post := by
    rw [significant_append, significant_cons (isComment_eq_false_of_isPunct hx.slash)]
  have haround : Surrounded pre post before after :=
    hx.surrounded hlaid hvis (by rwa [← hsig])
  obtain ⟨comma, hshape⟩ := hx.shape hlaid
  rw [previousAt_length, getElem?_append_right (by omega),
    show pre.length + 1 - pre.length = 0 + 1 by omega, getElem?_cons_succ,
    ← head?_eq_getElem?] at hshape
  rw [groupsOutside_eq, hsig]
  generalize e.span = span at hshape
  -- what is removed is the comma behind the marker, the one ahead of it or neither
  cases hshape with
  | @behind n start stop hfol hn hle hblank hend =>
    obtain ⟨rest, rfl⟩ := head?_eq_some_iff.mp hfol
    have hnc := isComment_eq_false_of_isPunct hn
    refine .inl ⟨?_, fun _ hhidden => ?_⟩
    · rw [significant_cons hnc, kept_behind hlaid hvis hle hblank hend]
      exact haround.cutAt_behind hnc
    · -- a comma right behind the marker is not hidden
      have hcomment := hhidden.1
      rw [head?_cons, Option.any_some, hnc] at hcomment
      cases hcomment
  | @ahead p hfol hline hbef =>
    obtain ⟨hp, hpunct, _⟩ := commaBefore?_eq_some hbef
    obtain ⟨pre₂, rfl⟩ := getLast?_eq_some_iff.mp hp
    have hpc := isComment_eq_false_of_isPunct hpunct
    refine .inl ⟨?_, fun _ hhidden => ?_⟩
    · rw [append_assoc] at hlaid hvis
      rw [significant_append, significant_cons hpc, append_assoc]
      exact (congrArg _ (kept_ahead hlaid hvis)).trans (haround.cutAt_ahead hpc)
    · rw [hhidden.2] at hbef
      cases hbef
  | @alone start stop hfol hwhy hle hblank hend =>
    rw [kept_alone hlaid hvis hle hblank hend]
    rcases haround.cutAt_alone with hend | ⟨hcut, hne, c, us, hc, hpost⟩
    · exact .inr (.inl hend)
    · refine .inr (.inr ⟨hcut, hne, comment_of_comma_behind hc hpost hfol, ?_⟩)
      rcases hwhy with hline | hnone
      · refine commaBefore?_of_wholeLine? (fun p hp => ?_) hline
        have hmem := mem_of_getLast? hp
        exact ⟨hlaid.spelled p (by simp [hmem]), hlaid.apart.1 p hmem⟩
      · exact hnone

theorem withoutTrailing_concat (gs : List (List Token)) : withoutTrailing (gs ++ [[]]) = gs := by
  simp [withoutTrailing]

theorem withoutTrailing_of_forall {gs : List (List Token)} (h : ∀ g ∈ gs, g ≠ []) :
    withoutTrailing gs = gs :=
  if_neg fun hlast => h [] (mem_of_getLast? hlast) rfl

theorem withoutTrailing_insert_ne (before : List (List Token)) (h : after ≠ []) :
    withoutTrailing (before ++ [] :: after) ≠ withoutTrailing (before ++ after) := by
  obtain ⟨gs, g, rfl⟩ := (eq_nil_or_concat' after).resolve_left h
  have hlast : (before ++ [] :: (gs ++ [g])).getLast? = (before ++ (gs ++ [g])).getLast? := by
    rw [← cons_append, ← append_assoc, ← append_assoc, getLast?_concat, getLast?_concat]
  intro heq
  have hlen := congrArg List.length heq
  unfold withoutTrailing at hlen
  rw [hlast] at hlen
  split at hlen <;> simp at hlen

/-- **Removing the marker keeps the parameter list, unless the comma behind it is hidden.** The
groups left by a deletion are those around the marker, up to a trailing comma. They are not when a
comment right behind the marker hides the comma that follows, with none ahead of the marker on its
line; then an empty group stands where the marker stood. -/
theorem regroup_iff {start stop : Nat} {children : List Tree} {pre post : List Token} {m : Token}
    {e : Extraction} {before after : List (List Token)} (hle : start ≤ stop)
    (hlen : stop ≤ source.length) (hin : ∀ c ∈ children, c.start ≤ c.stop ∧ c.stop ≤ stop)
    (hshows : ShowsNodes source children)
    (htokens : tokenize source start stop children = pre ++ m :: post)
    (hext : extract source (tokenize source start stop children) target scope = .ok (some e))
    (hm : m.isPunct "/" = true)
    (hgroups : groups (tokenize source start stop children) = before ++ [m] :: after)
    (hbefore : ∀ g ∈ before, g ≠ []) :
    (withoutTrailing (groupsOutside e.span (tokenize source start stop children)) =
        withoutTrailing (before ++ after) ↔ ¬ (after ≠ [] ∧ CommaHidden source pre m post)) ∧
      (after ≠ [] ∧ CommaHidden source pre m post →
        groupsOutside e.span (tokenize source start stop children) = before ++ [] :: after) := by
  have hlaid := laid_tokenize hle hlen hin
  have hvis : Shows source (tokenize source start stop children) := fun t ht hc =>
    visible_of_mem_tokenize hin hshows ht hc
  rw [htokens] at hlaid hvis hext hgroups ⊢
  have hx := extracted_at hlaid hm hext hgroups
  rcases groupsOutside_span hlaid hvis hx hgroups with ⟨hg, hseen⟩ | ⟨hg, rfl⟩ | ⟨hg, hne, hhidden⟩
  · rw [hg]
    exact ⟨iff_of_true rfl fun h => hseen h.1 h.2, fun h => absurd h.2 (hseen h.1)⟩
  · rw [hg, withoutTrailing_concat, List.append_nil, withoutTrailing_of_forall hbefore]
    exact ⟨iff_of_true rfl fun h => h.1 rfl, fun h => absurd rfl h.1⟩
  · rw [hg]
    exact ⟨iff_of_false (withoutTrailing_insert_ne before hne) fun h => h ⟨hne, hhidden⟩,
      fun _ => rfl⟩

/-- A comment between the marker and its comma: the deletion leaves two commas in a row, unless the
comma ahead of the marker is on its line. -/
theorem regroup_iff_comma_hidden :
    (extract "a, # c\n/ # d\n, b" (tokenize "a, # c\n/ # d\n, b" 0 16 []) .function .module =
        .ok (some ⟨.function, [⟨"a", 0, 1⟩], ⟨7, 8⟩, ⟨7, 8⟩, .module⟩) ∧
      groupsOutside ⟨7, 8⟩ (tokenize "a, # c\n/ # d\n, b" 0 16 []) =
        [[⟨.name, "a", 0, 1⟩]] ++ [] :: [[⟨.name, "b", 15, 16⟩]] ∧
      withoutTrailing (groupsOutside ⟨7, 8⟩ (tokenize "a, # c\n/ # d\n, b" 0 16 [])) ≠
        withoutTrailing ([[⟨.name, "a", 0, 1⟩]] ++ [[⟨.name, "b", 15, 16⟩]])) ∧
    extract "a, / # d\n, b" (tokenize "a, / # d\n, b" 0 12 []) .function .module =
        .ok (some ⟨.function, [⟨"a", 0, 1⟩], ⟨3, 4⟩, ⟨1, 4⟩, .module⟩) ∧
      withoutTrailing (groupsOutside ⟨1, 4⟩ (tokenize "a, / # d\n, b" 0 12 [])) =
        withoutTrailing ([[⟨.name, "a", 0, 1⟩]] ++ [[⟨.name, "b", 11, 12⟩]]) := by
  constructor
  · have htokens : tokenize "a, # c\n/ # d\n, b" 0 16 [] =
        [⟨.name, "a", 0, 1⟩, ⟨.punctuation, ",", 1, 2⟩, ⟨.comment, "# c", 3, 6⟩] ++
          ⟨.punctuation, "/", 7, 8⟩ ::
            [⟨.comment, "# d", 9, 12⟩, ⟨.punctuation, ",", 13, 14⟩, ⟨.name, "b", 15, 16⟩] := by
      decide
    have hext : extract "a, # c\n/ # d\n, b" (tokenize "a, # c\n/ # d\n, b" 0 16 []) .function
        .module = .ok (some ⟨.function, [⟨"a", 0, 1⟩], ⟨7, 8⟩, ⟨7, 8⟩, .module⟩) := by
      decide
    have hgroups : groups (tokenize "a, # c\n/ # d\n, b" 0 16 []) =
        [[⟨.name, "a", 0, 1⟩]] ++ [⟨.punctuation, "/", 7, 8⟩] :: [[⟨.name, "b", 15, 16⟩]] := by
      decide
    have h := regroup_iff (by decide) (by decide) (by simp) (fun c hc => absurd hc (by simp))
      htokens hext (by decide) hgroups (by decide)
    have hhidden : CommaHidden "a, # c\n/ # d\n, b"
        [⟨.name, "a", 0, 1⟩, ⟨.punctuation, ",", 1, 2⟩, ⟨.comment, "# c", 3, 6⟩]
        ⟨.punctuation, "/", 7, 8⟩
        [⟨.comment, "# d", 9, 12⟩, ⟨.punctuation, ",", 13, 14⟩, ⟨.name, "b", 15, 16⟩] := by
      exact ⟨by decide, by decide⟩
    exact ⟨hext, h.2 ⟨by simp, hhidden⟩, fun heq => h.1.mp heq ⟨by simp, hhidden⟩⟩
  · have htokens : tokenize "a, / # d\n, b" 0 12 [] =
        [⟨.name, "a", 0, 1⟩, ⟨.punctuation, ",", 1, 2⟩] ++ ⟨.punctuation, "/", 3, 4⟩ ::
          [⟨.comment, "# d", 5, 8⟩, ⟨.punctuation, ",", 9, 10⟩, ⟨.name, "b", 11, 12⟩] := by
      decide
    have hext : extract "a, / # d\n, b" (tokenize "a, / # d\n, b" 0 12 []) .function .module =
        .ok (some ⟨.function, [⟨"a", 0, 1⟩], ⟨3, 4⟩, ⟨1, 4⟩, .module⟩) := by
      decide
    have hgroups : groups (tokenize "a, / # d\n, b" 0 12 []) =
        [[⟨.name, "a", 0, 1⟩]] ++ [⟨.punctuation, "/", 3, 4⟩] :: [[⟨.name, "b", 11, 12⟩]] := by
      decide
    have h := regroup_iff (by decide) (by decide) (by simp) (fun c hc => absurd hc (by simp))
      htokens hext (by decide) hgroups (by decide)
    refine ⟨hext, h.1.mpr fun hboth => absurd hboth.2.2 ?_⟩
    decide

end Posonly.Signature
