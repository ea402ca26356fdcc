import Posonly.Conversion.Failure
import Posonly.Proofs.Signature.Regrouping

/-!
# Which parameter lists have a marker in its place

A marker stands for itself: it should be a group of its own, with a parameter somewhere ahead of it
and no star. `extract` decides this in one run over the heads of the groups. `heads_split` follows
the groups around a marker to their heads, `Found.steps_cases` says what comes of the run, and
`extract_accepts_iff` says of every token list which of the three answers it gets.

The run looks at heads alone, so whatever else is in the group of the marker is not seen. A list
with `a, / b` in it is accepted, and the marker goes as if it stood alone (`extract_slash_name`).
-/

open List

namespace Posonly.Signature

/-! ## Groups by their heads -/

/-- Whether a group is headed by some punctuation. -/
def headedBy (text : Text) (g : List Token) : Bool := g.head?.any (·.isPunct text)

/-- Whether a group is headed by one or two stars. -/
def headedByStar (g : List Token) : Bool := g.head?.any isStar

/-- The parameter that a group names, if it is headed by a name. -/
def named? (g : List Token) : Option Parameter :=
  (g.head?.filter (·.kind = .name)).map fun t => ⟨t.text, t.start, t.stop⟩

/-- One group of a token list is headed by a marker. -/
structure MarkedOnce (tokens : List Token) (before : List (List Token)) (marker : Token)
    (rest : List Token) (after : List (List Token)) : Prop where
  cut : groups tokens = before ++ (marker :: rest) :: after
  slash : marker.isPunct "/" = true
  ahead : ∀ g ∈ before, headedBy "/" g = false
  behind : ∀ g ∈ after, headedBy "/" g = false

/-- The head of the first group that is headed by a star. -/
def firstStar (tokens : List Token) : Option Token :=
  ((groups tokens).filterMap head?).find? isStar

/-- Punctuation starts ahead of everything that comes later in the list. -/
def PunctuationFirst (tokens : List Token) : Prop :=
  tokens.Pairwise fun s t => s.kind = .punctuation → s.start < t.start

variable {source : Text} {tokens : List Token} {target : Target} {scope : ScopeKind}
  {before after : List (List Token)} {marker : Token} {rest : List Token} {hs : List (Token × Nat)}

theorem filterMap_head?_map (cs : List (List (Token × Nat))) :
    (cs.map (map Prod.fst)).filterMap head? = (cs.filterMap head?).map Prod.fst := by
  rw [filterMap_map, map_filterMap]
  exact filterMap_congr fun c _ => head?_map

theorem heads_map_fst (tokens : List Token) :
    (heads tokens).map Prod.fst = (groups tokens).filterMap head? := by
  rw [groups_eq_map, filterMap_head?_map, heads]

theorem heads_split (h : groups tokens = before ++ (marker :: rest) :: after) :
    ∃ ahead i behind, heads tokens = ahead ++ (marker, i) :: behind ∧
      ahead.map Prod.fst = before.filterMap head? ∧
      behind.map Prod.fst = after.filterMap head? := by
  rw [groups_eq_map] at h
  obtain ⟨cb, cs, hcut, rfl, htail⟩ := map_eq_append_iff.mp h
  obtain ⟨c, ca, rfl, hmid, rfl⟩ := map_eq_cons_iff.mp htail
  obtain ⟨p, ps, rfl, rfl, _⟩ := map_eq_cons_iff.mp hmid
  refine ⟨cb.filterMap head?, p.2, ca.filterMap head?, ?_, ?_, ?_⟩
  · rw [heads, hcut, filterMap_append]
    rfl
  · exact (filterMap_head?_map cb).symm
  · exact (filterMap_head?_map ca).symm

theorem countP_heads (tokens : List Token) :
    (heads tokens).countP isMarkerHead = (groups tokens).countP (headedBy "/") := by
  have hmap : (heads tokens).countP isMarkerHead =
      ((heads tokens).map Prod.fst).countP (·.isPunct "/") := by
    rw [countP_map]
    rfl
  rw [hmap, heads_map_fst, countP_filterMap]
  congr 1
  funext g
  cases g <;> rfl

/-! ## The run over the heads -/

theorem Found.step_error {f : Found} {h : Token × Nat}
    {fault : MarkerFault} (hf : f.Of hs) (hstep : f.step h = .error fault) :
    fault = .duplicate h.1.range ∧ isMarkerHead h = true ∧ 0 < hs.countP isMarkerHead := by
  unfold Found.step at hstep
  dsimp only at hstep
  split_ifs at hstep with hslash hsome
  injection hstep with hstep
  rw [hf.marker, find?_isSome] at hsome
  exact ⟨hstep.symm, hslash, countP_pos_iff.mpr hsome⟩

/-- **The run over the heads** finds all there is to be found, or stops at a second marker. -/
theorem Found.steps_cases (rest : List (Token × Nat)) {f : Found}
    (hf : f.Of hs) :
    (∃ g, f.steps rest = .ok g ∧ g.Of (hs ++ rest)) ∨
      ∃ h ∈ rest, isMarkerHead h = true ∧ f.steps rest = .error (.duplicate h.1.range) ∧
        1 < (hs ++ rest).countP isMarkerHead := by
  induction rest generalizing hs f with
  | nil => exact .inl ⟨f, rfl, by rw [append_nil]; exact hf⟩
  | cons h rest ih =>
    rw [Found.steps]
    cases hstep : f.step h with
    | error fault =>
      obtain ⟨rfl, hm, hpos⟩ := Found.step_error hf hstep
      refine .inr ⟨h, mem_cons_self .., hm, rfl, ?_⟩
      rw [countP_append, countP_cons_of_pos hm]
      omega
    | ok f' =>
      rw [append_cons]
      rcases ih (Found.step_of hf hstep) with hok | ⟨h', hmem, hm, herr, htwo⟩
      · exact .inl hok
      · exact .inr ⟨h', mem_cons_of_mem _ hmem, hm, herr, htwo⟩

/-! ## The three answers -/

theorem marked_cases (tokens : List Token) : (∀ g ∈ groups tokens, headedBy "/" g = false) ∨
      (∃ before marker rest after, MarkedOnce tokens before marker rest after) ∨
      1 < (groups tokens).countP (headedBy "/") := by
  cases hfilter : (groups tokens).filter (headedBy "/") with
  | nil => exact .inl fun g hg => by simpa using filter_eq_nil_iff.mp hfilter g hg
  | cons g gs =>
    refine .inr ?_
    obtain ⟨before, after, hgroups, hahead, hg, hbehind⟩ := filter_eq_cons_iff.mp hfilter
    cases gs with
    | nil =>
      cases g with
      | nil => cases hg
      | cons marker rest =>
        refine .inl ⟨before, marker, rest, after, hgroups, hg, fun x hx => ?_, fun x hx => ?_⟩
        · simpa using hahead x hx
        · simpa using filter_eq_nil_iff.mp hbehind x hx
    | cons g' gs =>
      refine .inr ?_
      rw [countP_eq_length_filter, hfilter]
      simp

theorem extract_of_unmarked (h : ∀ g ∈ groups tokens, headedBy "/" g = false) :
    extract source tokens target scope = .ok none := by
  have hzero : (heads tokens).countP isMarkerHead = 0 := by
    rw [countP_heads, countP_eq_zero]
    exact fun g hg => by simp [h g hg]
  rcases Found.steps_cases (heads tokens) Found.of_nil with ⟨f, hok, hof⟩ | ⟨_, _, _, _, htwo⟩
  · rw [nil_append] at hof
    have hnone : f.marker = none := by
      rw [hof.marker, find?_eq_none]
      exact countP_eq_zero.mp hzero
    rw [extract, hok]
    dsimp only
    rw [hnone]
  · rw [nil_append] at htwo
    omega

theorem extract_of_marked_again (h : 1 < (groups tokens).countP (headedBy "/")) :
    ∃ m rest, m :: rest ∈ groups tokens ∧ m.isPunct "/" = true ∧
      extract source tokens target scope = .error (.duplicate m.range) := by
  rcases Found.steps_cases (heads tokens) Found.of_nil with ⟨f, _, hof⟩ |
    ⟨⟨m, i⟩, hmem, hm, herr, _⟩
  · have hone := hof.single
    rw [nil_append, ← countP_eq_length_filter, countP_heads] at hone
    omega
  · have hhead : m ∈ (groups tokens).filterMap head? := by
      rw [← heads_map_fst]
      exact mem_map_of_mem hmem
    obtain ⟨g, hg, hm'⟩ := mem_filterMap.mp hhead
    obtain ⟨rest, rfl⟩ := head?_eq_some_iff.mp hm'
    exact ⟨m, rest, hg, hm, by rw [extract, herr]⟩

section

variable (h : MarkedOnce tokens before marker rest after)

include h

theorem MarkedOnce.heads_ahead : ∃ ahead i behind, heads tokens = ahead ++ (marker, i) :: behind ∧
      ahead.map Prod.fst = before.filterMap head? ∧ ∀ x ∈ ahead, isMarkerHead x = false := by
  obtain ⟨ahead, i, behind, hheads, hahead, _⟩ := heads_split h.cut
  refine ⟨ahead, i, behind, hheads, hahead, fun x hx => ?_⟩
  have hmem : x.1 ∈ before.filterMap head? := by
    rw [← hahead]
    exact mem_map_of_mem hx
  obtain ⟨g, hg, hhead⟩ := mem_filterMap.mp hmem
  have hfalse := h.ahead g hg
  rwa [headedBy, hhead] at hfalse

/-- **The names ahead of the marker** are those of the groups ahead, one for each that is headed by
a name. -/
theorem MarkedOnce.names : namesAhead (heads tokens) = before.filterMap named? := by
  obtain ⟨ahead, i, behind, hheads, hahead, hnone⟩ := h.heads_ahead
  have hmarker : ¬ (!isMarkerHead (marker, i)) = true := by simp [isMarkerHead, h.slash]
  have hparameter : ∀ t j, parameter? (t, j) = named? [t] := fun t j => by
    simp only [parameter?, named?, head?_cons, Option.filter_some, decide_eq_true_eq]
    split <;> rfl
  calc namesAhead (heads tokens)
      = ahead.filterMap parameter? := by
        rw [hheads, namesAhead, takeWhile_append_of_pos fun x hx => by simp [hnone x hx],
          takeWhile_cons_of_neg (p := fun x => !isMarkerHead x) hmarker, append_nil]
    _ = (ahead.map Prod.fst).filterMap fun t => named? [t] := by
        rw [filterMap_map]
        exact filterMap_congr fun x _ => hparameter x.1 x.2
    _ = before.filterMap named? := by
        rw [hahead, filterMap_filterMap]
        refine filterMap_congr fun g _ => ?_
        cases g <;> rfl

/-- **One marker** is refused behind a star and without a name ahead of it, and accepted otherwise.
-/
theorem MarkedOnce.extract_cases (source : Text) (target : Target) (scope : ScopeKind) :
    (∃ star, firstStar tokens = some star ∧ star.start < marker.start ∧
        extract source tokens target scope = .error (.afterStar star.text marker.range)) ∨
      (before.filterMap named? = [] ∧
        extract source tokens target scope = .error (.withoutParameters marker.range)) ∨
      (before.filterMap named? ≠ [] ∧
        (∀ star, firstStar tokens = some star → marker.start ≤ star.start) ∧
        ∃ e, extract source tokens target scope = .ok (some e)) := by
  obtain ⟨ahead, i, behind, hheads, _, hnone⟩ := h.heads_ahead
  -- the heads are read through, or two of them are markers
  rcases Found.steps_cases (heads tokens) Found.of_nil with ⟨f, hok, hof⟩ |
    ⟨_, _, _, _, htwo⟩
  · rw [nil_append] at hof
    have hslash : isMarkerHead (marker, i) = true := h.slash
    have hmarker : f.marker = some (marker, i) := by
      rw [hof.marker, hheads, find?_append,
        find?_eq_none.mpr fun x hx => by simp [hnone x hx], find?_cons_of_pos hslash]
      rfl
    have hstar : f.star = firstStar tokens := by rw [hof.star, heads_map_fst, firstStar]
    have hnames : f.names = before.filterMap named? := hof.names.trans h.names
    rw [extract, hok]
    dsimp only
    rw [hmarker]
    dsimp only
    -- a star counts only if it stands ahead of the marker
    cases hfirst : (f.star.filter fun star => star.start < marker.start) with
    | some star =>
      obtain ⟨hs, hlt⟩ := Option.filter_eq_some_iff.mp hfirst
      exact .inl ⟨star, by rw [← hstar, hs], by simpa using hlt, rfl⟩
    | none =>
      refine .inr ?_
      dsimp only
      split
      · rename_i hempty
        exact .inl ⟨hnames.symm.trans (isEmpty_iff.mp hempty), rfl⟩
      · rename_i hne
        refine .inr ⟨fun hnil => hne (by rw [hnames, hnil]; rfl), fun star hs => ?_, _, rfl⟩
        have hle := Option.filter_eq_none_iff.mp hfirst star (by rw [hstar, hs])
        simpa using hle
  · rw [nil_append, countP_heads, h.cut, countP_append, countP_cons,
      countP_eq_zero.mpr fun g hg => by simp [h.ahead g hg],
      countP_eq_zero.mpr fun g hg => by simp [h.behind g hg]] at htwo
    split at htwo <;> omega

end

/-! ## Stars and offsets -/

/-- Among tokens in order, no star starts ahead of the marker exactly if no group ahead of it is
headed by one. -/
theorem MarkedOnce.star_iff (h : MarkedOnce tokens before marker rest after)
    (hord : PunctuationFirst tokens) :
    (∀ star, firstStar tokens = some star → marker.start ≤ star.start) ↔
      ∀ g ∈ before, headedByStar g = false := by
  have hheads : (groups tokens).filterMap head? =
      before.filterMap head? ++ marker :: after.filterMap head? := by
    rw [h.cut, filterMap_append]
    rfl
  have hpunct : ∀ t, isStar t = true → t.kind = .punctuation := by
    intro t ht
    simp only [isStar, Token.isPunct, Bool.or_eq_true, Bool.and_eq_true, beq_iff_eq] at ht
    exact ht.elim And.left And.left
  -- the heads stand in the order of the tokens
  have hsub : ((groups tokens).filterMap head?).Sublist tokens :=
    (cutAt_heads_sublist _ _).trans filter_sublist
  have hpair := hord.sublist hsub
  rw [hheads, pairwise_append, pairwise_cons] at hpair
  obtain ⟨_, ⟨hbehind, _⟩, hahead⟩ := hpair
  rw [firstStar, hheads, find?_append]
  constructor
  · intro hfree g hg
    cases hfind : (before.filterMap head?).find? isStar with
    | none =>
      cases g with
      | nil => rfl
      | cons t r =>
        have hmem : t ∈ before.filterMap head? := mem_filterMap.mpr ⟨_, hg, rfl⟩
        simpa [headedByStar] using find?_eq_none.mp hfind t hmem
    | some star =>
      -- the first star stands ahead of the marker, so it starts ahead of it
      exfalso
      have hlt := hahead star (mem_of_find?_eq_some hfind) marker (.head _)
        (hpunct star (find?_some hfind))
      have hle := hfree star (by rw [hfind]; rfl)
      omega
  · intro hnone star hstar
    have hfind : (before.filterMap head?).find? isStar = none := by
      refine find?_eq_none.mpr fun t ht => ?_
      obtain ⟨g, hg, hhead⟩ := mem_filterMap.mp ht
      have hfalse := hnone g hg
      rw [headedByStar, hhead] at hfalse
      simpa using hfalse
    have hslash : ¬ isStar marker = true := by simp [isStar_eq_false_of_slash h.slash]
    have hkind : marker.kind = .punctuation := by
      have := h.slash
      simp only [Token.isPunct, Bool.and_eq_true, beq_iff_eq] at this
      exact this.1
    rw [hfind, Option.none_or, find?_cons_of_neg hslash] at hstar
    exact Nat.le_of_lt (hbehind star (mem_of_find?_eq_some hstar) hkind)

theorem punctuationFirst_tokenize {start stop : Nat} {children : List Tree} (hle : start ≤ stop)
    (hlen : stop ≤ source.length) (hin : ∀ c ∈ children, c.start ≤ c.stop ∧ c.stop ≤ stop) :
    PunctuationFirst (tokenize source start stop children) := by
  refine (laid_tokenize hle hlen hin).pairwise.imp_of_mem fun {s t} hs _ hnext hk => ?_
  have hpos : s.start < s.stop := by
    rcases mem_tokenize hin hs with ⟨c, hc, hcl⟩ | ⟨k, e, hke, _, hlex⟩
    · cases hcl with
      | skipped _ hp _ _ hslice => exact (visible_of_isPunctuation hp hslice).lt
      | mark _ hp => exact (visible_of_isPunctuation hp rfl).lt
      | comment | name | error | other => cases hk
    · have := hlex.range hke
      omega
  omega

/-! ## Results -/

/-- What a list has to be like for its marker to be accepted. -/
def Accepts (tokens : List Token) : Prop :=
  ∃ before marker rest after, MarkedOnce tokens before marker rest after ∧
    (∃ g ∈ before, (named? g).isSome) ∧
    ∀ star, firstStar tokens = some star → marker.start ≤ star.start

/-- A marker in its place: a group of its own, behind a parameter and ahead of all stars. -/
def WellMarked (tokens : List Token) : Prop :=
  ∃ before marker after, MarkedOnce tokens before marker [] after ∧
    (∃ g ∈ before, (named? g).isSome) ∧ ∀ g ∈ before, headedByStar g = false

theorem filterMap_named?_ne_nil {gs : List (List Token)} :
    gs.filterMap named? ≠ [] ↔ ∃ g ∈ gs, (named? g).isSome := by
  simp [filterMap_eq_nil_iff, Option.isSome_iff_ne_none]

theorem Accepts.extract_ok (h : Accepts tokens) (source : Text) (target : Target)
    (scope : ScopeKind) : ∃ e, extract source tokens target scope = .ok (some e) := by
  obtain ⟨before, marker, rest, after, hmarked, hname, hfree⟩ := h
  rcases hmarked.extract_cases source target scope with ⟨star, hstar, hlt, _⟩ | ⟨hnil, _⟩ |
    ⟨_, _, hok⟩
  · have := hfree star hstar
    omega
  · exact absurd hnil (filterMap_named?_ne_nil.mpr hname)
  · exact hok

theorem extract_answers (source : Text) (tokens : List Token) (target : Target)
    (scope : ScopeKind) :
    (∀ g ∈ groups tokens, headedBy "/" g = false) ∧ extract source tokens target scope = .ok none ∨
      Accepts tokens ∧ (∃ e, extract source tokens target scope = .ok (some e)) ∨
      ∃ m rest fault, m :: rest ∈ groups tokens ∧ m.isPunct "/" = true ∧
        extract source tokens target scope = .error fault ∧ fault.range = m.range := by
  rcases marked_cases tokens with hnone | ⟨before, marker, rest, after, hmarked⟩ | hmany
  · exact .inl ⟨hnone, extract_of_unmarked hnone⟩
  · have hmem : marker :: rest ∈ groups tokens := by rw [hmarked.cut]; simp
    refine .inr ?_
    rcases hmarked.extract_cases source target scope with ⟨star, _, _, herr⟩ | ⟨_, herr⟩ |
      ⟨hname, hfree, hok⟩
    · exact .inr ⟨marker, rest, _, hmem, hmarked.slash, herr, rfl⟩
    · exact .inr ⟨marker, rest, _, hmem, hmarked.slash, herr, rfl⟩
    · exact .inl ⟨⟨before, marker, rest, after, hmarked, filterMap_named?_ne_nil.mp hname, hfree⟩,
        hok⟩
  · obtain ⟨m, rest, hmem, hslash, herr⟩ := extract_of_marked_again hmany
    exact .inr (.inr ⟨m, rest, _, hmem, hslash, herr, rfl⟩)

theorem wellMarked_iff (hord : PunctuationFirst tokens) :
    WellMarked tokens ↔ Accepts tokens ∧ ∃ m, [m] ∈ groups tokens ∧ m.isPunct "/" = true := by
  constructor
  · rintro ⟨before, marker, after, hmarked, hname, hstar⟩
    refine ⟨⟨before, marker, [], after, hmarked, hname, (hmarked.star_iff hord).mpr hstar⟩,
      marker, ?_, hmarked.slash⟩
    rw [hmarked.cut]
    simp
  · rintro ⟨⟨before, marker, rest, after, hmarked, hname, hfree⟩, m, hmem, hm⟩
    -- the group of the one marker is the only one headed by a marker
    have hheaded : headedBy "/" [m] = true := hm
    rw [hmarked.cut, mem_append, mem_cons] at hmem
    rcases hmem with hmem | hmem | hmem
    · rw [hmarked.ahead _ hmem] at hheaded
      cases hheaded
    · injection hmem with _ hrest
      subst hrest
      exact ⟨before, marker, after, hmarked, hname, (hmarked.star_iff hord).mp hfree⟩
    · rw [hmarked.behind _ hmem] at hheaded
      cases hheaded

/-- **Which token lists are accepted.** There is nothing to extract exactly if no group is headed by
a marker. An extraction is made exactly if one group is, a group ahead of it is headed by a name and
the first star does not start before it. In all other cases some marker is reported. Where the
tokens are in order, the lists with a marker in its place are those accepted ones that have nothing
else in the group of their marker. -/
theorem extract_accepts_iff (source : Text) (tokens : List Token) (target : Target)
    (scope : ScopeKind) :
    (extract source tokens target scope = .ok none ↔
      ∀ g ∈ groups tokens, headedBy "/" g = false) ∧
    ((∃ e, extract source tokens target scope = .ok (some e)) ↔ Accepts tokens) ∧
    ((∃ fault, extract source tokens target scope = .error fault ∧
        (Cause.marker fault).kind = .malformed ∧
        ∃ m rest, m :: rest ∈ groups tokens ∧ m.isPunct "/" = true ∧ fault.range = m.range) ↔
      (∃ g ∈ groups tokens, headedBy "/" g = true) ∧ ¬ Accepts tokens) ∧
    (PunctuationFirst tokens →
      (WellMarked tokens ↔
        Accepts tokens ∧ ∃ m, [m] ∈ groups tokens ∧ m.isPunct "/" = true)) := by
  have hanswers := extract_answers source tokens target scope
  -- each part rules out the other answers
  refine ⟨⟨fun hnone => ?_, extract_of_unmarked⟩,
    ⟨fun ⟨e, he⟩ => ?_, fun h => h.extract_ok source target scope⟩,
    ⟨?_, fun ⟨⟨g, hg, hheaded⟩, hrefused⟩ => ?_⟩, wellMarked_iff⟩
  · rcases hanswers with ⟨hfree, _⟩ | ⟨_, e, he⟩ | ⟨_, _, _, _, _, herr, _⟩
    · exact hfree
    · exact absurd (hnone.symm.trans he) (by simp)
    · exact absurd (hnone.symm.trans herr) (by simp)
  · rcases hanswers with ⟨_, hnone⟩ | ⟨haccepts, _⟩ | ⟨_, _, _, _, _, herr, _⟩
    · exact absurd (he.symm.trans hnone) (by simp)
    · exact haccepts
    · exact absurd (he.symm.trans herr) (by simp)
  · rintro ⟨fault, herr, _, m, rest, hmem, hm, _⟩
    refine ⟨⟨m :: rest, hmem, hm⟩, fun haccepts => ?_⟩
    obtain ⟨e, he⟩ := haccepts.extract_ok source target scope
    exact absurd (he.symm.trans herr) (by simp)
  · rcases hanswers with ⟨hfree, _⟩ | ⟨haccepts, _⟩ | ⟨m, rest, fault, hmem, hm, herr, hrange⟩
    · rw [hfree g hg] at hheaded
      exact absurd hheaded (by simp)
    · exact absurd haccepts hrefused
    · exact ⟨fault, herr, rfl, m, rest, hmem, hm, hrange⟩

/-- Two parameters with a marker and no comma between them: the marker goes, and what is left has
the two on either side of nothing. -/
theorem extract_slash_name :
    extract "a, / b" (tokenize "a, / b" 0 6 []) .lambda .module =
        .ok (some ⟨.lambda, [⟨"a", 0, 1⟩], ⟨3, 4⟩, ⟨1, 4⟩, .module⟩) ∧
      PunctuationFirst (tokenize "a, / b" 0 6 []) ∧ ¬ WellMarked (tokenize "a, / b" 0 6 []) := by
  have hgroups : groups (tokenize "a, / b" 0 6 []) =
      [[⟨.name, "a", 0, 1⟩], [⟨.punctuation, "/", 3, 4⟩, ⟨.name, "b", 5, 6⟩]] := by decide
  have hord : PunctuationFirst (tokenize "a, / b" 0 6 []) :=
    punctuationFirst_tokenize (by decide) (by decide) (by simp)
  refine ⟨by decide, hord, fun hwell => ?_⟩
  obtain ⟨_, m, hmem, hm⟩ :=
    ((extract_accepts_iff "a, / b" (tokenize "a, / b" 0 6 []) .lambda .module).2.2.2 hord).mp hwell
  rw [hgroups] at hmem
  obtain rfl : m = ⟨.name, "a", 0, 1⟩ := by simpa using hmem
  exact absurd hm (by decide)

end Posonly.Signature
