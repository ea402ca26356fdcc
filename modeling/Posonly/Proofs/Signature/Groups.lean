import Posonly.Proofs.Signature.Span

/-!
# What an extraction is made of

`extract` cuts the tokens at the commas, runs over the heads of the groups and, if it likes what it
finds, gives the names and a span. `Found.Of` says what a run has found after any number of heads,
without the order in which it looked; `Found.step_of` carries it over one head, `Found.steps_of`
over all of them. `extract_eq_some` then opens an extraction once and for all.
-/

open List

namespace Posonly.Signature

/-! ## Cutting at commas -/

section Cut

variable {α : Type} {cut : α → Bool} {l : List α}

/-- Cutting is that of the library. -/
theorem cutAt_eq_splitOnP (cut : α → Bool) (l : List α) : cutAt cut l = l.splitOnP cut := by
  induction l with
  | nil => simp [cutAt]
  | cons a rest ih =>
    rw [cutAt, splitOnP_cons_eq_if_modifyHead, ih]
    split
    · rfl
    · cases h : rest.splitOnP cut with
      | nil => exact absurd h (splitOnP_ne_nil cut rest)
      | cons g gs => rfl

theorem cutAt_ne_nil (cut : α → Bool) (l : List α) : cutAt cut l ≠ [] := by
  rw [cutAt_eq_splitOnP]
  exact splitOnP_ne_nil cut l

theorem cutAt_map {β : Type} (f : β → α) (l : List β) :
    cutAt cut (l.map f) = (cutAt (fun b => cut (f b)) l).map (map f) := by
  induction l with
  | nil => rfl
  | cons b rest ih =>
    rw [map_cons, cutAt, cutAt, ih]
    split
    · rfl
    · cases cutAt (fun b => cut (f b)) rest <;> rfl

/-- Where a piece stands in the list that was cut: at an end of it, or next to an element that was
cut at, with the pieces on that side made from what is beyond. -/
theorem cutAt_eq_append_cons {g : List α} {before after : List (List α)}
    (h : cutAt cut l = before ++ g :: after) :
    ∃ xs ys, l = xs ++ (g ++ ys) ∧
      (before = [] ∧ xs = [] ∨ ∃ us c, cut c = true ∧ xs = us ++ [c] ∧ cutAt cut us = before) ∧
      (after = [] ∧ ys = [] ∨ ∃ c us, cut c = true ∧ ys = c :: us ∧ cutAt cut us = after) := by
  -- an element of the list is cut at, or joins the first piece of the rest
  induction l generalizing before g with
  | nil =>
    rw [cutAt] at h
    obtain ⟨rfl, rfl, rfl⟩ : before = [] ∧ g = [] ∧ after = [] := by
      cases before with
      | nil => simpa [eq_comm] using h
      | cons b bs => exact absurd h (by simp)
    exact ⟨[], [], rfl, .inl ⟨rfl, rfl⟩, .inl ⟨rfl, rfl⟩⟩
  | cons a rest ih =>
    rw [cutAt] at h
    split at h
    · rename_i ha
      cases before with
      | nil =>
        simp only [nil_append, cons.injEq] at h
        obtain ⟨rfl, hrest⟩ := h
        exact ⟨[], a :: rest, rfl, .inl ⟨rfl, rfl⟩, .inr ⟨a, rest, ha, rfl, hrest⟩⟩
      | cons b bs =>
        simp only [cons_append, cons.injEq] at h
        obtain ⟨rfl, hrest⟩ := h
        obtain ⟨xs, ys, rfl, hbefore, hafter⟩ := ih hrest
        refine ⟨a :: xs, ys, rfl, .inr ?_, hafter⟩
        rcases hbefore with ⟨rfl, rfl⟩ | ⟨us, c, hc, rfl, hus⟩
        · exact ⟨[], a, ha, rfl, rfl⟩
        · exact ⟨a :: us, c, hc, rfl, by rw [cutAt, if_pos ha, hus]⟩
    · rename_i ha
      cases hrest : cutAt cut rest with
      | nil => exact absurd hrest (cutAt_ne_nil cut rest)
      | cons p ps =>
        rw [hrest] at h
        cases before with
        | nil =>
          simp only [nil_append, cons.injEq] at h
          obtain ⟨rfl, rfl⟩ := h
          -- `g` is the first piece, so nothing was cut ahead of it in the rest either
          have hfirst : cutAt cut rest = [] ++ p :: ps := hrest
          obtain ⟨xs, ys, rfl, hbefore, hafter⟩ := ih hfirst
          rcases hbefore with ⟨_, rfl⟩ | ⟨us, c, _, _, hus⟩
          · exact ⟨[], ys, rfl, .inl ⟨rfl, rfl⟩, hafter⟩
          · exact absurd hus (cutAt_ne_nil cut us)
        | cons b bs =>
          simp only [cons_append, cons.injEq] at h
          obtain ⟨rfl, rfl⟩ := h
          have hlater : cutAt cut rest = (p :: bs) ++ g :: after := hrest
          obtain ⟨xs, ys, rfl, hbefore, hafter⟩ := ih hlater
          refine ⟨a :: xs, ys, rfl, .inr ?_, hafter⟩
          rcases hbefore with ⟨hnil, _⟩ | ⟨us, c, hc, rfl, hus⟩
          · cases hnil
          · exact ⟨a :: us, c, hc, rfl, by rw [cutAt, if_neg ha, hus]⟩

/-- The heads of the pieces are in the order of the list. -/
theorem cutAt_heads_sublist (cut : α → Bool) (l : List α) :
    ((cutAt cut l).filterMap head?).Sublist l := by
  induction l with
  | nil => exact Sublist.refl _
  | cons a rest ih =>
    rw [cutAt]
    split
    · exact ih.cons a
    · cases hrest : cutAt cut rest with
      | nil => exact (nil_sublist rest).cons_cons a
      | cons g gs =>
        rw [hrest] at ih
        refine Sublist.cons_cons a (Sublist.trans ?_ ih)
        exact (sublist_cons_self g gs).filterMap _

end Cut

/-! ## Heads -/

variable {source : Text} {tokens : List Token} {target : Target} {scope : ScopeKind}
  {h : Token × Nat} {f g : Found} {hs : List (Token × Nat)} {t : Token} {e : Extraction}

theorem heads_sublist (tokens : List Token) : (heads tokens).Sublist tokens.zipIdx :=
  (cutAt_heads_sublist _ _).trans filter_sublist

theorem mem_heads {i : Nat} (h : (t, i) ∈ heads tokens) : tokens[i]? = some t :=
  mk_mem_zipIdx_iff_getElem?.mp ((heads_sublist tokens).subset h)

theorem heads_pairwise (tokens : List Token) : (heads tokens).Pairwise fun s t => s.2 < t.2 := by
  refine Pairwise.sublist (heads_sublist tokens) (pairwise_map.mp ?_)
  rw [zipIdx_map_snd]
  exact pairwise_lt_range'

/-- Groups are cut from tokens with their indices or without, which comes to the same. -/
theorem groups_eq_map (tokens : List Token) : groups tokens = (cutAt (fun p => p.1.isPunct ",")
        (tokens.zipIdx.filter fun p => !p.1.isComment)).map (map Prod.fst) := by
  have hmap : tokens.filter (fun t => !t.isComment) =
      (tokens.zipIdx.filter fun p => !p.1.isComment).map Prod.fst := by
    conv => lhs; rw [← zipIdx_map_fst 0 tokens]
    rw [filter_map]
    rfl
  rw [groups, hmap, cutAt_map]

theorem exists_mem_heads {g : List Token} (h : t :: g ∈ groups tokens) :
    ∃ i, (t, i) ∈ heads tokens := by
  rw [groups_eq_map] at h
  obtain ⟨p, hp, hmap⟩ := mem_map.mp h
  cases p with
  | nil => cases hmap
  | cons q qs =>
    obtain ⟨s, i⟩ := q
    rw [map_cons, cons.injEq] at hmap
    obtain ⟨rfl, _⟩ := hmap
    exact ⟨i, mem_filterMap.mpr ⟨_, hp, rfl⟩⟩

/-! ## What a run over the heads finds -/

/-- Whether the head of a group is the marker. -/
def isMarkerHead (h : Token × Nat) : Bool := h.1.isPunct "/"

/-- Whether a token is a star that ends the positional parameters. -/
def isStar (t : Token) : Bool := t.isPunct "*" || t.isPunct "**"

/-- The parameter that a head names, if it is a name. -/
def parameter? (h : Token × Nat) : Option Parameter :=
  if h.1.kind = .name then some ⟨h.1.text, h.1.start, h.1.stop⟩ else none

/-- The parameters named ahead of the marker. -/
def namesAhead (hs : List (Token × Nat)) : List Parameter :=
  (hs.takeWhile fun h => !isMarkerHead h).filterMap parameter?

/-- What there is to be found in some heads. -/
structure Found.Of (hs : List (Token × Nat)) (f : Found) : Prop where
  marker : f.marker = hs.find? isMarkerHead
  /-- There is no second marker. -/
  single : (hs.filter isMarkerHead).length ≤ 1
  names : f.names = namesAhead hs
  star : f.star = (hs.map Prod.fst).find? isStar

theorem Found.of_nil : Found.Of [] {} := ⟨rfl, Nat.zero_le _, rfl, rfl⟩

theorem isStar_eq_false_of_slash (h : t.isPunct "/" = true) : isStar t = false := by
  simp only [Token.isPunct, Bool.and_eq_true, beq_iff_eq] at h
  rw [isStar, Token.isPunct, Token.isPunct, h.1, h.2]
  rfl

theorem parameter?_of_isPunct {text : Text} (hp : h.1.isPunct text = true) :
    parameter? h = none := by
  simp only [Token.isPunct, Bool.and_eq_true, beq_iff_eq] at hp
  rw [parameter?, if_neg (by rw [hp.1]; decide)]

/-- A head that comes last adds its name if no marker has been found yet. -/
theorem namesAhead_append (hs : List (Token × Nat)) (h : Token × Nat) : namesAhead (hs ++ [h]) =
      namesAhead hs ++ if (hs.find? isMarkerHead).isNone then (parameter? h).toList else [] := by
  unfold namesAhead
  split
  · rename_i hnone
    have hall : ∀ x ∈ hs, (!isMarkerHead x) = true := fun x hx => by
      simpa using find?_eq_none.mp (Option.isNone_iff_eq_none.mp hnone) x hx
    rw [takeWhile_append_of_pos hall, takeWhile_eq_self_iff.mpr hall,
      filterMap_append, append_cancel_left_eq, takeWhile_cons]
    split
    · cases hp : parameter? h <;> simp [hp]
    · rename_i hm
      have hslash : h.1.isPunct "/" = true := by simpa [isMarkerHead] using hm
      rw [parameter?_of_isPunct hslash]
      rfl
  · rename_i hsome
    obtain ⟨x, hx, hm⟩ : ∃ x ∈ hs, isMarkerHead x = true := by
      rw [← find?_isSome, ← Option.not_isNone, Bool.eq_false_iff.mpr hsome]
      rfl
    rw [takeWhile_append, if_neg, append_nil]
    intro hlen
    have hall := takeWhile_eq_self_iff.mp
      ((List.takeWhile_prefix (l := hs) fun h => !isMarkerHead h).eq_of_length hlen) x hx
    rw [hm] at hall
    cases hall

theorem Found.Of.append_other
    (hf : f.Of hs) (hm : isMarkerHead h = false) (hmarker : g.marker = f.marker)
    (hnames : g.names = f.names ++ if f.marker.isNone then (parameter? h).toList else [])
    (hstar : g.star = f.star.or (if isStar h.1 then some h.1 else none)) : g.Of (hs ++ [h]) where
  marker := by
    rw [hmarker, hf.marker, find?_append, find?_singleton, hm]
    simp
  single := by
    rw [filter_append, filter_singleton, hm]
    simpa using hf.single
  names := by rw [hnames, namesAhead_append, ← hf.names, ← hf.marker]
  star := by
    rw [hstar, map_append, find?_append, ← hf.star, map_singleton, find?_singleton]

/-- **One head more**: the marker, which may not be the second one, a star, a name or neither. -/
theorem Found.step_of (hf : f.Of hs)
    (hstep : f.step h = .ok g) : g.Of (hs ++ [h]) := by
  unfold Found.step at hstep
  dsimp only at hstep
  split at hstep
  · rename_i hslash
    have hm : isMarkerHead h = true := hslash
    split at hstep
    · cases hstep
    · rename_i hnone
      cases hstep
      -- no marker so far: this one is the first
      have hnone : hs.find? isMarkerHead = none := by rw [← hf.marker]; simpa using hnone
      have hfilter : hs.filter isMarkerHead = [] := filter_eq_nil_iff.mpr (find?_eq_none.mp hnone)
      refine ⟨?_, ?_, ?_, ?_⟩
      · rw [find?_append, hnone, find?_singleton, if_pos hm]
        rfl
      · rw [filter_append, hfilter, filter_singleton, hm]
        exact Nat.le_refl 1
      · rw [namesAhead_append, hnone, parameter?_of_isPunct hslash, ← hf.names]
        simp
      · rw [map_append, find?_append, ← hf.star, map_singleton,
          find?_singleton, isStar_eq_false_of_slash hslash]
        simp
  · rename_i hslash
    have hm : isMarkerHead h = false := by simpa [isMarkerHead] using hslash
    split at hstep
    · rename_i hstar
      cases hstep
      refine hf.append_other hm rfl ?_ ?_
      · rcases Bool.or_eq_true _ _ |>.mp hstar with hp | hp <;> simp [parameter?_of_isPunct hp]
      · rw [isStar, if_pos hstar]
        cases f.star <;> rfl
    · rename_i hstar
      have hnone : (if isStar h.1 = true then some h.1 else none) = none := if_neg hstar
      split at hstep
      · rename_i hname
        cases hstep
        rw [Bool.and_eq_true, beq_iff_eq] at hname
        refine hf.append_other hm rfl ?_ (by rw [hnone, Option.or_none])
        rw [if_pos hname.2, parameter?, if_pos hname.1]
        rfl
      · rename_i hname
        cases hstep
        refine hf.append_other hm rfl ?_ (by rw [hnone, Option.or_none])
        split
        · rename_i hfree
          rw [parameter?, if_neg (fun hk => hname (by rw [hk, hfree]; rfl))]
          simp
        · simp

/-- What is found holds for all heads, by going over them one by one. -/
theorem Found.steps_of {hs rest : List (Token × Nat)} (hf : f.Of hs)
    (hsteps : f.steps rest = .ok g) : g.Of (hs ++ rest) := by
  induction rest generalizing hs f with
  | nil =>
    rw [Found.steps] at hsteps
    injection hsteps with hsteps
    rwa [append_nil, ← hsteps]
  | cons h rest ih =>
    rw [Found.steps] at hsteps
    split at hsteps
    · cases hsteps
    · rename_i f' hstep
      rw [append_cons]
      exact ih (Found.step_of hf hstep) hsteps

/-! ## Extractions -/

/-- The token ahead of an index. -/
def previousAt (tokens : List Token) (index : Nat) : Option Token :=
  if index = 0 then none else tokens[index - 1]?

/-- What an extraction was made of: its marker is the one head that is a marker, and its names are
those of the heads ahead. -/
structure Extracted (source : Text) (tokens : List Token) (marker : Token) (index : Nat)
    (e : Extraction) : Prop where
  head : (marker, index) ∈ heads tokens
  slash : marker.isPunct "/" = true
  /-- No other head is a marker. -/
  only : ∀ h ∈ heads tokens, isMarkerHead h = true → h = (marker, index)
  markerRange : e.marker = marker.range
  names : e.names = namesAhead (heads tokens)
  namesNonempty : e.names ≠ []
  span : e.span = markerSpan source (previousAt tokens index) marker tokens[index + 1]?

/-- **An extraction is opened**: nothing else is known of `extract` when it gives one. -/
theorem extract_eq_some (h : extract source tokens target scope = .ok (some e)) :
    e.target = target ∧ e.scope = scope ∧
      ∃ marker index, Extracted source tokens marker index e := by
  unfold extract at h
  split at h
  · cases h
  · rename_i found hsteps
    have hof := Found.steps_of Found.of_nil hsteps
    rw [nil_append] at hof
    split at h
    · cases h
    · rename_i marker index hmarker
      have hfind := hof.marker.symm.trans hmarker
      have hmem := mem_of_find?_eq_some hfind
      have hslash : isMarkerHead (marker, index) = true := find?_some hfind
      split at h
      · cases h
      · split at h
        · cases h
        · rename_i hnames
          injection h with h
          cases h
          refine ⟨rfl, rfl, marker, index, hmem, hslash, ?_, rfl, hof.names, ?_, ?_⟩
          · intro h hh hm
            have h1 := mem_filter.mpr ⟨hh, hm⟩
            have h2 := mem_filter.mpr ⟨hmem, hslash⟩
            have hone := hof.single
            -- two different markers would make the list of markers too long
            match hlist : (heads tokens).filter isMarkerHead, h1, h2, hone with
            | [x], h1, h2, _ => rw [mem_singleton.mp h1, mem_singleton.mp h2]
            | _ :: _ :: _, _, _, hone => exact absurd hone (by simp)
          · intro hnil
            exact hnames (isEmpty_iff.mpr hnil)
          · rw [markerSpanAt, mem_heads hmem]
            rfl

/-- A token ahead of the marker is a name, since there are names and they are from there. -/
theorem Extracted.exists_name {marker : Token} {index : Nat}
    (h : Extracted source tokens marker index e) :
    ∃ t i, tokens[i]? = some t ∧ t.kind = .name ∧ i < index := by
  obtain ⟨p, hp⟩ := exists_mem_of_ne_nil _ h.namesNonempty
  rw [h.names, namesAhead] at hp
  obtain ⟨⟨t, i⟩, hmem, hparam⟩ := mem_filterMap.mp hp
  have hkind : t.kind = .name := by
    by_contra hne
    rw [parameter?, if_neg hne] at hparam
    cases hparam
  -- the heads up to the marker have lower indices than the marker
  have hsplit := takeWhile_append_dropWhile (p := fun h => !isMarkerHead h)
    (l := heads tokens)
  have hdrop : (marker, index) ∈ (heads tokens).dropWhile fun h => !isMarkerHead h := by
    have hin := h.head
    rw [← hsplit] at hin
    rcases mem_append.mp hin with hin | hin
    · have := mem_takeWhile_imp hin
      rw [isMarkerHead, h.slash] at this
      cases this
    · exact hin
  have hord := heads_pairwise tokens
  rw [← hsplit] at hord
  have hlt := (pairwise_append.mp hord).2.2 _ hmem _ hdrop
  exact ⟨t, i, mem_heads ((takeWhile_sublist _).subset hmem), hkind, hlt⟩

end Posonly.Signature
