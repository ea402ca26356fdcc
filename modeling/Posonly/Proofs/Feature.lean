import Posonly.Feature
import Posonly.Proofs.Syntax.Lineage

/-!
# Literals that reuse the quotes around them

An interpreter that looks for the closing quotes first ends a format string at whatever literal
inside it uses its quotes, however deep that literal stands. The search for newer constructs holds a
literal against one of the format strings around it only, the nearest whose delimiter can be read.
What the search finds is said node by node in `search_eq`. So all that it reports is right, and what
it misses are the literals that end a format string farther out and not the nearest
(`nestedQuotes_reported`).
-/

open List

namespace Posonly.Feature

/-- The opening delimiter of a string literal that can be read. -/
def literal? (source : Text) (n : Tree) : Option Delimiter :=
  if n.kind = .plainString ∨ n.kind = .formatString then Delimiter.read? source n.start else none

/-- The report on a literal that ends one of some literals around it. -/
def reuse? (source : Text) (around : List Delimiter) (n : Tree) : Option Feature :=
  (literal? source n).bind fun inner =>
    if around.any inner.reuses then some ⟨n.range, .nestedQuote⟩ else none

/-- The literals that are reported to reuse quotes. -/
def nestedQuotes (source : Text) (tree : Tree) (version : PythonVersion) : List Feature :=
  (newerThan source tree version).filter fun f => f.construct = .nestedQuote

/-! ## Node by node -/

/-- What the search finds at a node: of all that stands above it, the kind of its parent and the
delimiter nearest to it count. -/
def found? (source : Text) (x : Lineage) : Option Feature :=
  (construct? source (x.above.head?.map (·.kind)) (delimitersAround source x.above).getLast?
    x.node.kind x.node.range).map (⟨x.node.range, ·⟩)

theorem getLast?_delimitersAround_cons (source : Text) (n : Tree) (above : List Tree) :
    (delimitersAround source (n :: above)).getLast? = if n.kind = .formatString then
        Delimiter.read? source n.start <|> (delimitersAround source above).getLast?
      else (delimitersAround source above).getLast? := by
  rw [delimitersAround_cons, getLast?_append, Tree.delimiter?]
  split
  · cases Delimiter.read? source n.start <;> rfl
  · rfl

variable {source : Text}

theorem searchAll_eq {above ts : List Tree}
    (h : ∀ t ∈ ts,
      search source (above.head?.map (·.kind)) (delimitersAround source above).getLast? t =
      (t.lineages above).filterMap (found? source)) :
    searchAll source (above.head?.map (·.kind)) (delimitersAround source above).getLast? ts =
      (Tree.lineagesAll above ts).filterMap (found? source) := by
  induction ts with
  | nil => rfl
  | cons t ts ih =>
    rw [searchAll, Tree.lineagesAll, filterMap_append, h t (by simp),
      ih fun s hs => h s (.tail _ hs)]

/-- **The search looks at every node**, with the delimiter nearest around it. -/
theorem search_eq (source : Text) (t : Tree) (above : List Tree) :
    search source (above.head?.map (·.kind)) (delimitersAround source above).getLast? t =
      (t.lineages above).filterMap (found? source) := by
  induction t using Tree.byChildren generalizing above with
  | _ t ih =>
    have hbelow := searchAll_eq fun c hc => ih c hc (t :: above)
    rw [getLast?_delimitersAround_cons] at hbelow
    have hnode :
        search source (above.head?.map (·.kind)) (delimitersAround source above).getLast? t =
        (found? source ⟨above, t⟩).toList ++
          (Tree.lineagesAll (t :: above) t.children).filterMap (found? source) := by
      rw [← hbelow]
      cases t
      rw [search]
      rfl
    rw [hnode, Tree.lineages_eq]
    cases hfound : found? source ⟨above, t⟩ with
    | none => rw [filterMap_cons_none hfound]; rfl
    | some f => rw [filterMap_cons_some hfound]; rfl

section

variable {source : Text} {parent : Option Kind} {enclosing : Option Delimiter} {kind : Kind}
  {range : Range}

theorem construct?_literal (hkind : kind = .plainString ∨ kind = .formatString) :
    construct? source parent enclosing kind range =
      (Delimiter.read? source range.start).bind fun inner =>
        if enclosing.toList.any inner.reuses then some .nestedQuote else none := by
  rcases hkind with rfl | rfl <;> unfold construct? <;>
    cases Delimiter.read? source range.start <;> cases enclosing <;> simp

theorem construct?_ne_nestedQuote (hkind : ¬ (kind = .plainString ∨ kind = .formatString)) :
    construct? source parent enclosing kind range ≠ some .nestedQuote := by
  unfold construct?
  split
  · simp
  · split <;> simp
  · simp
  · exact absurd (.inl rfl) hkind
  · exact absurd (.inr rfl) hkind
  · split_ifs <;> simp

end

theorem filter_found? (source : Text) (x : Lineage) :
    (found? source x).filter (fun f => f.construct = .nestedQuote) =
      reuse? source (delimitersAround source x.above).getLast?.toList x.node := by
  unfold found? reuse? literal?
  by_cases hkind : x.node.kind = .plainString ∨ x.node.kind = .formatString
  · rw [if_pos hkind, construct?_literal hkind, Tree.start]
    cases Delimiter.read? source x.node.range.start with
    | none => rfl
    | some inner =>
      simp only [Option.bind_some]
      split <;> simp
  · rw [if_neg hkind, Option.bind_none, Option.filter_eq_none_iff]
    intro f hf
    obtain ⟨c, hc, rfl⟩ := Option.map_eq_some_iff.mp hf
    simp only [decide_eq_true_eq]
    rintro rfl
    exact construct?_ne_nestedQuote hkind hc

/-! ## Reports -/

/-- All that is reported is literals that reuse the delimiter nearest around them. -/
theorem nestedQuotes_eq {tree : Tree} {version : PythonVersion}
    (hold : version.rank < PythonVersion.v312.rank) :
    nestedQuotes source tree version = (tree.lineages []).filterMap fun x =>
      reuse? source (delimitersAround source x.above).getLast?.toList x.node := by
  have hafter :
      ∀ f : Feature, (decide (f.construct = .nestedQuote) && f.construct.since.isAfter version) =
      decide (f.construct = .nestedQuote) := by
    intro f
    cases hf : decide (f.construct = .nestedQuote) with
    | false => rfl
    | true =>
      rw [of_decide_eq_true hf]
      exact decide_eq_true hold
  rw [nestedQuotes, newerThan, filter_filter, filter_congr fun f _ => hafter f]
  have hsearch : search source none none tree = (tree.lineages []).filterMap (found? source) :=
    search_eq source tree []
  rw [hsearch, filter_filterMap]
  exact filterMap_congr fun x _ => filter_found? source x

theorem reuse?_mono {around more : List Delimiter} (hsub : around ⊆ more) {n : Tree}
    {f : Feature} (h : reuse? source around n = some f) : reuse? source more n = some f := by
  obtain ⟨inner, hinner, h⟩ := Option.bind_eq_some_iff.mp h
  refine Option.bind_eq_some_iff.mpr ⟨inner, hinner, ?_⟩
  split at h
  · rename_i hany
    obtain ⟨d, hd, hreuses⟩ := any_eq_true.mp hany
    rwa [if_pos (any_eq_true.mpr ⟨d, hsub hd, hreuses⟩)]
  · cases h

theorem reuse?_isSome_iff {around : List Delimiter} {n : Tree} :
    (reuse? source around n).isSome = true ↔
      ∃ inner, literal? source n = some inner ∧ ∃ d ∈ around, inner.reuses d = true := by
  unfold reuse?
  cases literal? source n with
  | none => simp
  | some inner =>
    rw [Option.bind_some]
    split <;> rename_i hany
    · simpa using hany
    · simpa using hany

section

variable {α β : Type} {f g : α → Option β} (hfg : ∀ x y, f x = some y → g x = some y)

include hfg

theorem filterMap_sublist_filterMap (l : List α) : (l.filterMap f).Sublist (l.filterMap g) := by
  induction l with
  | nil => exact .slnil
  | cons x l ih =>
    cases hf : f x with
    | some y =>
      rw [filterMap_cons_some hf, filterMap_cons_some (hfg x y hf)]
      exact ih.cons_cons y
    | none =>
      rw [filterMap_cons_none hf]
      cases hg : g x with
      | none => rw [filterMap_cons_none hg]; exact ih
      | some y => rw [filterMap_cons_some hg]; exact ih.cons y

theorem filterMap_eq_filterMap_iff (l : List α) :
    l.filterMap f = l.filterMap g ↔ ∀ x ∈ l, (g x).isSome = true → (f x).isSome = true := by
  constructor
  · intro h
    induction l with
    | nil => simp
    | cons x l ih =>
      intro z hz hsome
      cases hf : f x with
      | some y =>
        rw [filterMap_cons_some hf, filterMap_cons_some (hfg x y hf)] at h
        rcases mem_cons.mp hz with rfl | hz
        · rw [hf]; rfl
        · exact ih (List.cons.inj h).2 z hz hsome
      | none =>
        rw [filterMap_cons_none hf] at h
        cases hg : g x with
        | none =>
          rw [filterMap_cons_none hg] at h
          rcases mem_cons.mp hz with rfl | hz
          · rw [hg] at hsome; cases hsome
          · exact ih h z hz hsome
        | some y =>
          -- the rest would have to make up for what is not taken here
          have hle := (filterMap_sublist_filterMap hfg l).length_le
          rw [filterMap_cons_some hg] at h
          rw [h, length_cons] at hle
          omega
  · intro h
    refine filterMap_congr fun x hx => ?_
    cases hf : f x with
    | some y => exact (hfg x y hf).symm
    | none =>
      cases hg : g x with
      | none => rfl
      | some y =>
        have hsome := h x hx (by rw [hg]; rfl)
        rw [hf] at hsome
        cases hsome

end

/-- **Reports on reused quotes are right, and complete as far as the nearest format string goes.**
Under a declared version that lacks them, the literals reported are those that end the nearest
format string above them whose delimiter can be read. All of these do end a format string above
them. The others that do are missed, so the reports are complete exactly if every literal that ends
a format string above it, at any distance, ends the nearest one. -/
theorem nestedQuotes_reported (source : Text) (tree : Tree) (version : PythonVersion)
    (hold : version.rank < PythonVersion.v312.rank) :
    (nestedQuotes source tree version = (tree.lineages []).filterMap fun x =>
      reuse? source (delimitersAround source x.above).getLast?.toList x.node) ∧
    (nestedQuotes source tree version).Sublist ((tree.lineages []).filterMap fun x =>
      reuse? source (delimitersAround source x.above) x.node) ∧
    ((nestedQuotes source tree version = (tree.lineages []).filterMap fun x =>
        reuse? source (delimitersAround source x.above) x.node) ↔
      ∀ x ∈ tree.lineages [], ∀ inner, literal? source x.node = some inner →
        (∃ d ∈ delimitersAround source x.above, inner.reuses d = true) →
          ∃ d ∈ (delimitersAround source x.above).getLast?, inner.reuses d = true) := by
  have hnearest : ∀ (x : Lineage) (f : Feature),
      reuse? source (delimitersAround source x.above).getLast?.toList x.node = some f →
        reuse? source (delimitersAround source x.above) x.node = some f := fun x f =>
    reuse?_mono fun d hd => List.mem_of_getLast? (Option.mem_toList.mp hd)
  rw [nestedQuotes_eq hold]
  refine ⟨rfl, filterMap_sublist_filterMap hnearest _, ?_⟩
  rw [filterMap_eq_filterMap_iff hnearest]
  refine forall₂_congr fun x _ => ?_
  rw [reuse?_isSome_iff, reuse?_isSome_iff]
  cases literal? source x.node with
  | none => simp
  | some inner => simp

/-- Three literals inside each other, the innermost with the quotes of the outermost, and beside it
one with the quotes of the one around it. -/
def threefoldSource : Text := "f\"\x7bf'\x7b\"x\"\x7d\x7b'y'\x7d'\x7d\"\n"

def threefoldTree : Tree :=
  .node .script ⟨0, 19⟩ [.node .expressionStatement ⟨0, 18⟩ [.node .formatString ⟨0, 18⟩ [
    .node (.other "FormatReplacement") ⟨2, 17⟩ [.sign "\x7b" 2,
      .node .formatString ⟨3, 16⟩ [
        .node (.other "FormatReplacement") ⟨5, 10⟩ [.sign "\x7b" 5, .leaf .plainString 6 9,
          .sign "\x7d" 9],
        .node (.other "FormatReplacement") ⟨10, 15⟩ [.sign "\x7b" 10, .leaf .plainString 11 14,
          .sign "\x7d" 14]],
      .sign "\x7d" 16]]]]

theorem nestedQuotes_reported_threefold :
    PythonVersion.v38.rank < PythonVersion.v312.rank ∧
    nestedQuotes threefoldSource threefoldTree .v38 = [⟨⟨11, 14⟩, .nestedQuote⟩] ∧
    ([⟨⟨11, 14⟩, .nestedQuote⟩] : List Feature).Sublist
      ((threefoldTree.lineages []).filterMap fun x =>
        reuse? threefoldSource (delimitersAround threefoldSource x.above) x.node) := by
  have hnearest : ((threefoldTree.lineages []).filterMap fun x =>
      reuse? threefoldSource (delimitersAround threefoldSource x.above).getLast?.toList x.node) =
        [⟨⟨11, 14⟩, .nestedQuote⟩] := by
    decide
  obtain ⟨heq, hsub, _⟩ := nestedQuotes_reported threefoldSource threefoldTree .v38 (by decide)
  rw [hnearest] at heq
  exact ⟨by decide, heq, heq ▸ hsub⟩

/-- The innermost literal ends the outermost one and is not reported. -/
theorem outermost_quote_missed :
    nestedQuotes threefoldSource threefoldTree .v38 = [⟨⟨11, 14⟩, .nestedQuote⟩] ∧
    ((threefoldTree.lineages []).filterMap fun x =>
      reuse? threefoldSource (delimitersAround threefoldSource x.above) x.node) =
        [⟨⟨6, 9⟩, .nestedQuote⟩, ⟨⟨11, 14⟩, .nestedQuote⟩] := by
  decide

end Posonly.Feature
