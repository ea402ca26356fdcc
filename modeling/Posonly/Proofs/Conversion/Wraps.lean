import Mathlib.Data.List.Range
import Posonly.Proofs.Conversion.Dismissal
import Posonly.Proofs.Conversion.Quotes

/-!
# Lambdas that are wrapped inside each other

A lambda with a marker has a call opened ahead of it and closed behind it. The walk asks for both
when it leaves the lambda, after all that it asked for inside, and all edits of a source are sorted
together by where they start. `Nest` says how the brackets should follow one another: as the tree
nests the lambdas. Sorting brings them into that order (`wraps_nest`). No lambda starts where one
around it does, since between the two there is at least the keyword, so what opens is told apart by
its offset. At one end it is the order of arrival that closes the inner lambdas first.
-/

open List Posonly.Edit Posonly.Tree

namespace Posonly

/-- A lambda starts with its keyword, which is not empty and has nothing below it. -/
def Tree.Keyed (n : Tree) : Prop :=
  n.kind = .lambdaExpression → ∃ keyword ∈ n.children.head?, keyword.kind = .other "lambda" ∧
    keyword.children.isEmpty = true ∧ keyword.start = n.start ∧ keyword.start < keyword.stop

instance (n : Tree) : Decidable n.Keyed :=
  inferInstanceAs (Decidable (n.kind = .lambdaExpression → ∃ keyword ∈ n.children.head?,
    keyword.kind = .other "lambda" ∧ keyword.children.isEmpty = true ∧ keyword.start = n.start ∧
      keyword.start < keyword.stop))

/-! ## Parts of a text -/

namespace Edit

/-- Copies a text between two offsets and puts the text of each edit in place of its range. -/
def spliceWithin (source : Text) (pos stop : Nat) : List Edit → Text
  | [] => source.slice pos stop
  | e :: rest => source.slice pos e.start ++ e.text ++ spliceWithin source e.stop stop rest

theorem spliceFrom_append (source : Text) (pos : Nat) (es : List Edit) (e : Edit) (fs : List Edit) :
    spliceFrom source pos (es ++ e :: fs) =
      spliceWithin source pos e.start es ++ e.text ++ spliceFrom source e.stop fs := by
  induction es generalizing pos with
  | nil => rfl
  | cons d es ih => rw [cons_append, spliceFrom, spliceWithin, ih]; simp only [append_assoc]

end Edit

namespace Conversion

open Posonly.Signature

/-- Whether a node is a lambda with a marker. -/
def isConverted (source : Text) (n : Tree) : Bool :=
  n.kind == .lambdaExpression && (extractionAt source .module n).isSome

/-- Whether an edit opens or closes a call around a lambda. -/
def isWrap (e : Edit) : Bool := e.origin == .wrapOpen || e.origin == .wrapClose

/-- Two edits that open the call for a lambda and close it. -/
structure Brackets (j : Job) (x : Tree × Situation) (call : Text) (o c : Edit) : Prop where
  called : callFor j x = some (x.1.start, call)
  opens : o.change = ⟨x.1.start, x.1.start, call ++ "(", .wrapOpen⟩
  closes : c.change = ⟨x.1.stop, x.1.stop, ")", .wrapClose⟩
  /-- Both were taken in for the lambda, with nothing but the deletion of its marker in between. -/
  together : c.seq = o.seq + 2

/-- Brackets follow one another as some trees nest the lambdas that they are for. -/
inductive Nest (j : Job) : Situation → List Tree → List Edit → Prop where
  | nil {s : Situation} : Nest j s [] []
  | plain {s : Situation} {t : Tree} {ts : List Tree} {es fs : List Edit} :
      isConverted j.source t = false → Nest j (s.below j.source t) t.children es → Nest j s ts fs →
      Nest j s (t :: ts) (es ++ fs)
  | wrapped {s : Situation} {t : Tree} {ts : List Tree} {es fs : List Edit} {call : Text}
      {o c : Edit} : isConverted j.source t = true → Brackets j (t, s) call o c →
      Nest j (s.below j.source t) t.children es → Nest j s ts fs →
      Nest j s (t :: ts) (o :: (es ++ c :: fs))

/-- Brackets match: each one that opens is closed by the one that was taken in with it. -/
inductive Balanced : List Edit → Prop where
  | nil : Balanced []
  | wrap {es : List Edit} {o c : Edit} : o.origin = .wrapOpen → c.origin = .wrapClose →
      c.seq = o.seq + 2 → Balanced es → Balanced (o :: (es ++ [c]))
  | append {es fs : List Edit} : Balanced es → Balanced fs → Balanced (es ++ fs)

variable {j : Job} {s : Situation} {t : Tree} {ts us : List Tree} {x : Tree × Situation}
  {xs ys : List (Tree × Situation)} {es fs : List Edit} {o c : Edit} {call : Text}
  {start stop : Nat}

theorem kind_of_isConverted {source : Text} (h : isConverted source t = true) :
    t.kind = .lambdaExpression := by
  rw [isConverted, Bool.and_eq_true, beq_iff_eq] at h
  exact h.1

namespace Brackets

section

variable (h : Brackets j x call o c)

include h

theorem start_opens : o.start = x.1.start :=
  Int.ofNat.inj (congrArg Change.start h.opens)

theorem stop_opens : o.stop = x.1.start :=
  Int.ofNat.inj (congrArg Change.stop h.opens)

theorem start_closes : c.start = x.1.stop :=
  Int.ofNat.inj (congrArg Change.start h.closes)

theorem stop_closes : c.stop = x.1.stop :=
  Int.ofNat.inj (congrArg Change.stop h.closes)

theorem rank_opens : o.rank = 2 * x.1.start := by
  rw [rank_insertion (h.start_opens.trans h.stop_opens.symm), h.start_opens]

theorem rank_closes : c.rank = 2 * x.1.stop := by
  rw [rank_insertion (h.start_closes.trans h.stop_closes.symm), h.start_closes]

end

end Brackets

namespace Nest

theorem append (h : Nest j s ts es) : Nest j s us fs → Nest j s (ts ++ us) (es ++ fs) := by
  intro h'
  induction h with
  | nil => exact h'
  | plain hplain hbelow _ _ ih =>
    rw [append_assoc]
    exact .plain hplain hbelow (ih h')
  | wrapped hconverted hbrackets hbelow _ _ ih =>
    simpa using Nest.wrapped hconverted hbrackets hbelow (ih h')

theorem balanced (h : Nest j s ts es) : Balanced es := by
  induction h with
  | nil => exact .nil
  | plain _ _ _ ih ihrest => exact ih.append ihrest
  | @wrapped s t ts es fs call o c _ hbrackets _ _ ih ihrest =>
    have hown : Balanced (o :: (es ++ [c])) :=
      .wrap (congrArg Change.origin hbrackets.opens) (congrArg Change.origin hbrackets.closes)
        hbrackets.together ih
    simpa using hown.append ihrest

theorem range (h : Nest j s ts es) (hord : InOrder start stop ts)
    (hall : ∀ t ∈ ts, ∀ n ∈ t.preorder, n.Orderly) :
    ∀ e ∈ es, start ≤ e.start ∧ e.start = e.stop ∧ e.stop ≤ stop := by
  -- along the forest; the brackets of a node stand at its own ends
  induction h generalizing start stop with
  | nil => simp
  | @plain s t ts es fs _ _ _ ih ihrest =>
    obtain ⟨hstart, _, hrest⟩ := hord
    have hnode := hall t (.head _)
    have hbelow := ih (hnode t t.self_mem_preorder).2 fun c hc => forall_preorder_child hnode hc
    have hbehind := ihrest hrest fun u hu => hall u (.tail _ hu)
    have hle := hrest.le
    intro e he
    rcases mem_append.mp he with he | he
    · have := hbelow e he
      omega
    · have := hbehind e he
      omega
  | @wrapped s t ts es fs call o c _ hbrackets _ _ ih ihrest =>
    obtain ⟨hstart, hself, hrest⟩ := hord
    have hnode := hall t (.head _)
    have hbelow := ih (hnode t t.self_mem_preorder).2 fun c hc => forall_preorder_child hnode hc
    have hbehind := ihrest hrest fun u hu => hall u (.tail _ hu)
    have hle := hrest.le
    intro e he
    simp only [mem_cons, mem_append] at he
    rcases he with rfl | he | rfl | he
    · rw [hbrackets.start_opens, hbrackets.stop_opens]
      exact ⟨hstart, rfl, Nat.le_trans hself hle⟩
    · have := hbelow e he
      omega
    · rw [hbrackets.start_closes, hbrackets.stop_closes]
      exact ⟨Nat.le_trans hstart hself, rfl, hle⟩
    · have := hbehind e he
      omega

theorem lt_start (h : Nest j s t.children es) (hlambda : t.kind = .lambdaExpression)
    (hkeyed : t.Keyed) (hord : ∀ n ∈ t.preorder, n.Orderly) : ∀ e ∈ es, t.start < e.start := by
  obtain ⟨keyword, hhead, hkind, hleaf, hstart, hlt⟩ := hkeyed hlambda
  obtain ⟨rest, hchildren⟩ := head?_eq_some_iff.mp hhead
  have hinside := (hord t t.self_mem_preorder).2
  have hall : ∀ u ∈ rest, ∀ n ∈ u.preorder, n.Orderly := fun u hu =>
    forall_preorder_child hord (by rw [hchildren]; exact mem_cons_of_mem _ hu)
  rw [hchildren] at h hinside
  cases h with
  | plain _ hnothing hrest =>
    rw [List.isEmpty_iff.mp hleaf] at hnothing
    cases hnothing
    intro e he
    have := hrest.range hinside.2.2 hall e he
    omega
  | wrapped hconverted => simp [isConverted, hkind] at hconverted

/-- **The brackets of one lambda** have those of the lambdas below it between them. -/
theorem at_lineage (h : Nest j s ts es) {above : List Tree} (hs : s = .along j.source above)
    {x : Lineage} (hx : x ∈ lineagesAll above ts)
    (hconverted : isConverted j.source x.node = true) :
    ∃ call o c before inside after, Brackets j (x.node, .along j.source x.above) call o c ∧
      es = before ++ o :: (inside ++ c :: after) ∧
      Nest j (.along j.source (x.node :: x.above)) x.node.children inside := by
  -- the node is this one, below it, or behind it
  induction h generalizing above with
  | nil => cases hx
  | @plain s t ts es fs hplain hbelow hrest ih ihrest =>
    subst hs
    rw [lineagesAll, lineages_eq, cons_append, mem_cons, mem_append] at hx
    rcases hx with rfl | hx | hx
    · rw [hplain] at hconverted
      cases hconverted
    · obtain ⟨call, o, c, before, inside, after, hbrackets, rfl, hinside⟩ :=
        ih (Situation.along_cons ..).symm hx
      exact ⟨call, o, c, before, inside, after ++ fs, hbrackets, by simp, hinside⟩
    · obtain ⟨call, o, c, before, inside, after, hbrackets, rfl, hinside⟩ := ihrest rfl hx
      exact ⟨call, o, c, es ++ before, inside, after, hbrackets, by simp, hinside⟩
  | @wrapped s t ts es fs call o c _ hbrackets hbelow hrest ih ihrest =>
    subst hs
    rw [lineagesAll, lineages_eq, cons_append, mem_cons, mem_append] at hx
    rcases hx with rfl | hx | hx
    · refine ⟨call, o, c, [], es, fs, hbrackets, rfl, ?_⟩
      rwa [Situation.along_cons]
    · obtain ⟨call', o', c', before, inside, after, hbrackets', rfl, hinside⟩ :=
        ih (Situation.along_cons ..).symm hx
      exact ⟨call', o', c', o :: before, inside, after ++ c :: fs, hbrackets', by simp, hinside⟩
    · obtain ⟨call', o', c', before, inside, after, hbrackets', rfl, hinside⟩ := ihrest rfl hx
      exact ⟨call', o', c', o :: (es ++ c :: before), inside, after, hbrackets', by simp, hinside⟩

end Nest

/-! ## The edits for each node -/

/-- Each edit was taken in right after the one before. -/
def Numbered (es : List Edit) : Prop := es.IsChain fun a b => b.seq = a.seq + 1

/-- Edits that were taken in for some nodes, one node after the other. -/
inductive Edited (j : Job) : List (Tree × Situation) → List Edit → Prop where
  | nil : Edited j [] []
  | cons {x : Tree × Situation} {xs : List (Tree × Situation)} {es fs : List Edit} :
      Rendered j x (es.map change) → Edited j xs fs → Edited j (x :: xs) (es ++ fs)

theorem edited_of_rendered {css : List (List Change)} (h : List.Forall₂ (Rendered j) xs css)
    (hes : es.map change = css.flatten) : Edited j xs es := by
  induction h generalizing es with
  | nil =>
    rw [map_eq_nil_iff.mp hes]
    exact .nil
  | cons hx _ ih =>
    obtain ⟨ds, fs, rfl, rfl, hfs⟩ := map_eq_append_iff.mp hes
    exact .cons hx (ih hfs)

theorem Edited.split (h : Edited j (xs ++ ys) es) :
    ∃ ds fs, es = ds ++ fs ∧ Edited j xs ds ∧ Edited j ys fs := by
  induction xs generalizing es with
  | nil => exact ⟨[], es, rfl, .nil, h⟩
  | cons x xs ih =>
    cases h with
    | @cons _ _ bs cs hx hrest =>
      obtain ⟨ds, fs, rfl, hds, hfs⟩ := ih hrest
      exact ⟨bs ++ ds, fs, by rw [append_assoc], .cons hx hds, hfs⟩

variable {e : Extraction} {changes : List Change} {tree : Tree} {scan : Scan} {r : Result}

theorem isWrap_eq_false_of_function {ctx : Decorator.Context} {d : Edit}
    (hfun : t.kind = .functionDefinition) (h : changesAt t e ctx = .ok changes)
    (hd : d.change ∈ changes) : isWrap d = false := by
  have horigin : d.origin = .marker ∨ d.origin = .decorator := by
    cases asked_of_changesAt h with
    | dismissed => exact .inl (congrArg Change.origin (mem_singleton.mp hd))
    | line => exact (mem_pair.mp hd).imp (congrArg Change.origin) (congrArg Change.origin)
    | around hne => exact absurd hfun hne
  rcases horigin with horigin | horigin <;> simp [isWrap, horigin]

theorem changesAt_lambda (hlambda : t.kind = .lambdaExpression)
    (hdismiss : j.options.dismiss = false)
    (h : changesAt t e (s.context j (targetOf t)) = .ok changes) :
    ∃ call : Text, changes = [⟨t.start, t.start, call ++ "(", .wrapOpen⟩, Decorator.markerChange e,
      ⟨t.stop, t.stop, ")", .wrapClose⟩] := by
  cases asked_of_changesAt h with
  | dismissed hon => cases hdismiss.symm.trans hon
  | line hfun => cases hlambda.symm.trans hfun
  | around => exact ⟨_, rfl⟩

/-- **The brackets for one node.** A lambda with a marker gets two, any other node none. -/
theorem Rendered.brackets (h : Rendered j x (es.map change))
    (hdismiss : j.options.dismiss = false) (hnumbered : Numbered es) :
    (isConverted j.source x.1 = false ∧ es.filter isWrap = []) ∨ (isConverted j.source x.1 = true ∧
        ∃ call o c, Brackets j x call o c ∧ es.filter isWrap = [o, c]) := by
  have hcall := h.call hdismiss
  generalize hchanges : es.map change = changes at h hcall
  cases h with
  | @nothing n s scope hsig =>
    rw [map_eq_nil_iff.mp hchanges]
    have hnone : extractionAt j.source .module n = none := by
      rw [extractionAt, signatureAt_scope _ _ scope .module, hsig]
      rfl
    exact .inl ⟨by simp [isConverted, hnone], rfl⟩
  | @signature n s scope e changes hsig hmade =>
    by_cases hfun : n.kind = .functionDefinition
    · -- the changes for a function are no brackets
      refine .inl ⟨by simp [isConverted, hfun], filter_eq_nil_iff.mpr fun d hd => ?_⟩
      rw [isWrap_eq_false_of_function hfun hmade (hchanges ▸ mem_map_of_mem hd)]
      simp
    · have hlambda := (isSignature_of_signatureAt hsig).resolve_left hfun
      have hsome : (extractionAt j.source .module n).isSome = true := by
        rw [extractionAt, signatureAt_scope _ _ scope .module, hsig]
        rfl
      obtain ⟨call, rfl⟩ := changesAt_lambda hlambda hdismiss hmade
      obtain ⟨o, _, rfl, hopens, hrest⟩ := map_eq_cons_iff.mp hchanges
      obtain ⟨m, _, rfl, hmarker, hrest⟩ := map_eq_cons_iff.mp hrest
      obtain ⟨c, _, rfl, hcloses, hrest⟩ := map_eq_cons_iff.mp hrest
      obtain rfl := map_eq_nil_iff.mp hrest
      have hopened : callAt j.options.style ⟨n.start, n.start, call ++ "(", .wrapOpen⟩ =
          some (n.start, call) := by
        rw [callAt, callOf?_opened]
        rfl
      rw [filterMap_cons_some hopened, filterMap_cons_none rfl, filterMap_cons_none rfl] at hcall
      have hcalled := Option.toList_eq_singleton_iff.mp hcall.symm
      -- the edit of the marker is numbered between the two brackets
      have hseq : m.seq = o.seq + 1 ∧ c.seq = m.seq + 1 := by simpa [Numbered] using hnumbered
      refine .inr ⟨by simp [isConverted, hlambda, hsome], call, o, c,
        ⟨hcalled, hopens, hcloses, by omega⟩, ?_⟩
      have ho : o.origin = .wrapOpen := congrArg Change.origin hopens
      have hm : m.origin = .marker := congrArg Change.origin hmarker
      have hc : c.origin = .wrapClose := congrArg Change.origin hcloses
      simp [isWrap, ho, hm, hc]

/-! ## Sorting -/

theorem Numbered.of_append : Numbered (es ++ fs) → Numbered es ∧ Numbered fs := fun h =>
  ⟨(isChain_append.mp h).1, (isChain_append.mp h).2.1⟩

/-- Where sorting nests the brackets of each tree, it nests those of all. -/
theorem nest_inOrder_all (hord : InOrder start stop ts)
    (hall : ∀ t ∈ ts, ∀ n ∈ t.preorder, n.Orderly)
    (h : ∀ t ∈ ts, ∀ es, Edited j (situated j.source s t) es → Numbered es →
      Nest j s [t] (inOrder (es.filter isWrap)))
    (hedited : Edited j (situatedAll j.source s ts) es) (hnumbered : Numbered es) :
    Nest j s ts (inOrder (es.filter isWrap)) := by
  induction ts generalizing start es with
  | nil =>
    cases hedited
    exact .nil
  | cons t ts ih =>
    rw [situatedAll] at hedited
    obtain ⟨ds, fs, rfl, hds, hfs⟩ := hedited.split
    obtain ⟨hnds, hnfs⟩ := hnumbered.of_append
    obtain ⟨hstart, hself, hrest⟩ := hord
    have hfirst := h t (.head _) ds hds hnds
    have hbehind := ih hrest (fun u hu => hall u (.tail _ hu))
      (fun u hu => h u (.tail _ hu)) hfs hnfs
    -- the brackets of the first tree end where the others may start at the earliest
    have hle : ∀ a ∈ ds.filter isWrap, ∀ b ∈ fs.filter isWrap, a.rank ≤ b.rank := by
      intro a ha b hb
      have hord : InOrder t.start t.stop [t] := ⟨Nat.le_refl _, hself, Nat.le_refl _⟩
      have ha := hfirst.range hord (by simpa using hall t (.head _)) a
        (mem_inOrder.mpr ha)
      have hb := hbehind.range hrest (fun u hu => hall u (.tail _ hu)) b
        (mem_inOrder.mpr hb)
      rw [rank_insertion ha.2.1, rank_insertion hb.2.1]
      omega
    rw [filter_append, inOrder_append hle]
    exact hfirst.append hbehind

theorem nest_inOrder (hdismiss : j.options.dismiss = false) (hord : ∀ n ∈ t.preorder, n.Orderly)
    (hkeyed : ∀ n ∈ t.preorder, n.Keyed) (hedited : Edited j (situated j.source s t) es)
    (hnumbered : Numbered es) : Nest j s [t] (inOrder (es.filter isWrap)) := by
  induction t using byChildren generalizing s es with
  | _ t ih =>
    rw [situated_eq] at hedited
    obtain ⟨ds, fs, rfl, hds, hfs⟩ := hedited.split
    obtain ⟨hnds, hnfs⟩ := hnumbered.of_append
    have hself := hord t t.self_mem_preorder
    have hbelow := nest_inOrder_all hself.2 (fun c hc => forall_preorder_child hord hc)
      (fun c hc es hes hnes => ih c hc (forall_preorder_child hord hc)
        (forall_preorder_child hkeyed hc) hes hnes) hds hnds
    cases hfs with
    | cons hx hnil =>
      cases hnil
      rw [append_nil] at hnfs ⊢
      rw [filter_append]
      rcases hx.brackets hdismiss hnfs with
        ⟨hplain, hnone⟩ | ⟨hconverted, call, o, c, hbrackets, htwo⟩
      · rw [hnone, append_nil]
        simpa using Nest.plain hplain hbelow .nil
      · -- the two of the lambda came last; the keyword keeps what is inside behind the first
        have hlambda := kind_of_isConverted hconverted
        have hinside : ∀ e ∈ ds.filter isWrap,
            t.start < e.start ∧ e.start = e.stop ∧ e.stop ≤ t.stop := fun e he =>
          have he := mem_inOrder.mpr he
          ⟨hbelow.lt_start hlambda (hkeyed t t.self_mem_preorder) hord e he,
            (hbelow.range hself.2 (fun c hc => forall_preorder_child hord hc) e he).2⟩
        have ho : o.rank = 2 * t.start := hbrackets.rank_opens
        have hc : c.rank = 2 * t.stop := hbrackets.rank_closes
        rw [htwo, inOrder_around]
        · exact .wrapped hconverted hbrackets hbelow .nil
        · intro e he
          have := hinside e he
          rw [rank_insertion this.2.1]
          omega
        · intro e he
          have := hinside e he
          rw [rank_insertion this.2.1]
          omega
        · have := hself.1
          omega

/-! ## Results -/

theorem Finished.edits_eq (h : Finished j tree scan (.ok r)) :
    r.edits = inOrder scan.edits.edits := by
  cases h with
  | unchanged hnil => rw [hnil]; rfl
  | assembled => rfl

theorem Finished.applied_eq {css : List (List (Option Contribution))}
    (hscanned : Scanned j tree css scan) (h : Finished j tree scan (.ok r))
    (hwf : tree.WellFormed j.source.length) :
    r.applied = (r.definition.map EditSet.definitionEdit).toList ++ r.edits := by
  cases h with
  | unchanged => rfl
  | assembled =>
    rw [Result.applied, EditSet.inOrder_withDefinition, EditSet.withDefinition]
    cases hd : j.definitionInsertion scan.definitionAt with
    | none => rfl
    | some d =>
      have hclear := (hscanned.definition_clear hwf hd).2
      exact place_insertion (by simp [EditSet.definitionEdit, isInsertion])
        fun e he => hclear e (mem_inOrder.mp he)

theorem Finished.nest (hscan : visitScript j tree = .ok scan) (h : Finished j tree scan (.ok r))
    (hdismiss : j.options.dismiss = false) (hwf : tree.WellFormed j.source.length)
    (hkeyed : ∀ n ∈ tree.preorder, n.Keyed) : Nest j {} tree.children (r.edits.filter isWrap) := by
  obtain ⟨css, hrendered, hadded⟩ := visitScript_renders hscan
  have hedited := edited_of_rendered hrendered (EditSet.addAll_changes hadded)
  have hnumbered : Numbered scan.edits.edits := by
    have hseq := EditSet.addAll_numbered rfl hadded
    have hchain : (scan.edits.edits.map (·.seq)).IsChain fun a b => b = a + 1 := by
      rw [hseq]
      exact (isChain_range ..).mpr fun _ _ => rfl
    exact (isChain_map _).mp hchain
  rw [h.edits_eq, ← inOrder_filter]
  have hord := hwf.2
  exact nest_inOrder_all (hord tree tree.self_mem_preorder).2
    (fun t ht => forall_preorder_child hord ht)
    (fun t ht es hes hnes => nest_inOrder hdismiss (forall_preorder_child hord ht)
      (forall_preorder_child hkeyed ht) hes hnes) hedited hnumbered

/-- What becomes of one lambda: its brackets are put around what the edits inside make of its range,
and these are the edits that lie there. -/
structure Wrapped (j : Job) (r : Result) (x : Lineage) (call : Text)
    (before inside after : List Edit) : Prop where
  edits : ∃ o c, Brackets j (x.node, .along j.source x.above) call o c ∧
    r.edits = before ++ o :: (inside ++ c :: after)
  ahead : ∀ e ∈ before, e.stop ≤ x.node.start
  within : ∀ e ∈ inside, x.node.start ≤ e.start ∧ e.stop ≤ x.node.stop
  behind : ∀ e ∈ after, x.node.stop ≤ e.start
  nest : Nest j (.along j.source (x.node :: x.above)) x.node.children (inside.filter isWrap)
  text : r.text = spliceWithin j.source 0 x.node.start
        ((r.definition.map EditSet.definitionEdit).toList ++ before) ++
      (call ++ "(" ++ spliceWithin j.source x.node.start x.node.stop inside ++ ")") ++
      spliceFrom j.source x.node.stop after

theorem Nest.exists_wrapped (h : Nest j {} tree.children (r.edits.filter isWrap))
    (happlied : r.applied = (r.definition.map EditSet.definitionEdit).toList ++ r.edits)
    (hclear : r.applied.Pairwise fun a b => a.stop ≤ b.start)
    (htext : r.text = splice j.source r.applied) {x : Lineage}
    (hx : x ∈ lineagesAll [] tree.children) (hconverted : isConverted j.source x.node = true) :
    ∃ call before inside after, Wrapped j r x call before inside after := by
  obtain ⟨call, o, c, _, _, _, hbrackets, hwraps, hnest⟩ := h.at_lineage rfl hx hconverted
  -- between two brackets there may be other edits, which are dealt to the parts that they follow
  obtain ⟨first, _, hfirst, _, hwraps⟩ := filter_eq_append_iff.mp hwraps
  obtain ⟨gap, _, rfl, _, _, hwraps⟩ := filter_eq_cons_iff.mp hwraps
  obtain ⟨second, _, rfl, hinside, hwraps⟩ := filter_eq_append_iff.mp hwraps
  obtain ⟨gap', after, rfl, hgap', _, _⟩ := filter_eq_cons_iff.mp hwraps
  have hedits : r.edits = (first ++ gap) ++ o :: ((second ++ gap') ++ c :: after) := by
    rw [hfirst]
    simp only [append_assoc]
  rw [happlied] at hclear htext
  have hclear := (pairwise_append.mp hclear).2.1
  rw [hedits] at hclear
  obtain ⟨_, hfrom, hahead⟩ := pairwise_append.mp hclear
  obtain ⟨hopened, hrest⟩ := pairwise_cons.mp hfrom
  obtain ⟨_, hlast, hwithin⟩ := pairwise_append.mp hrest
  refine ⟨call, first ++ gap, second ++ gap', after, ⟨o, c, hbrackets, hedits⟩, fun e he => ?_,
    fun e he => ⟨?_, ?_⟩, fun e he => ?_, ?_, ?_⟩
  · rw [← hbrackets.start_opens]
    exact hahead e he o (.head _)
  · rw [← hbrackets.stop_opens]
    exact hopened e (mem_append_left _ he)
  · rw [← hbrackets.start_closes]
    exact hwithin e he c (.head _)
  · rw [← hbrackets.stop_closes]
    exact (pairwise_cons.mp hlast).1 e he
  · have hnone : gap'.filter isWrap = [] := filter_eq_nil_iff.mpr hgap'
    rwa [filter_append, hinside, hnone, append_nil]
  · have ho : o.text = call ++ "(" := congrArg Change.text hbrackets.opens
    have hc : c.text = ")" := congrArg Change.text hbrackets.closes
    rw [htext, hedits, splice, ← append_assoc, spliceFrom_append,
      spliceFrom_append, ho, hc, hbrackets.start_opens, hbrackets.stop_opens,
      hbrackets.start_closes, hbrackets.stop_closes]
    simp only [append_assoc]

/-- **Wraps nest.** If every lambda starts with its keyword, the brackets of a conversion with
checks follow one another, in the order of application, as the tree nests the lambdas with markers:
they match, and one that opens is matched by the one that was taken in with it. In the text that is
made, each such lambda is its call and what the edits inside make of its range, in brackets. -/
theorem wraps_nest (parse : Text → Tree) (source : Text) (values : OptionValues) (r : Result)
    (hwf : (parse source).WellFormed source.length)
    (hkeyed : ∀ n ∈ (parse source).preorder, n.Keyed)
    (hrun : convert parse source values = .ok r) (hdismiss : r.options.dismiss = false) :
    Nest ⟨source, r.options⟩ {} (parse source).children (r.edits.filter isWrap) ∧
      Balanced (r.edits.filter isWrap) ∧
      ∀ x ∈ lineagesAll [] (parse source).children, isConverted source x.node = true →
        ∃ call before inside after, Wrapped ⟨source, r.options⟩ r x call before inside after := by
  have hjob := run_own_options hrun
  obtain ⟨_, scan, hscan, hscanned, hfin⟩ := finished_of_run hjob
  obtain ⟨happlicable, htext, _⟩ := result_applied hjob
  have hnest := hfin.nest hscan hdismiss hwf hkeyed
  exact ⟨hnest, hnest.balanced, fun x hx hconverted =>
    hnest.exists_wrapped (hfin.applied_eq hscanned hwf) happlicable.clear htext hx hconverted⟩

/-- A lambda with one lambda as a default and another as its body, which end together:
`f = lambda a, g=lambda b, /: b, /: lambda c, /: c`. -/
def enclosedSource : Text := "f = lambda a, g=lambda b, /: b, /: lambda c, /: c\n"

def enclosedTree : Tree :=
  .node .script ⟨0, 50⟩ [.node (.other "AssignStatement") ⟨0, 49⟩ [
    .leaf .variableName 0 1, .leaf (.other "AssignOp") 2 3,
    .node .lambdaExpression ⟨4, 49⟩ [.sign "lambda" 4,
      .node .paramList ⟨11, 33⟩ [.leaf .variableName 11 12, .sign "," 12,
        .leaf .variableName 14 15, .leaf (.other "AssignOp") 15 16,
        .markedLambda 16 (.leaf .variableName 29 30), .sign "," 30, .leaf .error 32 33],
      .sign ":" 33, .markedLambda 35 (.leaf .variableName 48 49)]]]

theorem enclosed_evaluated :
    (convert (fun _ => enclosedTree) enclosedSource {}).toOption.map (fun r =>
        (r.options.dismiss, (r.edits.filter isWrap).map fun e => (e.start, e.seq))) =
      some (false, [(4, 6), (16, 0), (30, 2), (35, 3), (49, 5), (49, 8)]) ∧
    ((lineagesAll [] enclosedTree.children).filter fun x =>
        isConverted enclosedSource x.node).map (·.node.range) = [⟨4, 49⟩, ⟨16, 30⟩, ⟨35, 49⟩] := by
  decide +kernel

theorem wraps_nest_enclosed :
    enclosedTree.WellFormed enclosedSource.length ∧ (∀ n ∈ enclosedTree.preorder, n.Keyed) ∧
    ∃ r, convert (fun _ => enclosedTree) enclosedSource {} = .ok r ∧ r.options.dismiss = false ∧
      (r.edits.filter isWrap).map (fun e => (e.start, e.seq)) =
        [(4, 6), (16, 0), (30, 2), (35, 3), (49, 5), (49, 8)] ∧
      Balanced (r.edits.filter isWrap) ∧
      ∃ x ∈ lineagesAll [] enclosedTree.children, x.node.range = ⟨35, 49⟩ ∧
        ∃ call before inside after,
          Wrapped ⟨enclosedSource, r.options⟩ r x call before inside after := by
  obtain ⟨hvalues, hranges⟩ := enclosed_evaluated
  have hwf : enclosedTree.WellFormed enclosedSource.length := by decide
  have hkeyed : ∀ n ∈ enclosedTree.preorder, n.Keyed := by decide
  obtain ⟨r, hrun, hvalues⟩ := ok_of_toOption hvalues
  obtain ⟨hdismiss, hbrackets⟩ := Prod.mk.inj hvalues
  have hbody : ⟨35, 49⟩ ∈ [(⟨4, 49⟩ : Range), ⟨16, 30⟩, ⟨35, 49⟩] := by simp
  rw [← hranges] at hbody
  obtain ⟨x, hx, hrange⟩ := List.mem_map.mp hbody
  obtain ⟨hx, hconverted⟩ := List.mem_filter.mp hx
  obtain ⟨_, hbalanced, hwrapped⟩ := wraps_nest (fun _ => enclosedTree) enclosedSource {} r hwf
    hkeyed hrun hdismiss
  exact ⟨hwf, hkeyed, r, hrun, hdismiss, hbrackets, hbalanced, x, hx, hrange,
    hwrapped x hx hconverted⟩

end Conversion

end Posonly
