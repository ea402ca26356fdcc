import Posonly.Proofs.Conversion.Site
import Posonly.Proofs.Edit.Assembly
import Posonly.Proofs.Options.Resolution

/-!
# What the walk gathers

The walk is a recursion over the tree that threads a stack of scopes and a set of edits. What comes
of it can be said without the recursion: it goes through the nodes children first, each node
contributes an extraction with its changes or nothing, and the stack is as it was before (`Gains`).
`visit_walked` proves this once, together with what can go wrong on the way; everything later is
read off it.
-/

open List Posonly.Decorator Posonly.ScopeStack

namespace Posonly.Conversion

open Posonly.Signature

/-- What a signature with a marker adds to the walk. -/
structure Contribution where
  extraction : Extraction
  changes : List Change

/-- A context as the walk through a job makes them. -/
structure ContextOf (j : Job) (ctx : Context) : Prop where
  source : ctx.source = j.source
  style : ctx.style = j.options.style
  dismiss : ctx.dismiss = j.options.dismiss

/-- The changes for an extraction at a node. -/
def changesAt (n : Tree) (e : Extraction) (ctx : Context) :
    Except PlacementFault (List Change) :=
  match n.kind with
  | .functionDefinition => functionChanges e n.range ctx
  | _ => lambdaChanges e n.range ctx

/-- What a node contributes to the walk. -/
inductive Contributes (j : Job) (n : Tree) : Option Contribution → Prop where
  | nothing {scope : ScopeKind} : signatureAt j.source n scope = .ok none → Contributes j n none
  | signature {scope : ScopeKind} {e : Extraction} {ctx : Context}
      {changes : List Change} : signatureAt j.source n scope = .ok (some e) → ContextOf j ctx →
      changesAt n e ctx = .ok changes → Contributes j n (some ⟨e, changes⟩)

/-! ## Changes -/

/-- Where a signature may have text put in: ahead of the line of a function, which then starts with
nothing but blanks and perhaps a word, or on either side of a lambda. -/
inductive InsertsAt (source : Text) (n : Tree) : Origin → Nat → Prop where
  | line {q : Nat} : n.kind = .functionDefinition → source.lineStart n.start ≤ q → q ≤ n.start →
      source.Throughout Text.isSpaceOrTab (source.lineStart n.start) q →
      q = n.start ∨ source.SolidAt q → InsertsAt source n .decorator (source.lineStart n.start)
  | opens : n.kind = .lambdaExpression → InsertsAt source n .wrapOpen n.start
  | closes : n.kind = .lambdaExpression → InsertsAt source n .wrapClose n.stop

variable {source : Text} {n : Tree} {origin : Origin} {offset : Nat} {scope kind : ScopeKind}
  {e : Extraction} {ctx : Context} {f : Failure} {r : Except Failure Scan}
  {name : Option Text} {delimiter : Option Delimiter}

section

variable (h : InsertsAt source n origin offset)

include h

theorem InsertsAt.origin_cases :
    origin = .decorator ∨ origin = .wrapOpen ∨ origin = .wrapClose := by
  cases h with
  | line => exact .inl rfl
  | opens => exact .inr (.inl rfl)
  | closes => exact .inr (.inr rfl)

theorem InsertsAt.le_stop (hle : n.start ≤ n.stop) : offset ≤ n.stop := by
  cases h with
  | line => exact Nat.le_trans (Text.lineStart_le ..) hle
  | opens => exact hle
  | closes => exact Nat.le_refl _

theorem InsertsAt.lineStart_le (hle : n.start ≤ n.stop) : source.lineStart n.start ≤ offset := by
  have hline := Text.lineStart_le source n.start
  cases h with
  | line => exact Nat.le_refl _
  | opens => exact hline
  | closes => omega

end

/-- A change that only puts text in, at a place where its signature may have that. -/
def Inserted (source : Text) (n : Tree) (c : Change) : Prop :=
  ∃ offset : Nat, InsertsAt source n c.origin offset ∧ c.start = offset ∧ c.stop = offset

theorem isSignature_of_signatureAt (h : signatureAt source n scope = .ok (some e)) :
    IsSignature n := by
  unfold signatureAt at h
  split at h
  · exact .inl (by assumption)
  · exact .inr (by assumption)
  · cases h

theorem line_insertsAt {source : Text} {n : Tree} (hk : n.kind = .functionDefinition)
    (hrest : (!((source.slice (source.lineStart n.start) n.start).dropWhile
        Text.isSpaceOrTab).isEmpty &&
      !isAsync ((source.slice (source.lineStart n.start) n.start).dropWhile
        Text.isSpaceOrTab)) = false) :
    InsertsAt source n .decorator (source.lineStart n.start) := by
  have hle := Text.lineStart_le source n.start
  obtain ⟨q, haq, hqb, hblank, hdrop⟩ := Text.slice_dropWhile source Text.isSpaceOrTab hle
  rw [hdrop] at hrest
  cases hslice : source.slice q n.start with
  | nil =>
    -- nothing but blanks, up to the function itself
    have hall : source.Throughout Text.isSpaceOrTab q n.start :=
      Text.all_slice.mp (by rw [hslice]; rfl)
    exact .line hk hle (Nat.le_refl _) (hblank.append hall) (.inl rfl)
  | cons u rest =>
    refine .line hk haq hqb hblank (.inr ⟨u, ?_, ?_⟩)
    · have hfirst := Text.getElem?_slice source q n.start 0
      rw [hslice, getElem?_cons_zero] at hfirst
      split at hfirst
      · exact hfirst.symm
      · cases hfirst
    · rw [hslice] at hrest
      have hasync : isAsync (u :: rest) = true := by simpa using hrest
      unfold isAsync at hasync
      rw [Bool.and_eq_true, Bool.and_eq_true] at hasync
      have hu : u = 0x61 := by
        have hpre := isPrefixOf_iff_prefix.mp hasync.1.1
        obtain ⟨more, hmore⟩ := hpre
        exact (List.cons.inj hmore).1.symm
      rw [hu]
      decide

/-- What is asked for at a signature: to take its marker out, and unless checks are dismissed to put
a line in above a function, or a call around a lambda. -/
inductive Asked (n : Tree) (e : Extraction) (ctx : Context) : List Change → Prop where
  | dismissed : ctx.dismiss = true → Asked n e ctx [markerChange e]
  | line {indent : Text} : n.kind = .functionDefinition →
      (∀ u ∈ indent, Text.isSpaceOrTab u = true) →
      InsertsAt ctx.source n .decorator (ctx.source.lineStart n.start) →
      Asked n e ctx [markerChange e,
        ⟨ctx.source.lineStart n.start, ctx.source.lineStart n.start, indent ++ "@" ++
          call ctx.style.decorator (emittedNames e ctx) .single ++
          ctx.style.separator, .decorator⟩]
  | around {q : QuoteMark} : n.kind ≠ .functionDefinition →
      Delimiter.chooseQuote ctx.delimiters .single = some q →
      Asked n e ctx [⟨n.start, n.start, call ctx.style.decorator
          (emittedNames e ctx) q ++ "(", .wrapOpen⟩,
        markerChange e, ⟨n.stop, n.stop, ")", .wrapClose⟩]

theorem asked_of_changesAt {changes : List Change} (h : changesAt n e ctx = .ok changes) :
    Asked n e ctx changes := by
  unfold changesAt at h
  split at h
  · rename_i hfun
    unfold functionChanges at h
    dsimp only at h
    split_ifs at h with hdismiss _ hrest <;> cases h
    · exact .dismissed hdismiss
    · exact .line hfun (fun u hu => mem_takeWhile_imp hu)
        (line_insertsAt hfun (Bool.eq_false_iff.mpr hrest))
  · rename_i hfun
    unfold lambdaChanges at h
    split_ifs at h with hdismiss
    · cases h
      exact .dismissed hdismiss
    · split at h <;> cases h
      exact .around hfun (by assumption)

/-- **The changes of a signature** take out its marker and put text in around it. -/
theorem changesAt_cases {changes : List Change} (hsource : ctx.source = source)
    (hk : IsSignature n) (h : changesAt n e ctx = .ok changes) :
    ∃ before after, changes = before ++ markerChange e :: after ∧
      ∀ c ∈ before ++ after, Inserted source n c := by
  cases asked_of_changesAt h with
  | dismissed => exact ⟨[], [], rfl, by simp⟩
  | line _ _ hat =>
    refine ⟨[], [_], rfl, fun c hc => ?_⟩
    rw [nil_append, mem_singleton] at hc
    subst hc hsource
    exact ⟨_, hat, rfl, rfl⟩
  | around hfun =>
    have hlam := Or.resolve_left hk hfun
    refine ⟨[_], [_], rfl, fun c hc => ?_⟩
    rw [singleton_append, mem_pair] at hc
    rcases hc with rfl | rfl
    · exact ⟨_, .opens hlam, rfl, rfl⟩
    · exact ⟨_, .closes hlam, rfl, rfl⟩

/-- **What is asked for at a node**: to take its marker out, or to put text in around it. -/
theorem Contributes.mem_changes {j : Job} {c : Contribution} (h : Contributes j n (some c))
    {x : Change} (hx : x ∈ c.changes) :
    (∃ scope, signatureAt j.source n scope = .ok (some c.extraction)) ∧
      (x = markerChange c.extraction ∨ Inserted j.source n x) := by
  cases h with
  | @signature scope e ctx changes hsig hctx hch =>
    refine ⟨⟨scope, hsig⟩, ?_⟩
    obtain ⟨before, after, rfl, hins⟩ :=
      changesAt_cases hctx.source (isSignature_of_signatureAt hsig) hch
    by_cases hmark : x = markerChange e
    · exact .inl hmark
    · exact .inr (hins x (by simpa [hmark] using hx))

/-! ## Gains -/

/-- What nodes contribute to a scan. -/
structure Collects (j : Job) (scan : Scan) (ns : List Tree) (cs : List (Option Contribution))
    (es : List Edit) (scan' : Scan) : Prop where
  contributes : List.Forall₂ (Contributes j) ns cs
  extractions : scan'.extractions = scan.extractions ++ (cs.filterMap id).map (·.extraction)
  edits : scan'.edits.edits = scan.edits.edits ++ es
  changes : es.map Edit.change = (cs.filterMap id).flatMap (·.changes)
  valid : ∀ e ∈ es, e.Valid

/-- **What the walk through some nodes adds to a scan.** -/
structure Gains (j : Job) (scan : Scan) (ns : List Tree) (cs : List (Option Contribution))
    (es : List Edit) (scan' : Scan) : Prop extends Collects j scan ns cs es scan' where
  /-- The scopes entered have been left again. -/
  scopes : scan'.scopes.scopes = scan.scopes.scopes
  definitionAt : scan'.definitionAt = scan.definitionAt

variable {j : Job} {scan scan' scan'' : Scan} {ns ms : List Tree}
  {cs ds : List (Option Contribution)} {es fs : List Edit} {body : Scan → Except Failure Scan}

theorem Collects.refl (j : Job) (scan : Scan) : Collects j scan [] [] [] scan where
  contributes := .nil
  extractions := by simp
  edits := by simp
  changes := rfl
  valid := by simp

theorem Collects.append (h : Collects j scan ns cs es scan')
    (h' : Collects j scan' ms ds fs scan'') :
    Collects j scan (ns ++ ms) (cs ++ ds) (es ++ fs) scan'' where
  contributes := rel_append h.contributes h'.contributes
  extractions := by
    rw [h'.extractions, h.extractions, filterMap_append, map_append, append_assoc]
  edits := by rw [h'.edits, h.edits, append_assoc]
  changes := by
    rw [map_append, h.changes, h'.changes, filterMap_append, flatMap_append]
  valid e he := by
    rcases mem_append.mp he with he | he
    · exact h.valid e he
    · exact h'.valid e he

theorem Gains.append (h : Gains j scan ns cs es scan') (h' : Gains j scan' ms ds fs scan'') :
    Gains j scan (ns ++ ms) (cs ++ ds) (es ++ fs) scan'' where
  toCollects := h.toCollects.append h'.toCollects
  scopes := h'.scopes.trans h.scopes
  definitionAt := h'.definitionAt.trans h.definitionAt

/-! ## Outcomes -/

/-- The text deleted at a node has a range. -/
def SpanValid (j : Job) (n : Tree) : Prop :=
  ∀ scope e, signatureAt j.source n scope = .ok (some e) → e.span.start ≤ e.span.stop

/-- A node that the walk cannot get past: its marker is misplaced, no check can be put there, or
what is asked for has no range. -/
inductive Stumbles (j : Job) (n : Tree) : Prop where
  | misplaced {scope : ScopeKind} {fault : MarkerFault} :
      signatureAt j.source n scope = .error fault → Stumbles j n
  | unplaced {scope : ScopeKind} {e : Extraction} {ctx : Context}
      {fault : PlacementFault} : signatureAt j.source n scope = .ok (some e) →
      ContextOf j ctx → changesAt n e ctx = .error fault → Stumbles j n
  | rangeless {scope : ScopeKind} {e : Extraction} {ctx : Context} {changes : List Change}
      {c : Change} : signatureAt j.source n scope = .ok (some e) → ContextOf j ctx →
      changesAt n e ctx = .ok changes → c ∈ changes → ¬ (0 ≤ c.start ∧ c.start ≤ c.stop) →
      Stumbles j n

theorem Stumbles.carriesMarker (h : Stumbles j n) : CarriesMarker j.source n := by
  cases h with
  | @misplaced scope _ hsig | @unplaced scope _ _ _ hsig | @rangeless scope _ _ _ _ hsig =>
    exact ⟨scope, by rw [hsig]; simp⟩

/-- What a failed walk through some nodes tells of them: it stumbled at one, and if their ranges are
valid then the source is malformed. -/
structure FailsAt (j : Job) (ns : List Tree) (f : Failure) : Prop where
  stumbles : ∃ n ∈ ns, Stumbles j n
  malformed : (∀ n ∈ ns, SpanValid j n) → f.cause.kind = .malformed

theorem FailsAt.mono (h : FailsAt j ns f) (hsub : ns ⊆ ms) : FailsAt j ms f where
  stumbles := by
    obtain ⟨n, hn, hmark⟩ := h.stumbles
    exact ⟨n, hsub hn, hmark⟩
  malformed := fun hval => h.malformed fun n hn => hval n (hsub hn)

/-- What may come of the walk through some nodes: it gains what they contribute or fails, inside a
module only because of a marker. -/
def Walked (j : Job) (scan : Scan) (ns : List Tree) : Except Failure Scan → Prop
  | .ok scan' => ∃ cs es, Gains j scan ns cs es scan'
  | .error f => scan.scopes.scopes ≠ [] → FailsAt j ns f

theorem Walked.bind {k : Scan → Except Failure Scan} (h : Walked j scan ns r)
    (hk : ∀ scan', Walked j scan' ms (k scan')) : Walked j scan (ns ++ ms) (r >>= k) := by
  cases r with
  | error f => exact fun hne => (h hne).mono (subset_append_left ..)
  | ok scan₁ =>
    obtain ⟨cs, es, hgains⟩ := h
    have hk := hk scan₁
    change Walked j scan (ns ++ ms) (k scan₁)
    cases hr : k scan₁ with
    | error f =>
      rw [hr] at hk
      intro hne
      exact (hk (by rw [hgains.scopes]; exact hne)).mono (subset_append_right ..)
    | ok scan₂ =>
      rw [hr] at hk
      obtain ⟨ds, fs, hgains'⟩ := hk
      exact ⟨_, _, hgains.append hgains'⟩

theorem Walked.of_bind {α : Type} {x : Except Failure α} {k : α → Except Failure Scan}
    (hx : ∀ f, x = .error f → scan.scopes.scopes ≠ [] → FailsAt j ns f)
    (hk : ∀ a, x = .ok a → Walked j scan ns (k a)) : Walked j scan ns (x >>= k) := by
  cases x with
  | error f => exact hx f rfl
  | ok a => exact hk a rfl

/-! ## Scopes -/

theorem enter_eq (hkind : kind ≠ .module) (hne : scan.scopes.scopes ≠ []) :
    scan.enter j kind name delimiter =
      .ok (⟨scan.scopes.depth + 1, scan.scopes.next kind name delimiter⟩, { scan with scopes :=
          { scopes := scan.scopes.next kind name delimiter :: scan.scopes.scopes
            entered := scan.scopes.entered + 1 } }) := by
  unfold Scan.enter enter
  rw [if_neg (fun h => hkind h.1), if_neg (fun h => hne h.2)]
  rfl

theorem exit_eq {handle : ScopeHandle} {rest : List Scope}
    (hscopes : scan.scopes.scopes = handle.scope :: rest)
    (hdepth : handle.depth = rest.length + 1) :
    scan.exit j handle = .ok { scan with scopes := { scan.scopes with scopes := rest } } := by
  unfold Scan.exit exit
  rw [hscopes]
  dsimp only
  rw [if_pos]
  · rfl
  · refine ⟨?_, rfl⟩
    rw [depth, hscopes, length_cons, hdepth]

/-- **A scope is left as it was entered.** A walk inside a scope is a walk. -/
theorem walked_scope (hkind : kind ≠ .module)
    (hbody : ∀ scan, Walked j scan ns (body scan)) : Walked j scan ns (do
      let (handle, scan) ← scan.enter j kind name delimiter
      let scan ← body scan
      scan.exit j handle) := by
  by_cases hne : scan.scopes.scopes = []
  · -- without a scope around there is no entering
    have herr : scan.enter j kind name delimiter =
        .error (j.failure (.scope (.outsideModule kind))) := by
      unfold Scan.enter enter
      rw [if_neg (fun h => hkind h.1), if_pos ⟨hkind, hne⟩]
      rfl
    rw [herr]
    exact fun h => absurd hne h
  · rw [enter_eq hkind hne]
    have hinner := hbody { scan with scopes :=
      { scopes := scan.scopes.next kind name delimiter :: scan.scopes.scopes
        entered := scan.scopes.entered + 1 } }
    change Walked j scan ns (body _ >>= fun scan₁ => scan₁.exit j _)
    cases hr : body { scan with scopes :=
        { scopes := scan.scopes.next kind name delimiter :: scan.scopes.scopes
          entered := scan.scopes.entered + 1 } } with
    | error f =>
      rw [hr] at hinner
      exact fun _ => hinner (by simp)
    | ok scan₁ =>
      rw [hr] at hinner
      obtain ⟨cs, es, hgains⟩ := hinner
      change Walked j scan ns (scan₁.exit j _)
      -- the walk has left the scopes as they were, so the handle fits
      rw [exit_eq hgains.scopes rfl]
      exact ⟨cs, es,
        { contributes := hgains.contributes
          extractions := hgains.extractions
          edits := hgains.edits
          changes := hgains.changes
          valid := hgains.valid
          scopes := rfl
          definitionAt := hgains.definitionAt }⟩

/-! ## Nodes -/

/-- A signature contributes its extraction and its changes, or is where the walk fails. -/
theorem walked_record (hsig : signatureAt j.source n scope = .ok (some e))
    (hctx : ContextOf j ctx) : Walked j scan [n] (scan.record j e n.range (changesAt n e ctx)) := by
  unfold Scan.record
  cases hch : changesAt n e ctx with
  | error f => exact fun _ => ⟨⟨n, by simp, .unplaced hsig hctx hch⟩, fun _ => rfl⟩
  | ok changes =>
    simp only [Except.mapError, bind, Except.bind]
    rcases scan.edits.addAll_cases changes with ⟨es, hall, hchanges, hvalid⟩ |
      ⟨⟨s', f, hall⟩, c, hc, hbad⟩
    · rw [hall]
      refine ⟨[some ⟨e, changes⟩], es, ?_⟩
      exact
        { contributes := .cons (.signature hsig hctx hch) .nil
          extractions := rfl
          edits := rfl
          changes := by simpa using hchanges
          valid := hvalid
          scopes := rfl
          definitionAt := rfl }
    · rw [hall]
      refine fun _ => ⟨⟨n, by simp, .rangeless hsig hctx hch hc hbad⟩, fun hval => ?_⟩
      exfalso
      obtain ⟨before, after, rfl, hins⟩ :=
        changesAt_cases hctx.source (isSignature_of_signatureAt hsig) hch
      -- only the marker has a range that could be wrong; the rest is inserted
      by_cases hmarker : c = markerChange e
      · have hspan := hval n (by simp) scope e hsig
        refine hbad ?_
        rw [hmarker, markerChange]
        dsimp only
        omega
      · obtain ⟨offset, _, h1, h2⟩ := hins c (by simpa [hmarker] using hc)
        omega

theorem current_error (h : j.scoped scan.scopes.current = .error f) : scan.scopes.scopes = [] := by
  unfold current at h
  cases hs : scan.scopes.scopes with
  | nil => rfl
  | cons top rest => rw [hs] at h; cases h

theorem context_cases (scan : Scan) (j : Job) (target : Target) :
    (∃ ctx, scan.context j target = .ok ctx ∧ ContextOf j ctx) ∨
      ((∃ f, scan.context j target = .error f) ∧ scan.scopes.scopes = []) := by
  unfold Scan.context mangleClassFor current
  split
  · cases scan.scopes.scopes with
    | nil => exact .inr ⟨⟨_, rfl⟩, rfl⟩
    | cons top rest => exact .inl ⟨_, rfl, rfl, rfl, rfl⟩
  · exact .inl ⟨_, rfl, rfl, rfl, rfl⟩

/-- A node without a marker adds nothing to the walk through the nodes below it. -/
theorem Walked.nothing (h : Walked j scan ns r) (scope : ScopeKind)
    (hsig : signatureAt j.source n scope = .ok none) : Walked j scan (ns ++ [n]) r := by
  cases r with
  | error f => exact fun hne => (h hne).mono (subset_append_left ..)
  | ok scan' =>
    obtain ⟨cs, es, hgains⟩ := h
    refine ⟨cs ++ [none], es, ?_⟩
    exact
      { contributes := rel_append hgains.contributes (.cons (.nothing hsig) .nil)
        extractions := by simpa using hgains.extractions
        edits := hgains.edits
        changes := by simpa using hgains.changes
        valid := hgains.valid
        scopes := hgains.scopes
        definitionAt := hgains.definitionAt }

/-- **A signature** is extracted from, its inside is walked through in a scope of its own, and then
it is taken in. -/
theorem walked_signature {n : Tree} {target : Target} {kind : ScopeKind} {name : Option Text}
    {extracted : ScopeKind → Except Failure (Option Extraction)}
    (hkind : kind ≠ .module)
    (hext : ∀ scope, extracted scope =
      (signatureAt j.source n scope).mapError fun f => j.failure (.marker f))
    (hbody : ∀ scan, Walked j scan ns (body scan)) :
    Walked j scan (ns ++ [n]) (do
      let scope ← j.scoped scan.scopes.current
      let extraction ← extracted scope.kind
      let ctx ← scan.context j target
      let (handle, scan) ← scan.enter j kind name none
      let scan ← body scan
      let scan ← scan.exit j handle
      match extraction with
      | none => return scan
      | some e => scan.record j e n.range (changesAt n e ctx)) := by
  refine .of_bind (fun f hf hne => absurd (current_error hf) hne) fun scope _ => ?_
  refine .of_bind (fun f hf _ => ?_) fun extraction hextraction => ?_
  · rw [hext] at hf
    cases hsig : signatureAt j.source n scope.kind with
    | ok x => rw [hsig] at hf; cases hf
    | error fault =>
      rw [hsig] at hf
      injection hf with hf
      exact ⟨⟨n, by simp, .misplaced hsig⟩, fun _ => hf ▸ rfl⟩
  rw [hext] at hextraction
  have hsig := mapError_eq_ok.mp hextraction
  refine .of_bind (fun f hf hne => ?_) fun ctx hctx => ?_
  · rcases context_cases scan j target with ⟨ctx, hok, _⟩ | ⟨_, hnil⟩
    · rw [hok] at hf
      cases hf
    · exact absurd hnil hne
  have hctx : ContextOf j ctx := by
    rcases context_cases scan j target with ⟨ctx', hok, hof⟩ | ⟨⟨f, herr⟩, _⟩
    · rw [hok] at hctx
      injection hctx with hctx
      exact hctx ▸ hof
    · rw [herr] at hctx
      cases hctx
  -- what is left is the walk through the scope, and then the node itself
  have hassoc : ∀ k : Scan → Except Failure Scan, (do
        let (handle, scan) ← scan.enter j kind name none
        let scan ← body scan
        let scan ← scan.exit j handle
        k scan) =
      (do
        let (handle, scan) ← scan.enter j kind name none
        let scan ← body scan
        scan.exit j handle) >>= k := by
    intro k
    cases scan.enter j kind name none with
    | error f => rfl
    | ok p => exact (bind_assoc (body p.2) (fun scan => scan.exit j p.1) k).symm
  rw [hassoc]
  cases extraction with
  | none =>
    rw [bind_pure]
    exact (walked_scope hkind hbody).nothing scope.kind hsig
  | some e => exact (walked_scope hkind hbody).bind fun _ => walked_record hsig hctx

theorem functionExtraction_eq (j : Job) (range : Range) (children : List Tree) (scope : ScopeKind) :
    j.functionExtraction (children.find? (·.kind = .paramList)) scope =
      (signatureAt j.source (.node .functionDefinition range children) scope).mapError
        fun f => j.failure (.marker f) := by
  have hparams : (Tree.node .functionDefinition range children).child? .paramList =
      children.find? (·.kind = .paramList) := rfl
  unfold signatureAt
  rw [hparams]
  cases children.find? (·.kind = .paramList) <;> rfl

theorem signatureAt_eq_none (source : Text) (scope : ScopeKind) (h : ¬ IsSignature n) :
    signatureAt source n scope = .ok none := by
  unfold signatureAt
  split
  · exact absurd (.inl (by assumption)) h
  · exact absurd (.inr (by assumption)) h
  · rfl

/-- **The walk through a tree** gains what its nodes contribute, children first. -/
theorem visitAll_walked {ts : List Tree}
    (h : ∀ t ∈ ts, ∀ scan, Walked j scan t.postorder (visit j scan t)) (scan : Scan) :
    Walked j scan (Tree.postorderAll ts) (visitAll j scan ts) := by
  induction ts generalizing scan with
  | nil =>
    rw [visitAll]
    exact ⟨[], [], Collects.refl j scan, rfl, rfl⟩
  | cons t ts ih =>
    rw [visitAll, Tree.postorderAll]
    exact (h t (by simp) scan).bind fun scan' => ih (fun s hs => h s (.tail _ hs)) scan'

theorem visit_walked (t : Tree) (scan : Scan) : Walked j scan t.postorder (visit j scan t) := by
  induction t using Tree.byChildren generalizing scan with
  | _ t ih =>
    have hall : ∀ scan, Walked j scan (Tree.postorderAll t.children) (visitAll j scan t.children) :=
      visitAll_walked ih
    rw [Tree.postorder_eq]
    obtain ⟨kind, range, children⟩ := t
    by_cases hclass : kind = .classDefinition
    · subst hclass
      rw [visit]
      exact (walked_scope (by decide) hall).nothing .module rfl
    by_cases hfun : kind = .functionDefinition
    · subst hfun
      rw [visit]
      exact walked_signature (by decide) (functionExtraction_eq j range children) hall
    by_cases hlam : kind = .lambdaExpression
    · subst hlam
      rw [visit]
      exact walked_signature (by decide) (fun scope => rfl) hall
    by_cases hstr : kind = .formatString
    · subst hstr
      rw [visit]
      exact (walked_scope (by decide) hall).nothing .module rfl
    · rw [visit]
      · exact (hall scan).nothing .module (signatureAt_eq_none _ _ fun hsig => hsig.elim hfun hlam)
      all_goals assumption

end Posonly.Conversion
