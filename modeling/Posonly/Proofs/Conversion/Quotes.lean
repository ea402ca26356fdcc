import Posonly.Proofs.Conversion.Calls

/-!
# Quotes inside format strings

The names that a lambda is checked for are put in as string literals, perhaps inside the replacement
fields of format strings. An older interpreter ends a format string at the next quote of its own, so
the literals must do without the quotes of all format strings around. Three things have to agree for
this: the delimiters on the stack of scopes at the moment when the walk comes to the lambda
(`Reached`), the choice of a quote among them (`chooseQuote`), and the notion of reuse that the
check of the version has (`reuses`).
-/

open List Posonly.Decorator

namespace Posonly

/-! ## The choice of a quote -/

namespace Delimiter

variable {around : List Delimiter} {preferred q : QuoteMark}

/-- Each quote ends one of some literals. -/
def Exhausted (around : List Delimiter) : Prop :=
  ∀ q : QuoteMark, ∃ d ∈ around, d.quote = q ∧ d.triple = false

theorem any_closes_iff : (around.any fun d => d.quote == q && !d.triple) = true ↔
      ∃ d ∈ around, d.quote = q ∧ d.triple = false := by
  simp

theorem any_used_of_closes (h : (around.any fun d => d.quote == q && !d.triple) = true) :
    (around.any fun d => d.quote == q) = true := by
  obtain ⟨d, hd, hquote, _⟩ := any_closes_iff.mp h
  exact any_eq_true.mpr ⟨d, hd, by simpa using hquote⟩

theorem exhausted_iff (preferred : QuoteMark) : Exhausted around ↔
    (around.any fun d => d.quote == preferred && !d.triple) = true ∧
      (around.any fun d => d.quote == preferred.other && !d.triple) = true := by
  rw [any_closes_iff, any_closes_iff]
  constructor
  · intro h
    exact ⟨h _, h _⟩
  · rintro ⟨hone, hother⟩ q
    cases preferred <;> cases q <;> assumption

/-- **No quote is chosen** exactly if each would end a literal. -/
theorem chooseQuote_eq_none_iff : chooseQuote around preferred = none ↔ Exhausted around := by
  rw [exhausted_iff preferred]
  unfold chooseQuote
  constructor
  · intro h
    dsimp only at h
    split_ifs at h with _ _ hone hother
    exact ⟨by simpa using hone, by simpa using hother⟩
  · rintro ⟨hone, hother⟩
    simp only [any_used_of_closes hone, any_used_of_closes hother, hone, hother, Bool.not_true,
      Bool.false_eq_true, if_false]

/-- **A chosen quote** ends no literal, and is the preferred one if no literal uses that. -/
theorem chooseQuote_eq_some (h : chooseQuote around preferred = some q) :
    (∀ d ∈ around, d.triple = false → d.quote ≠ q) ∧
      ((∀ d ∈ around, d.quote ≠ preferred) → q = preferred) := by
  have hunused : ∀ {p}, (!around.any fun d => d.quote == p) = true → ∀ d ∈ around, d.quote ≠ p := by
    intro p hp
    simpa using hp
  have hopen : ∀ {p}, (!around.any fun d => d.quote == p && !d.triple) = true →
      ∀ d ∈ around, d.triple = false → d.quote ≠ p := by
    intro p hp d hd htriple hquote
    have hany := any_closes_iff.mpr ⟨d, hd, hquote, htriple⟩
    rw [hany] at hp
    cases hp
  have hused : ∀ {p}, ¬ (!around.any fun d => d.quote == p) = true →
      ¬ ∀ d ∈ around, d.quote ≠ p := by
    intro p hp hnone
    refine hp ?_
    rw [Bool.not_eq_true', any_eq_false]
    intro d hd
    simpa using hnone d hd
  unfold chooseQuote at h
  dsimp only at h
  split_ifs at h with hone hother hfree hfree <;> cases h
  · exact ⟨fun d hd _ => hunused hone d hd, fun _ => rfl⟩
  · exact ⟨fun d hd _ => hunused hother d hd, fun hall => absurd hall (hused hone)⟩
  · exact ⟨hopen hfree, fun hall => absurd hall (hused hone)⟩
  · exact ⟨hopen hfree, fun hall => absurd hall (hused hone)⟩

/-! ## Names between quotes -/

theorem ofUnit?_unit (q : QuoteMark) : QuoteMark.ofUnit? q.unit = some q := by
  cases q <;> rfl

theorem not_isLetterUnit_unit (q : QuoteMark) : isLetterUnit q.unit = false := by
  cases q <;> rfl

/-- **A name between quotes** is read as a literal with one quote, wherever it stands, unless more
such quotes come right behind the opening one. -/
theorem read?_quoteName {name after : Text} (before : Text) (hname : name.head? ≠ some q.unit)
    (hafter : after.head? ≠ some q.unit) :
    read? (before ++ quoteName name q ++ after) before.length =
      some ⟨[], q, false, before.length⟩ := by
  have hhead : (before ++ quoteName name q ++ after : Text).slice before.length
      (before.length + width) = q.unit :: (name ++ q.unit :: after).take 7 := by
    rw [Text.slice, drop_take, Nat.add_sub_cancel_left, append_assoc, drop_left]
    simp [quoteName, QuoteMark.text, width]
  -- an empty name puts the closing quote right behind the opening one, and only what follows tells
  -- this from the start of a triple quote
  have hsingle : Text.startsWith ((name ++ q.unit :: after).take 7) [q.unit, q.unit] = false := by
    cases name with
    | nil =>
      cases after with
      | nil => simp [Text.startsWith]
      | cons u after =>
        have hu : (q.unit == u) = false := beq_eq_false_iff_ne.mpr fun h => hafter (by rw [h]; rfl)
        simp [Text.startsWith, isPrefixOf, hu]
    | cons u name =>
      have hu : (q.unit == u) = false := beq_eq_false_iff_ne.mpr fun h => hname (by rw [h]; rfl)
      simp [Text.startsWith, isPrefixOf, hu]
  unfold read?
  simp only [hhead, takeWhile_cons, dropWhile_cons, not_isLetterUnit_unit,
    Bool.false_eq_true, if_false, ofUnit?_unit, Option.map_some, hsingle]

/-- Names between quotes of a kind do no harm inside some literals. -/
structure Harmless (around : List Delimiter) (names : List Text) (q : QuoteMark) : Prop where
  /-- The quote ends none of the literals. -/
  closesNone : ∀ d ∈ around, d.triple = false → d.quote ≠ q
  /-- It is the single one if that is not used at all. -/
  preferred : (∀ d ∈ around, d.quote ≠ .single) → q = .single
  /-- Wherever a call with the names is put, each of them is read there as a literal that reuses no
  quotes of those around. -/
  reusesNone : ∀ (decorator before after : Text) (pre post : List Text) (name : Text),
    names = pre ++ name :: post → name.head? ≠ some q.unit → ∃ inner,
      read? (before ++ call decorator names q ++ after)
          (before.length + (callAhead decorator pre q).length) = some inner ∧
        ∀ d ∈ around, inner.reuses d = false

theorem harmless_of_chooseQuote (h : chooseQuote around .single = some q) (names : List Text) :
    Harmless around names q where
  closesNone := (chooseQuote_eq_some h).1
  preferred := (chooseQuote_eq_some h).2
  reusesNone decorator before after pre post name hnames hname := by
    obtain ⟨u, behind, hu, hcall⟩ := call_eq decorator name pre post q
    have hafter : (u :: behind ++ after).head? ≠ some q.unit := by simpa using hu
    have hread := read?_quoteName (before ++ callAhead decorator pre q) hname hafter
    rw [hnames, hcall, ← length_append]
    simp only [append_assoc] at hread ⊢
    refine ⟨_, hread, fun d hd => ?_⟩
    have hcloses := (chooseQuote_eq_some h).1 d hd
    cases htriple : d.triple with
    | true => simp [reuses, htriple]
    | false => simpa [reuses, htriple] using Ne.symm (hcloses htriple)

end Delimiter

namespace Conversion

open Posonly.Signature

/-! ## Where the walk comes to -/

/-- The scan with which the walk goes on to the children of a node. -/
def Scan.below (scan : Scan) (j : Job) (n : Tree) : Except Failure Scan :=
  match n.kind with
  | .classDefinition => (scan.enter j .classBody (nameOf j.source n.children) none).map Prod.snd
  | .functionDefinition => do
    let scope ← j.scoped scan.scopes.current
    let _ ← j.functionExtraction (n.child? .paramList) scope.kind
    let _ ← scan.context j .function
    (scan.enter j .function (nameOf j.source n.children) none).map Prod.snd
  | .lambdaExpression => do
    let scope ← j.scoped scan.scopes.current
    let _ ← j.lambdaExtraction n scope.kind
    let _ ← scan.context j .lambda
    (scan.enter j .lambda none none).map Prod.snd
  | .formatString => (scan.enter j .string none (Delimiter.read? j.source n.start)).map Prod.snd
  | _ => .ok scan

/-- **The walk comes to a node** with a scan and some nodes above it: to a statement after those
ahead of it, and to a child of a node after those ahead of it. -/
inductive Reached (j : Job) (tree : Tree) : List Tree → Scan → Tree → Prop where
  | statement {handle : ScopeHandle} {start scan : Scan} {n : Tree} {ahead behind : List Tree} :
      ({} : Scan).enter j .module none none = .ok (handle, start) →
      tree.children = ahead ++ n :: behind → visitStatements j start ahead = .ok scan →
      Reached j tree [] scan n
  | child {above : List Tree} {scan inner scan' : Scan} {m n : Tree} {ahead behind : List Tree} :
      Reached j tree above scan m → scan.below j m = .ok inner →
      m.children = ahead ++ n :: behind → visitAll j inner ahead = .ok scan' →
      Reached j tree (m :: above) scan' n

variable {j : Job} {tree n : Tree} {scan scan' inner : Scan} {above : List Tree}

/-! ### Every node is come to -/

section

variable {α β γ : Type} {f : β → Except Failure γ}

theorem exists_leave_bind {x : Except Failure α} {k : α → Except Failure γ}
    {k' : α → Except Failure β} (h : ∀ a, ∃ leave, k a = k' a >>= fun b => f b >>= leave) :
    ∃ leave, (x >>= k) = (x >>= k') >>= fun b => f b >>= leave := by
  cases x with
  | error e => exact ⟨fun _ => .error e, rfl⟩
  | ok a => exact h a

theorem exists_leave_scope {x : Except Failure (α × β)} {k : α × β → Except Failure γ}
    (h : ∀ a b, ∃ leave, k (a, b) = f b >>= leave) :
    ∃ leave, (x >>= k) = x.map Prod.snd >>= fun b => f b >>= leave := by
  cases x with
  | error e => exact ⟨fun _ => .error e, rfl⟩
  | ok p => exact h p.1 p.2

end

/-- **The walk through a node** goes through its children in order, with the scan below it. -/
theorem visit_eq (j : Job) (scan : Scan) (n : Tree) : ∃ leave : Scan → Except Failure Scan,
    visit j scan n = scan.below j n >>= fun inner => visitAll j inner n.children >>= leave := by
  obtain ⟨kind, range, children⟩ := n
  by_cases hclass : kind = .classDefinition
  · subst hclass
    rw [visit]
    exact exists_leave_scope fun handle scan => ⟨_, rfl⟩
  by_cases hfun : kind = .functionDefinition
  · subst hfun
    rw [visit]
    exact exists_leave_bind fun scope => exists_leave_bind fun extraction =>
      exists_leave_bind fun ctx => exists_leave_scope fun handle scan => ⟨_, rfl⟩
  by_cases hlam : kind = .lambdaExpression
  · subst hlam
    rw [visit]
    exact exists_leave_bind fun scope => exists_leave_bind fun extraction =>
      exists_leave_bind fun ctx => exists_leave_scope fun handle scan => ⟨_, rfl⟩
  by_cases hstr : kind = .formatString
  · subst hstr
    rw [visit]
    exact exists_leave_scope fun handle scan => ⟨_, rfl⟩
  · -- any other node has no scope of its own, and nothing is left to do behind its children
    have hbelow : scan.below j (.node kind range children) = .ok scan := by
      unfold Scan.below
      split
      · exact absurd (by assumption) hclass
      · exact absurd (by assumption) hfun
      · exact absurd (by assumption) hlam
      · exact absurd (by assumption) hstr
      · rfl
    rw [visit, hbelow]
    · exact ⟨pure, (bind_pure _).symm⟩
    all_goals assumption

variable {ahead behind ts : List Tree} {x : Lineage} {e : Extraction}

theorem walk_append {walk : Scan → List Tree → Except Failure Scan}
    (step : Scan → Tree → Except Failure Scan) (hnil : ∀ scan, walk scan [] = .ok scan)
    (hcons : ∀ scan t ts, walk scan (t :: ts) = step scan t >>= fun scan => walk scan ts)
    (h : walk scan (ahead ++ behind) = .ok scan') :
    ∃ between, walk scan ahead = .ok between ∧ walk between behind = .ok scan' := by
  induction ahead generalizing scan with
  | nil => exact ⟨scan, hnil scan, h⟩
  | cons t ahead ih =>
    rw [cons_append, hcons] at h
    obtain ⟨scan₁, hfirst, hrest⟩ := bind_eq_ok.mp h
    obtain ⟨between, hahead, hbehind⟩ := ih hrest
    rw [hcons]
    exact ⟨between, bind_eq_ok.mpr ⟨scan₁, hfirst, hahead⟩, hbehind⟩

theorem Reached.lineages (h : Reached j tree above scan n) (hvisit : visit j scan n = .ok scan')
    (hx : x ∈ n.lineages above) : ∃ found, Reached j tree x.above found x.node := by
  induction n using Tree.byChildren generalizing above scan scan' with
  | _ n ih =>
    rw [Tree.lineages_eq] at hx
    rcases mem_cons.mp hx with rfl | hx
    · exact ⟨scan, h⟩
    obtain ⟨c, hc, hx⟩ := Tree.mem_lineagesAll.mp hx
    -- the walk had to get past the children ahead of this one first
    obtain ⟨ahead, behind, hsplit⟩ := append_of_mem hc
    obtain ⟨leave, hleave⟩ := visit_eq j scan n
    rw [hleave] at hvisit
    obtain ⟨inner, hbelow, hvisit⟩ := bind_eq_ok.mp hvisit
    obtain ⟨walked, hall, _⟩ := bind_eq_ok.mp hvisit
    rw [hsplit] at hall
    obtain ⟨between, hahead, hbehind⟩ := walk_append (visit j) (fun _ => by rw [visitAll]; rfl)
      (fun _ _ _ => by rw [visitAll]) hall
    rw [visitAll] at hbehind
    obtain ⟨scan₁, hchild, _⟩ := bind_eq_ok.mp hbehind
    exact ih c hc (.child h hbelow hsplit hahead) hchild hx

/-- **If the walk gets through a source, it has come to all nodes of it.** -/
theorem reached_of_visitScript (h : visitScript j tree = .ok scan)
    (hx : x ∈ Tree.lineagesAll [] tree.children) :
    ∃ found, Reached j tree x.above found x.node := by
  obtain ⟨⟨handle, start⟩, henter, h⟩ := bind_eq_ok.mp h
  obtain ⟨walked, hwalk, _⟩ := bind_eq_ok.mp h
  obtain ⟨t, ht, hx⟩ := Tree.mem_lineagesAll.mp hx
  obtain ⟨ahead, behind, hsplit⟩ := append_of_mem ht
  rw [hsplit] at hwalk
  obtain ⟨between, hahead, hbehind⟩ := walk_append (visitStatement j)
    (fun _ => by rw [visitStatements]; rfl) (fun _ _ _ => by rw [visitStatements]) hwalk
  rw [visitStatements] at hbehind
  obtain ⟨scan₁, hstatement, _⟩ := bind_eq_ok.mp hbehind
  obtain ⟨scan₂, hvisit, _⟩ := bind_eq_ok.mp hstatement
  exact (Reached.statement henter hsplit hahead).lineages hvisit hx

/-! ### The scopes at a node -/

theorem enter_situation {kind : ScopeKind} {name : Option Text} {delimiter : Option Delimiter}
    (h : (scan.enter j kind name delimiter).map Prod.snd = .ok inner) :
    Situation.ofScopes inner.scopes.scopes =
        { mangleClass := if kind = .classBody then name
            else (Situation.ofScopes scan.scopes.scopes).mangleClass
          delimiters := (Situation.ofScopes scan.scopes.scopes).delimiters ++ delimiter.toList } ∧
      scan.scopes.scopes <:+ inner.scopes.scopes := by
  cases henter : scan.enter j kind name delimiter with
  | error e => rw [henter] at h; cases h
  | ok p =>
    rw [henter] at h
    cases h
    obtain ⟨_, hscopes⟩ := enter_eq_ok henter
    rw [hscopes]
    exact ⟨ofScopes_next .., suffix_cons ..⟩

/-- Below a node there are the scopes at the node, and at most one more. -/
theorem below_situation (h : scan.below j n = .ok inner) :
    Situation.ofScopes inner.scopes.scopes =
      (Situation.ofScopes scan.scopes.scopes).below j.source n ∧
      scan.scopes.scopes <:+ inner.scopes.scopes := by
  unfold Scan.below at h
  unfold Situation.below
  split at h
  · rename_i hkind
    obtain ⟨hsituation, hsuffix⟩ := enter_situation h
    rw [hkind, hsituation]
    exact ⟨by simp, hsuffix⟩
  · rename_i hkind
    iterate 3 obtain ⟨_, _, h⟩ := bind_eq_ok.mp h
    obtain ⟨hsituation, hsuffix⟩ := enter_situation h
    rw [hkind, hsituation]
    exact ⟨by simp, hsuffix⟩
  · rename_i hkind
    iterate 3 obtain ⟨_, _, h⟩ := bind_eq_ok.mp h
    obtain ⟨hsituation, hsuffix⟩ := enter_situation h
    rw [hkind, hsituation]
    exact ⟨by simp, hsuffix⟩
  · rename_i hkind
    obtain ⟨hsituation, hsuffix⟩ := enter_situation h
    rw [hkind, hsituation]
    exact ⟨by simp, hsuffix⟩
  · rename_i hclass _ _ hstr
    cases h
    refine ⟨?_, suffix_refl _⟩
    split
    · exact absurd (by assumption) hclass
    · exact absurd (by assumption) hstr
    · rfl

theorem visitAll_scopes (h : visitAll j scan ts = .ok scan') :
    scan'.scopes.scopes = scan.scopes.scopes := by
  have hwalked : Walked j scan (Tree.postorderAll ts) (visitAll j scan ts) :=
    visitAll_walked (fun t _ => visit_walked t) scan
  rw [h] at hwalked
  obtain ⟨_, _, hgains⟩ := hwalked
  exact hgains.scopes

theorem visitStatements_bare (hbare : Bare scan) (h : visitStatements j scan ts = .ok scan') :
    Bare scan' := by
  induction ts generalizing scan with
  | nil =>
    rw [visitStatements] at h
    injection h with h
    exact h ▸ hbare
  | cons t ts ih =>
    rw [visitStatements] at h
    obtain ⟨scan₁, hfirst, hrest⟩ := bind_eq_ok.mp h
    exact ih (visitStatement_renders hbare hfirst).2 hrest

/-- **At every node that the walk comes to**, it is inside a module, and the stack tells the
situation that the nodes above tell. -/
theorem Reached.situation (h : Reached j tree above scan n) :
    Situation.ofScopes scan.scopes.scopes = .along j.source above ∧ scan.scopes.scopes ≠ [] := by
  induction h with
  | statement henter _ hwalk =>
    obtain ⟨_, hscopes⟩ := enter_eq_ok henter
    have hbare := visitStatements_bare ⟨_, hscopes, rfl, rfl⟩ hwalk
    obtain ⟨root, hroot, _⟩ := id hbare
    exact ⟨hbare.situation, by rw [hroot]; simp⟩
  | child _ hbelow _ hwalk ih =>
    obtain ⟨hsituation, hsuffix⟩ := below_situation hbelow
    rw [visitAll_scopes hwalk, hsituation, ih.1, Situation.along_cons]
    refine ⟨rfl, fun hnil => ih.2 ?_⟩
    rw [hnil] at hsuffix
    exact suffix_nil.mp hsuffix

/-! ## Lambdas -/

theorem lambdaChanges_cases (e : Extraction) (range : Range) {ctx : Context}
    (hdismiss : ctx.dismiss = false) :
    (Delimiter.chooseQuote ctx.delimiters .single = none ∧
      lambdaChanges e range ctx = .error .noFreeQuote) ∨
    ∃ q, Delimiter.chooseQuote ctx.delimiters .single = some q ∧
      lambdaChanges e range ctx =
        .ok [⟨range.start, range.start, call ctx.style.decorator
            (emittedNames e ctx) q ++ "(", .wrapOpen⟩,
          markerChange e, ⟨range.stop, range.stop, ")", .wrapClose⟩] := by
  unfold lambdaChanges
  rw [hdismiss, if_neg (by simp)]
  cases Delimiter.chooseQuote ctx.delimiters .single with
  | none => exact .inl ⟨rfl, rfl⟩
  | some q => exact .inr ⟨q, rfl, rfl⟩

theorem record_placement_iff {range : Range} {fault : PlacementFault}
    {changes : Except PlacementFault (List Change)} :
    scan.record j e range changes = .error (j.failure (.placement fault range)) ↔
      changes = .error fault := by
  unfold Scan.record
  cases changes with
  | error f => simp [Except.mapError, bind, Except.bind, Job.failure]
  | ok cs =>
    simp only [Except.mapError, bind, Except.bind]
    split <;> simp [pure, Except.pure, Job.failure]

/-- **The walk through a lambda with a marker** renders it after the walk through its inside. -/
theorem visit_lambda {walked : Scan} (hlambda : n.kind = .lambdaExpression)
    (hne : scan.scopes.scopes ≠ []) (he : extractionAt j.source .module n = some e)
    (hbelow : scan.below j n = .ok inner) (hwalk : visitAll j inner n.children = .ok walked) :
    ∃ (ctx : Context) (left : Scan) (e' : Extraction), scan.context j .lambda = .ok ctx ∧
      visit j scan n = left.record j e' n.range (lambdaChanges e n.range ctx) := by
  obtain ⟨kind, range, children⟩ := n
  obtain rfl : kind = .lambdaExpression := hlambda
  obtain ⟨top, rest, hscopes⟩ := exists_cons_of_ne_nil hne
  have hcurrent : j.scoped scan.scopes.current = .ok top := by
    unfold ScopeStack.current
    rw [hscopes]
    rfl
  -- the scope around changes nothing about an extraction but the scope it names
  have hextraction : j.lambdaExtraction (.node .lambdaExpression range children) top.kind =
      .ok (some { e with scope := top.kind }) := by
    have hsig :=
      signatureAt_scope j.source (.node .lambdaExpression range children) .module top.kind
    rw [signatureAt_of_extractionAt he] at hsig
    exact mapError_eq_ok.mpr hsig
  have henter : scan.enter j .lambda none none = .ok (⟨scan.scopes.depth + 1, _⟩, _) :=
    enter_eq (by decide) hne
  rcases context_cases scan j .lambda with ⟨ctx, hctx, _⟩ | ⟨_, hnil⟩
  · unfold Scan.below at hbelow
    simp only [Tree.kind, hcurrent, hextraction, hctx, henter, bind,
      Except.bind, Except.map] at hbelow
    injection hbelow with hbelow
    have hexit :
        walked.exit j ⟨scan.scopes.depth + 1, scan.scopes.next .lambda none none⟩ = .ok _ :=
      exit_eq (by rw [visitAll_scopes hwalk, ← hbelow]) rfl
    refine ⟨ctx, { walked with scopes := { walked.scopes with scopes := scan.scopes.scopes } },
      { e with scope := top.kind }, hctx, ?_⟩
    rw [visit]
    simp only [hcurrent, hextraction, hctx, henter, bind, Except.bind, hbelow]
    simp only [Tree.children] at hwalk
    rw [hwalk]
    simp only [hexit]
    rfl
  · exact absurd hnil hne

/-- **Generated quotes never close a literal around them.** Wherever the walk comes to, the
delimiters on the stack are those of the format strings above, outermost first; and if it gets
through a source it has come to every node. A lambda with a marker is refused for want of a quote,
as malformed, exactly if each quote ends a format string above it. Otherwise the quote of its call
ends none of them, is the single one if that is not used, and the names between such quotes reuse no
quotes of those around. -/
theorem lambda_quotes (j : Job) (tree : Tree) (hdismiss : j.options.dismiss = false) :
    (∀ scan, visitScript j tree = .ok scan → ∀ x ∈ Tree.lineagesAll [] tree.children,
      ∃ found, Reached j tree x.above found x.node) ∧
    (∀ range, (j.failure (.placement .noFreeQuote range)).diagnostic.kind = .malformed ∧
      (j.failure (.placement .noFreeQuote range)).diagnostic.message =
        "no quote character is free inside the enclosing format strings") ∧
    ∀ (above : List Tree) (scan : Scan) (n : Tree), Reached j tree above scan n →
      scan.scopes.delimiters = delimitersAround j.source above ∧
      ∀ e, n.kind = .lambdaExpression → extractionAt j.source .module n = some e →
        ∃ ctx, scan.context j .lambda = .ok ctx ∧
          (lambdaChanges e n.range ctx = .error .noFreeQuote ↔
            Delimiter.Exhausted (delimitersAround j.source above)) ∧
          (∀ inner walked, scan.below j n = .ok inner → visitAll j inner n.children = .ok walked →
            (visit j scan n = .error (j.failure (.placement .noFreeQuote n.range)) ↔
              Delimiter.Exhausted (delimitersAround j.source above))) ∧
          (¬ Delimiter.Exhausted (delimitersAround j.source above) → ∃ q,
            lambdaChanges e n.range ctx =
              .ok [⟨n.start, n.start, call j.options.style.decorator
                  (emittedNames e ctx) q ++ "(", .wrapOpen⟩,
                markerChange e, ⟨n.stop, n.stop, ")", .wrapClose⟩] ∧
            Delimiter.Harmless (delimitersAround j.source above)
              (emittedNames e ctx) q) := by
  refine ⟨fun scan h x hx => reached_of_visitScript h hx, fun range => ⟨rfl, rfl⟩,
    fun above scan n hreached => ?_⟩
  obtain ⟨hsituation, hne⟩ := hreached.situation
  refine ⟨congrArg Situation.delimiters hsituation, fun e hlambda he => ?_⟩
  rcases context_cases scan j .lambda with ⟨ctx, hctx, hof⟩ | ⟨_, hnil⟩
  swap
  · exact absurd hnil hne
  have haround : ctx.delimiters = delimitersAround j.source above := by
    rw [context_eq_ok hctx, hsituation]
    rfl
  -- the quote is chosen by the delimiters alone
  have hiff : lambdaChanges e n.range ctx = .error .noFreeQuote ↔
      Delimiter.Exhausted (delimitersAround j.source above) := by
    have hquote : Delimiter.chooseQuote (delimitersAround j.source above) .single = none ↔
        Delimiter.Exhausted (delimitersAround j.source above) := Delimiter.chooseQuote_eq_none_iff
    rw [← hquote, ← haround]
    rcases lambdaChanges_cases e n.range (hof.dismiss.trans hdismiss) with
      ⟨hnone, hchanges⟩ | ⟨q, hsome, hchanges⟩
    · simp [hnone, hchanges]
    · simp [hsome, hchanges]
  refine ⟨ctx, hctx, hiff, fun inner walked hbelow hwalk => ?_, fun hfree => ?_⟩
  · -- the walk inside has gone through, so only the changes of the lambda can fail
    obtain ⟨ctx', left, e', hctx', hvisit⟩ := visit_lambda hlambda hne he hbelow hwalk
    rw [hctx] at hctx'
    injection hctx' with hctx'
    rw [hvisit, record_placement_iff, ← hctx']
    exact hiff
  · rcases lambdaChanges_cases e n.range (hof.dismiss.trans hdismiss) with
      ⟨_, hchanges⟩ | ⟨q, hsome, hchanges⟩
    · exact absurd (hiff.mp hchanges) hfree
    · rw [haround] at hsome
      rw [hof.style] at hchanges
      exact ⟨q, hchanges, Delimiter.harmless_of_chooseQuote hsome _⟩

/-- A lambda in a format string with one quote, in a lambda in a format string with three of the
other: `x = f'''{(lambda a, /: f"{(lambda b, /: b)}")}'''`. -/
def quotedSource : Text := "x = f'''\x7b(lambda a, /: f\"\x7b(lambda b, /: b)\x7d\")\x7d'''\n"

def quotedTree : Tree :=
  .node .script ⟨0, 50⟩ [.node (.other "AssignStatement") ⟨0, 49⟩ [
    .leaf .variableName 0 1, .leaf (.other "AssignOp") 2 3,
    .node .formatString ⟨4, 49⟩ [.node (.other "FormatReplacement") ⟨8, 46⟩ [.sign "\x7b" 8,
      .node (.other "ParenthesizedExpression") ⟨9, 45⟩ [.sign "(" 9,
        .markedLambda 10 (.node .formatString ⟨23, 44⟩ [
          .node (.other "FormatReplacement") ⟨25, 43⟩ [.sign "\x7b" 25,
            .node (.other "ParenthesizedExpression") ⟨26, 42⟩ [.sign "(" 26,
              .markedLambda 27 (.leaf .variableName 40 41), .sign ")" 41],
            .sign "\x7d" 42]]),
        .sign ")" 44],
      .sign "\x7d" 45]]]]

/-- The delimiters around the inner lambda. -/
def quotedAround : List Delimiter := [⟨"f", .single, true, 4⟩, ⟨"f", .double, false, 23⟩]

theorem quoted_evaluated :
    (visitScript ⟨quotedSource, plainOptions⟩ quotedTree).toOption.isSome = true ∧
    ((Tree.lineagesAll [] quotedTree.children).filter fun x => x.node.kind = .lambdaExpression).map
        (fun x => (delimitersAround quotedSource x.above,
          (extractionAt quotedSource .module x.node).map fun e => e.span)) =
      [(quotedAround.take 1, some ⟨18, 21⟩), (quotedAround, some ⟨35, 38⟩)] := by
  decide +kernel

theorem lambda_quotes_quoted :
    ∃ x ∈ Tree.lineagesAll [] quotedTree.children, ∃ found e ctx,
      Reached ⟨quotedSource, plainOptions⟩ quotedTree x.above found x.node ∧
      found.scopes.delimiters = quotedAround ∧ x.node.kind = .lambdaExpression ∧
      extractionAt quotedSource .module x.node = some e ∧
      lambdaChanges e x.node.range ctx =
        .ok [⟨x.node.start, x.node.start, call "__posonly_decorator"
            (emittedNames e ctx) .single ++ "(", .wrapOpen⟩,
          markerChange e, ⟨x.node.stop, x.node.stop, ")", .wrapClose⟩] := by
  obtain ⟨hok, hlambdas⟩ := quoted_evaluated
  have hinner := hlambdas.symm ▸ mem_cons_of_mem _ (mem_singleton_self (quotedAround, _))
  obtain ⟨x, hx, hvalues⟩ := mem_map.mp hinner
  obtain ⟨hx, hlambda⟩ := mem_filter.mp hx
  obtain ⟨haround, hspan⟩ := Prod.mk.injEq .. ▸ hvalues
  obtain ⟨e, he, _⟩ := Option.map_eq_some_iff.mp hspan
  have hlambda := of_decide_eq_true hlambda
  obtain ⟨hall, _, hquotes⟩ := lambda_quotes ⟨quotedSource, plainOptions⟩ quotedTree rfl
  cases hscan : visitScript ⟨quotedSource, plainOptions⟩ quotedTree with
  | error f => rw [hscan] at hok; cases hok
  | ok scan =>
    obtain ⟨found, hreached⟩ := hall scan hscan x hx
    obtain ⟨hdelimiters, hlambdas⟩ := hquotes _ _ _ hreached
    obtain ⟨ctx, _, _, _, hcall⟩ := hlambdas e hlambda he
    rw [haround] at hdelimiters hcall
    -- the double quote is ruled out by the inner string, and the single one is left
    have hfree : ¬ Delimiter.Exhausted quotedAround := by
      intro h
      obtain ⟨d, hd, hquote, htriple⟩ := h .single
      simp only [quotedAround, mem_cons, not_mem_nil, or_false] at hd
      rcases hd with rfl | rfl
      · cases htriple
      · cases hquote
    obtain ⟨q, hchanges, hharmless⟩ := hcall hfree
    have hq : q = .single := by
      have hnot := hharmless.closesNone ⟨"f", .double, false, 23⟩ (by simp [quotedAround]) rfl
      cases q with
      | single => rfl
      | double => exact absurd rfl hnot
    rw [hq] at hchanges
    exact ⟨x, hx, found, e, ctx, hreached, hdelimiters, hlambda, he, hchanges⟩

end Conversion

end Posonly
