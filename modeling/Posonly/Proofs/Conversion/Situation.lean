import Posonly.Proofs.Conversion.Script
import Posonly.Proofs.Syntax.Lineage

/-!
# Where signatures stand

The walk keeps a stack of scopes. All that a signature takes from it is the class in force and the
delimiters of the format strings around it, and both hang on the nodes above the signature alone.
`situated` goes down a tree with these two and no stack. The changes that the walk gathers are those
made for the nodes of a tree in the situations that they are in (`visit_renders`), so the stack can
be forgotten from here on.
-/

open List

namespace Posonly.Conversion

open Posonly.Signature

/-- What a signature takes from the nodes above it. -/
structure Situation where
  /-- The innermost class around it. -/
  mangleClass : Option Text := none
  /-- The delimiters of the format strings around it, outermost first. -/
  delimiters : List Delimiter := []

namespace Situation

/-- The situation below a node. -/
def below (s : Situation) (source : Text) (n : Tree) : Situation :=
  match n.kind with
  | .classDefinition => { s with mangleClass := nameOf source n.children }
  | .formatString =>
    { s with delimiters := s.delimiters ++ (Delimiter.read? source n.start).toList }
  | _ => s

/-- The class that the names of a target are mangled with. -/
def classFor (s : Situation) (policy : ManglePolicy) (target : Target) : Option Text :=
  if policy.covers target then s.mangleClass else none

/-- The context of a target in a situation. -/
def context (s : Situation) (j : Job) (target : Target) : Decorator.Context where
  source := j.source
  style := j.options.style
  dismiss := j.options.dismiss
  mangleClass := s.classFor j.options.mangling target
  delimiters := s.delimiters

/-- The situation on top of a stack of scopes. -/
def ofScopes (scopes : List Scope) : Situation where
  mangleClass := scopes.head?.bind (·.mangleClass)
  delimiters := scopes.reverse.filterMap (·.delimiter)

end Situation

mutual

/-- The nodes of a tree, children first, each with its situation. -/
def situated (source : Text) (s : Situation) : Tree → List (Tree × Situation)
  | .node kind range children =>
    situatedAll source (s.below source (.node kind range children)) children ++
      [(.node kind range children, s)]

/-- The nodes of some trees with their situations. -/
def situatedAll (source : Text) (s : Situation) : List Tree → List (Tree × Situation)
  | [] => []
  | t :: rest => situated source s t ++ situatedAll source s rest

end

theorem situated_eq (source : Text) (s : Situation) (t : Tree) :
    situated source s t = situatedAll source (s.below source t) t.children ++ [(t, s)] := by
  cases t
  rw [situated]
  rfl

/-- What a node is the signature of. -/
def targetOf (n : Tree) : Target := if n.kind = .functionDefinition then .function else .lambda

/-- The changes that are made for a node in its situation. -/
inductive Rendered (j : Job) : Tree × Situation → List Change → Prop where
  | nothing {n : Tree} {s : Situation} {scope : ScopeKind} :
      signatureAt j.source n scope = .ok none → Rendered j (n, s) []
  | signature {n : Tree} {s : Situation} {scope : ScopeKind} {e : Extraction}
      {changes : List Change} : signatureAt j.source n scope = .ok (some e) →
      changesAt n e (s.context j (targetOf n)) = .ok changes → Rendered j (n, s) changes

/-- The edits that a scan gains are the changes made for some nodes in their situations. -/
def Renders (j : Job) (ns : List (Tree × Situation)) (scan scan' : Scan) : Prop :=
  ∃ css, List.Forall₂ (Rendered j) ns css ∧ scan.edits.addAll css.flatten = (scan'.edits, none)

variable {j : Job} {scan scan' scan'' : Scan} {ns ms : List (Tree × Situation)}

theorem Renders.refl (j : Job) (scan : Scan) : Renders j [] scan scan := ⟨[], .nil, rfl⟩

/-- What two parts of a walk gain adds up. -/
theorem Renders.append (h : Renders j ns scan scan') (h' : Renders j ms scan' scan'') :
    Renders j (ns ++ ms) scan scan'' := by
  obtain ⟨css, hns, hedits⟩ := h
  obtain ⟨dss, hms, hedits'⟩ := h'
  refine ⟨css ++ dss, rel_append hns hms, ?_⟩
  rw [flatten_append, EditSet.addAll_append hedits, hedits']

theorem Renders.nothing {n : Tree} {s : Situation} {scope : ScopeKind}
    (h : Renders j ns scan scan') (hsig : signatureAt j.source n scope = .ok none) :
    Renders j (ns ++ [(n, s)]) scan scan' :=
  h.append ⟨[[]], .cons (.nothing hsig) .nil, rfl⟩

/-! ## Scopes -/

theorem scoped_eq_ok {α : Type} {r : Except ScopeFault α} {a : α} (h : j.scoped r = .ok a) :
    r = .ok a :=
  mapError_eq_ok.mp h

/-- To enter a scope puts one on the stack and leaves the edits as they are. -/
theorem enter_eq_ok {kind : ScopeKind} {name : Option Text} {delimiter : Option Delimiter}
    {handle : ScopeHandle} (h : scan.enter j kind name delimiter = .ok (handle, scan')) :
    scan'.edits = scan.edits ∧
      scan'.scopes.scopes = scan.scopes.next kind name delimiter :: scan.scopes.scopes := by
  obtain ⟨p, hp, h⟩ := bind_eq_ok.mp h
  have hp := scoped_eq_ok hp
  injection h with h
  obtain ⟨_, rfl⟩ := Prod.mk.injEq .. ▸ h
  unfold ScopeStack.enter at hp
  split at hp
  · cases hp
  · split at hp
    · cases hp
    · cases hp
      exact ⟨rfl, rfl⟩

theorem exit_edits {handle : ScopeHandle} (h : scan.exit j handle = .ok scan') :
    scan'.edits = scan.edits := by
  obtain ⟨scopes, _, h⟩ := bind_eq_ok.mp h
  injection h with h
  rw [← h]

/-- A class body sets the class in force, and a format string adds its delimiter. -/
theorem ofScopes_next (scopes : ScopeStack) (kind : ScopeKind) (name : Option Text)
    (delimiter : Option Delimiter) :
    Situation.ofScopes (scopes.next kind name delimiter :: scopes.scopes) =
      { mangleClass := if kind = .classBody then name
          else (Situation.ofScopes scopes.scopes).mangleClass
        delimiters := (Situation.ofScopes scopes.scopes).delimiters ++ delimiter.toList } := by
  unfold Situation.ofScopes ScopeStack.next
  rw [reverse_cons, filterMap_append]
  cases delimiter <;> rfl

/-- The context that the walk hands on is told by the situation on top of the stack. -/
theorem context_eq_ok {target : Target} {ctx : Decorator.Context}
    (h : scan.context j target = .ok ctx) :
    ctx = (Situation.ofScopes scan.scopes.scopes).context j target := by
  obtain ⟨mangleClass, hclass, h⟩ := bind_eq_ok.mp h
  have hclass := scoped_eq_ok hclass
  cases h
  unfold Situation.context Situation.classFor
  have hmangle : mangleClass = if j.options.mangling.covers target then
      (Situation.ofScopes scan.scopes.scopes).mangleClass else none := by
    unfold ScopeStack.mangleClassFor ScopeStack.current at hclass
    split at hclass
    · rename_i hcovers
      rw [if_pos hcovers]
      cases hscopes : scan.scopes.scopes with
      | nil =>
        rw [hscopes] at hclass
        cases hclass
      | cons top rest =>
        rw [hscopes] at hclass
        injection hclass with hclass
        exact hclass.symm
    · rename_i hcovers
      rw [if_neg hcovers]
      injection hclass with hclass
      exact hclass.symm
  rw [hmangle]
  rfl

/-- **A scope**: its body is walked in the situation that the new scope makes. -/
theorem renders_scope {kind : ScopeKind} {name : Option Text} {delimiter : Option Delimiter}
    {body : Scan → Except Failure Scan} (nodes : Situation → List (Tree × Situation))
    (hbody : ∀ scan scan', body scan = .ok scan' →
      Renders j (nodes (.ofScopes scan.scopes.scopes)) scan scan')
    (h : (do
      let (handle, scan) ← scan.enter j kind name delimiter
      let scan ← body scan
      scan.exit j handle) = .ok scan') :
    Renders j (nodes
      { mangleClass := if kind = .classBody then name
          else (Situation.ofScopes scan.scopes.scopes).mangleClass
        delimiters := (Situation.ofScopes scan.scopes.scopes).delimiters ++ delimiter.toList })
      scan scan' := by
  obtain ⟨⟨handle, scan₁⟩, henter, h⟩ := bind_eq_ok.mp h
  obtain ⟨scan₂, hwalk, hexit⟩ := bind_eq_ok.mp h
  obtain ⟨hedits, hscopes⟩ := enter_eq_ok henter
  obtain ⟨css, hnodes, hgain⟩ := hbody _ _ hwalk
  rw [hscopes, ofScopes_next] at hnodes
  refine ⟨css, hnodes, ?_⟩
  rw [exit_edits hexit, ← hedits, hgain]

/-! ## Nodes -/

/-- Changes that are recorded are added one by one, and none of them is refused. -/
theorem record_eq_ok {e : Extraction} {range : Range}
    {changes : Except Decorator.PlacementFault (List Change)}
    (h : scan.record j e range changes = .ok scan') :
    ∃ cs, changes = .ok cs ∧ scan.edits.addAll cs = (scan'.edits, none) := by
  obtain ⟨cs, hcs, h⟩ := bind_eq_ok.mp h
  refine ⟨cs, mapError_eq_ok.mp hcs, ?_⟩
  rcases scan.edits.addAll_cases cs with ⟨es, hall, _, _⟩ | ⟨⟨s', f, hall⟩, _⟩
  · rw [hall] at h ⊢
    injection h with h
    rw [← h]
  · rw [hall] at h
    cases h

/-- **A signature**: what its body gains comes first, then the changes for the signature itself, in
the situation around it. -/
theorem renders_signature {n : Tree} {kind : ScopeKind} {name : Option Text}
    {extracted : ScopeKind → Except Failure (Option Extraction)}
    {body : Scan → Except Failure Scan} (nodes : Situation → List (Tree × Situation))
    (hkind : kind ≠ .classBody)
    (hext : ∀ scope, extracted scope =
      (signatureAt j.source n scope).mapError fun f => j.failure (.marker f))
    (hbody : ∀ scan scan', body scan = .ok scan' →
      Renders j (nodes (.ofScopes scan.scopes.scopes)) scan scan')
    (h : (do
      let scope ← j.scoped scan.scopes.current
      let extraction ← extracted scope.kind
      let ctx ← scan.context j (targetOf n)
      let (handle, scan) ← scan.enter j kind name none
      let scan ← body scan
      let scan ← scan.exit j handle
      match extraction with
      | none => return scan
      | some e => scan.record j e n.range (changesAt n e ctx)) = .ok scan') :
    Renders j (nodes (.ofScopes scan.scopes.scopes) ++ [(n, .ofScopes scan.scopes.scopes)])
      scan scan' := by
  obtain ⟨scope, _, h⟩ := bind_eq_ok.mp h
  obtain ⟨extraction, hextraction, h⟩ := bind_eq_ok.mp h
  obtain ⟨ctx, hctx, h⟩ := bind_eq_ok.mp h
  obtain ⟨⟨handle, scan₁⟩, henter, h⟩ := bind_eq_ok.mp h
  obtain ⟨scan₂, hwalk, h⟩ := bind_eq_ok.mp h
  obtain ⟨scan₃, hexit, h⟩ := bind_eq_ok.mp h
  rw [hext] at hextraction
  have hsig := mapError_eq_ok.mp hextraction
  -- entering, walking and leaving, taken together, is a scope
  have hscope := renders_scope nodes hbody
    (bind_eq_ok.mpr ⟨_, henter, bind_eq_ok.mpr ⟨_, hwalk, hexit⟩⟩)
  rw [if_neg hkind, Option.toList_none, append_nil] at hscope
  cases extraction with
  | none =>
    injection h with h
    rw [← h]
    exact hscope.nothing hsig
  | some e =>
    obtain ⟨cs, hcs, hedits⟩ := record_eq_ok h
    rw [context_eq_ok hctx] at hcs
    exact hscope.append ⟨[cs], .cons (.signature hsig hcs) .nil, by simpa using hedits⟩

theorem visitAll_renders {ts : List Tree} (h : ∀ t ∈ ts, ∀ scan scan', visit j scan t = .ok scan' →
      Renders j (situated j.source (.ofScopes scan.scopes.scopes) t) scan scan')
    (hvisit : visitAll j scan ts = .ok scan') :
    Renders j (situatedAll j.source (.ofScopes scan.scopes.scopes) ts) scan scan' := by
  induction ts generalizing scan with
  | nil =>
    rw [visitAll] at hvisit
    injection hvisit with hvisit
    rw [← hvisit]
    exact .refl j scan
  | cons t ts ih =>
    rw [visitAll] at hvisit
    obtain ⟨scan₁, hfirst, hrest⟩ := bind_eq_ok.mp hvisit
    -- the walk through the first tree leaves the stack as it was
    have hwalked := visit_walked (j := j) t scan
    rw [hfirst] at hwalked
    obtain ⟨_, _, hgains⟩ := hwalked
    have hrests := ih (fun s hs => h s (.tail _ hs)) hrest
    rw [hgains.scopes] at hrests
    rw [situatedAll]
    exact (h t (.head _) scan scan₁ hfirst).append hrests

/-- **A walk through a tree** makes the changes for its nodes in their situations. -/
theorem visit_renders {t : Tree} (hvisit : visit j scan t = .ok scan') :
    Renders j (situated j.source (.ofScopes scan.scopes.scopes) t) scan scan' := by
  induction t using Tree.byChildren generalizing scan scan' with
  | _ t ih =>
    have hall : ∀ scan scan', visitAll j scan t.children = .ok scan' →
        Renders j (situatedAll j.source (.ofScopes scan.scopes.scopes) t.children) scan scan' :=
      fun scan scan' => visitAll_renders fun c hc scan scan' => ih c hc
    rw [situated_eq]
    obtain ⟨kind, range, children⟩ := t
    -- one case for each kind that opens a scope; all other nodes leave the situation as it is
    by_cases hclass : kind = .classDefinition
    · subst hclass
      rw [visit] at hvisit
      have hscope := renders_scope (situatedAll j.source · children) hall hvisit
      rw [if_pos rfl, Option.toList_none, append_nil] at hscope
      exact hscope.nothing (signatureAt_eq_none _ .module (by simp [IsSignature, Tree.kind]))
    by_cases hfun : kind = .functionDefinition
    · subst hfun
      rw [visit] at hvisit
      exact renders_signature (situatedAll j.source · children) (by decide)
        (functionExtraction_eq j range children) hall hvisit
    by_cases hlam : kind = .lambdaExpression
    · subst hlam
      rw [visit] at hvisit
      exact renders_signature (situatedAll j.source · children) (by decide) (fun scope => rfl)
        hall hvisit
    by_cases hstr : kind = .formatString
    · subst hstr
      rw [visit] at hvisit
      have hscope := renders_scope (situatedAll j.source · children) hall hvisit
      rw [if_neg (by decide)] at hscope
      exact hscope.nothing (signatureAt_eq_none _ .module (by simp [IsSignature, Tree.kind]))
    · rw [visit] at hvisit
      · have hbelow : (Situation.ofScopes scan.scopes.scopes).below j.source
            (.node kind range children) = .ofScopes scan.scopes.scopes := by
          unfold Situation.below
          split
          · exact absurd (by assumption) hclass
          · exact absurd (by assumption) hstr
          · rfl
        rw [hbelow]
        exact (hall _ _ hvisit).nothing
          (signatureAt_eq_none _ .module fun hsig => hsig.elim hfun hlam)
      all_goals assumption

/-! ## Whole sources -/

/-- Between statements there is nothing but the module on the stack, which says nothing. -/
def Bare (scan : Scan) : Prop :=
  ∃ root, scan.scopes.scopes = [root] ∧ root.mangleClass = none ∧ root.delimiter = none

theorem Bare.situation (h : Bare scan) : Situation.ofScopes scan.scopes.scopes = {} := by
  obtain ⟨root, hscopes, hclass, hdelimiter⟩ := h
  unfold Situation.ofScopes
  rw [hscopes, reverse_singleton, filterMap_cons, hdelimiter]
  simp [hclass]

/-- A statement at the top is walked in the situation that says nothing, and leaves such a one
behind. -/
theorem visitStatement_renders {t : Tree} (hbare : Bare scan)
    (h : visitStatement j scan t = .ok scan') :
    Renders j (situated j.source {} t) scan scan' ∧ Bare scan' := by
  obtain ⟨scan₁, hvisit, h⟩ := bind_eq_ok.mp h
  have hwalked := visit_walked (j := j) t scan
  rw [hvisit] at hwalked
  obtain ⟨_, _, hgains⟩ := hwalked
  have hrenders := visit_renders hvisit
  rw [hbare.situation] at hrenders
  obtain ⟨root, hscopes, hroot⟩ := hbare
  rw [← hgains.scopes] at hscopes
  split at h
  · -- scheduling leaves a mark on the module and nothing else
    obtain ⟨⟨first, scopes⟩, hsched, h⟩ := bind_eq_ok.mp h
    have hsched := scoped_eq_ok hsched
    unfold ScopeStack.scheduleDefinition at hsched
    rw [hscopes, reverse_singleton] at hsched
    dsimp only at hsched
    have hone : ∃ root', scopes.scopes = [root'] ∧ root'.mangleClass = root.mangleClass ∧
        root'.delimiter = root.delimiter := by
      split at hsched
      · cases hsched
      · split at hsched
        · injection hsched with hsched
          obtain ⟨_, rfl⟩ := Prod.mk.injEq .. ▸ hsched
          exact ⟨root, hscopes, rfl, rfl⟩
        · injection hsched with hsched
          obtain ⟨_, rfl⟩ := Prod.mk.injEq .. ▸ hsched
          exact ⟨_, rfl, rfl, rfl⟩
    obtain ⟨root', hscopes', hclass, hdelimiter⟩ := hone
    have hboth : scan'.edits = scan₁.edits ∧ scan'.scopes = scopes := by
      injection h with h
      rw [← h]
      split <;> exact ⟨rfl, rfl⟩
    obtain ⟨css, hnodes, hedits⟩ := hrenders
    refine ⟨⟨css, hnodes, by rw [hboth.1, hedits]⟩, root', by rw [hboth.2, hscopes'], ?_⟩
    rwa [hclass, hdelimiter]
  · injection h with h
    rw [← h]
    exact ⟨hrenders, root, hscopes, hroot⟩

theorem visitStatements_renders {ts : List Tree} (hbare : Bare scan)
    (h : visitStatements j scan ts = .ok scan') :
    Renders j (situatedAll j.source {} ts) scan scan' := by
  induction ts generalizing scan with
  | nil =>
    rw [visitStatements] at h
    injection h with h
    rw [← h]
    exact .refl j scan
  | cons t ts ih =>
    rw [visitStatements] at h
    obtain ⟨scan₁, hfirst, hrest⟩ := bind_eq_ok.mp h
    obtain ⟨hrenders, hbare₁⟩ := visitStatement_renders hbare hfirst
    rw [situatedAll]
    exact hrenders.append (ih hbare₁ hrest)

/-- **The edits of a script** are the changes made for its nodes, each in its situation. -/
theorem visitScript_renders {tree : Tree} (h : visitScript j tree = .ok scan) :
    ∃ css, List.Forall₂ (Rendered j) (situatedAll j.source {} tree.children) css ∧
      EditSet.addAll {} css.flatten = (scan.edits, none) := by
  obtain ⟨⟨handle, scan₁⟩, henter, h⟩ := bind_eq_ok.mp h
  obtain ⟨scan₂, hwalk, hexit⟩ := bind_eq_ok.mp h
  obtain ⟨hedits, hscopes⟩ := enter_eq_ok henter
  obtain ⟨css, hnodes, hgain⟩ := visitStatements_renders ⟨_, hscopes, rfl, rfl⟩ hwalk
  refine ⟨css, hnodes, ?_⟩
  rw [exit_edits hexit, ← hgain, hedits]

/-! ## Paths -/

/-- The situation of a place, told by the nodes above it. -/
def Situation.along (source : Text) (above : List Tree) : Situation where
  mangleClass := (classAround? above).bind fun c => nameOf source c.children
  delimiters := delimitersAround source above

/-- One node more above a place changes its situation as walking into the node does. -/
theorem Situation.along_cons (source : Text) (n : Tree) (above : List Tree) :
    along source (n :: above) = (along source above).below source n := by
  unfold along classAround?
  rw [delimitersAround_cons, Tree.delimiter?]
  by_cases hclass : n.kind = .classDefinition
  · rw [find?_cons_of_pos (by simpa using hclass), if_neg (by simp [hclass])]
    simp [below, hclass]
  rw [find?_cons_of_neg (by simpa using hclass)]
  by_cases hstr : n.kind = .formatString
  · simp [below, hstr]
  · simp [below, hstr]

theorem situatedAll_perm {source : Text} {above ts : List Tree}
    (h : ∀ t ∈ ts, (situated source (.along source above) t).Perm
      ((t.lineages above).map fun x => (x.node, .along source x.above))) :
    (situatedAll source (.along source above) ts).Perm
      ((Tree.lineagesAll above ts).map fun x => (x.node, .along source x.above)) := by
  induction ts with
  | nil => exact .nil
  | cons t ts ih =>
    rw [situatedAll, Tree.lineagesAll, map_append]
    exact (h t (.head _)).append (ih fun s hs => h s (.tail _ hs))

/-- **Situations hang on paths alone.** The nodes of a tree are in the situations that the nodes
above them tell. -/
theorem situated_perm (source : Text) (t : Tree) (above : List Tree) :
    (situated source (.along source above) t).Perm
      ((t.lineages above).map fun x => (x.node, .along source x.above)) := by
  induction t using Tree.byChildren generalizing above with
  | _ t ih =>
    rw [situated_eq, Tree.lineages_eq, ← Situation.along_cons, map_cons]
    exact perm_append_comm.trans
      ((situatedAll_perm fun c hc => ih c hc (t :: above)).cons _)

theorem situatedAll_lineages (source : Text) (ts : List Tree) : (situatedAll source {} ts).Perm
      ((Tree.lineagesAll [] ts).map fun x => (x.node, .along source x.above)) :=
  situatedAll_perm fun t _ => situated_perm source t []

end Posonly.Conversion
