import Posonly.Proofs.Conversion.FixedPoint
import Posonly.Proofs.Conversion.Situation
import Posonly.Proofs.Decorator
import Posonly.Proofs.Signature.Names

/-!
# The names that are checked

A conversion puts a call of the decorator at every signature with a marker: on a line above a
function, around a lambda. `checkAt` finds the call in a change and reads its names back, `checkOf`
says what should be there: the names ahead of the marker, in order, as they are known in the class
around them. Both give the same list (`names_emitted`), so no name is lost, added or put elsewhere
on the way from the parameter list to the check.
-/

open List Posonly.Decorator

namespace Posonly.Conversion

open Posonly.Signature

/-- The call that a change puts in, if it puts one in. On a line of its own it stands between the
sign behind the indentation and the line separator, otherwise ahead of a bracket. -/
def callOf? (style : Style) (c : Change) : Option Text :=
  match c.origin with
  | .decorator =>
    let line := (c.text.dropWhile Text.isSpaceOrTab).drop 1
    some (line.take (line.length - style.separator.length))
  | .wrapOpen => some c.text.dropLast
  | _ => none

/-- Where a change puts a call in, and the call. -/
def callAt (style : Style) (c : Change) : Option (Nat × Text) :=
  (callOf? style c).map fun call => (c.start.toNat, call)

/-- Where a change puts a call in, and the names that are read back from it. -/
def checkAt (style : Style) (c : Change) : Option (Nat × Option (List Text)) :=
  (callOf? style c).map fun call => (c.start.toNat, readNames style.decorator call)

/-- Where the call for a signature goes: to the start of the line of a function, or ahead of a
lambda. -/
def callPlace (source : Text) (n : Tree) : Nat :=
  if n.kind = .functionDefinition then source.lineStart n.start else n.start

/-- The names of an extraction as they are known in a situation. -/
def knownNames (policy : ManglePolicy) (x : Tree × Situation) (e : Extraction) : List Text :=
  e.names.map fun p => mangle p.name (x.2.classFor policy (targetOf x.1))

/-- The quote of the call for a node: around a lambda one that is free there. -/
def quoteIn (x : Tree × Situation) : QuoteMark :=
  if x.1.kind = .functionDefinition then .single
  else (Delimiter.chooseQuote x.2.delimiters .single).getD .single

/-- The call that a node is to get, if it has a marker. -/
def callFor (j : Job) (x : Tree × Situation) : Option (Nat × Text) :=
  (extractionAt j.source .module x.1).map fun e => (callPlace j.source x.1,
      call j.options.style.decorator (knownNames j.options.mangling x e) (quoteIn x))

/-- The check that a node is to get, if it has a marker. -/
def checkOf (source : Text) (policy : ManglePolicy) (x : Tree × Situation) :
    Option (Nat × Option (List Text)) :=
  (extractionAt source .module x.1).map fun e =>
    (callPlace source x.1, some (knownNames policy x e))

/-- All names that are to be checked are identifiers. -/
def NamesIdentifiers (source : Text) (policy : ManglePolicy)
    (xs : List (Tree × Situation)) : Prop :=
  ∀ x ∈ xs, ∀ e, extractionAt source .module x.1 = some e →
    ∀ name ∈ knownNames policy x e, name.isIdentifier = true

instance (source : Text) (policy : ManglePolicy) (xs : List (Tree × Situation)) :
    Decidable (NamesIdentifiers source policy xs) :=
  decidable_of_iff (∀ x ∈ xs, (extractionAt source .module x.1).all
      (fun e => (knownNames policy x e).all Text.isIdentifier) = true) <| by
    simp [NamesIdentifiers, Option.all_eq_true]

variable {j : Job} {n : Tree} {s : Situation}

/-! ## One signature -/

theorem callOf?_line (style : Style) {indent : Text}
    (hindent : ∀ u ∈ indent, Text.isSpaceOrTab u = true) (call : Text) (start : Int) :
    callOf? style ⟨start, start, indent ++ "@" ++ call ++ style.separator, .decorator⟩ =
      some call := by
  have hdrop : (indent ++ "@" ++ call ++ style.separator : Text).dropWhile Text.isSpaceOrTab =
      0x40 :: (call ++ style.separator) := by
    rw [append_assoc, append_assoc, dropWhile_append_of_pos hindent]
    rfl
  simp only [callOf?, hdrop, drop_succ_cons, drop_zero, length_append,
    Nat.add_sub_cancel_right, take_left']

theorem callOf?_opened (style : Style) (call : Text) (start : Int) :
    callOf? style ⟨start, start, call ++ "(", .wrapOpen⟩ = some call :=
  congrArg some dropLast_concat

variable {e : Extraction} {changes : List Change} {source : Text} {scope : ScopeKind}
  {x : Tree × Situation} {tree : Tree} {scan : Scan} {r : Result}

/-- **The call for a signature.** The changes made for it put one call in, at the place of the
signature and with its names. -/
theorem changesAt_call (hdismiss : j.options.dismiss = false)
    (h : changesAt n e (s.context j (targetOf n)) = .ok changes) :
    changes.filterMap (callAt j.options.style) =
      [(callPlace j.source n, call j.options.style.decorator
        (knownNames j.options.mangling (n, s) e) (quoteIn (n, s)))] := by
  have hemitted : emittedNames e (s.context j (targetOf n)) =
      knownNames j.options.mangling (n, s) e := rfl
  have hmarker : callAt j.options.style (markerChange e) = none := rfl
  cases asked_of_changesAt h with
  | dismissed hon => cases hdismiss.symm.trans hon
  | @line indent hfun hindent =>
    have hquote : quoteIn (n, s) = .single := if_pos hfun
    rw [hemitted, hquote, filterMap_cons_none hmarker, filterMap_cons_some (b := (_, _))]
    · rfl
    · rw [callAt, callPlace, if_pos hfun]
      exact congrArg _ (callOf?_line j.options.style hindent _ (j.source.lineStart n.start))
  | @around q hfun hq =>
    have hquote : quoteIn (n, s) = q := by
      have hq : Delimiter.chooseQuote s.delimiters .single = some q := hq
      rw [quoteIn, if_neg hfun, hq]
      rfl
    rw [hemitted, hquote, filterMap_cons_some (b := (_, _)), filterMap_cons_none hmarker]
    · rfl
    · rw [callAt, callPlace, if_neg hfun]
      exact congrArg _ (callOf?_opened j.options.style _ n.start)

/-! ## All signatures -/

theorem names_ne_nil_of_signatureAt (h : signatureAt source n scope = .ok (some e)) :
    e.names ≠ [] := by
  have hextract : ∀ {tokens target}, extract source tokens target scope = .ok (some e) →
      e.names ≠ [] := fun hx => by
    obtain ⟨_, _, _, _, hof⟩ := extract_eq_some hx
    exact hof.namesNonempty
  unfold signatureAt at h
  split at h
  · split at h
    · cases h
    · exact hextract h
  · unfold extractLambda at h
    split at h
    · exact hextract h
    · cases h
  · cases h

theorem signatureAt_of_extractionAt (h : extractionAt source scope n = some e) :
    signatureAt source n scope = .ok (some e) := by
  unfold extractionAt at h
  cases hsig : signatureAt source n scope with
  | error f => rw [hsig] at h; cases h
  | ok found => rw [hsig] at h; exact congrArg _ h

theorem Rendered.call (h : Rendered j x changes) (hdismiss : j.options.dismiss = false) :
    changes.filterMap (callAt j.options.style) = (callFor j x).toList := by
  cases h with
  | @nothing n s scope hsig =>
    have hnone : extractionAt j.source .module n = none := by
      rw [extractionAt, signatureAt_scope _ _ scope .module, hsig]
      rfl
    rw [callFor, hnone]
    rfl
  | @signature n s scope e changes hsig hchanges =>
    have hsome : extractionAt j.source .module n = some { e with scope := .module } := by
      rw [extractionAt, signatureAt_scope _ _ scope .module, hsig]
      rfl
    rw [callFor, hsome]
    exact changesAt_call hdismiss hchanges

theorem filterMap_flatten_call {xs : List (Tree × Situation)} {css : List (List Change)}
    (h : List.Forall₂ (Rendered j) xs css) (hdismiss : j.options.dismiss = false) :
    css.flatten.filterMap (callAt j.options.style) = xs.filterMap (callFor j) := by
  induction h with
  | nil => rfl
  | @cons x changes xs css hx _ ih =>
    rw [flatten_cons, filterMap_append, hx.call hdismiss, ih]
    cases hc : callFor j x with
    | none => rw [filterMap_cons_none hc]; rfl
    | some call => rw [filterMap_cons_some hc]; rfl

theorem Finished.calls_perm (hscan : visitScript j tree = .ok scan)
    (h : Finished j tree scan (.ok r)) (hdismiss : j.options.dismiss = false) :
    (r.edits.filterMap fun e => callAt j.options.style e.change).Perm
      ((situatedAll j.source {} tree.children).filterMap (callFor j)) := by
  obtain ⟨css, hrendered, hadded⟩ := visitScript_renders hscan
  have hedits : scan.edits.edits.map Edit.change = css.flatten := EditSet.addAll_changes hadded
  rw [← filterMap_flatten_call hrendered hdismiss, ← hedits, filterMap_map]
  exact h.edits_perm.filterMap _

theorem checkOf_eq (hnames : NamesIdentifiers j.source j.options.mangling [x]) :
    checkOf j.source j.options.mangling x =
      (callFor j x).map (Prod.map id (readNames j.options.style.decorator)) := by
  rw [checkOf, callFor, Option.map_map]
  cases he : extractionAt j.source .module x.1 with
  | none => rfl
  | some e =>
    have hknown := hnames x (mem_singleton_self _) e he
    have hread := readNames_call j.options.style.decorator (quoteIn x)
      (fun name hname => Text.comma_notMem_of_isIdentifier (hknown name hname))
      (by simpa [knownNames] using names_ne_nil_of_signatureAt (signatureAt_of_extractionAt he))
    rw [Option.map_some, Option.map_some, Function.comp_apply, Prod.map_apply, hread]
    rfl

/-- **The checks of a result** are those of its signatures, at their places and with their names. -/
theorem Finished.checks_perm {tree : Tree} {scan : Scan} {r : Result}
    (hscan : visitScript j tree = .ok scan) (h : Finished j tree scan (.ok r))
    (hdismiss : j.options.dismiss = false)
    (hnames :
      NamesIdentifiers j.source j.options.mangling (situatedAll j.source {} tree.children)) :
    (r.edits.filterMap fun e => checkAt j.options.style e.change).Perm
      ((situatedAll j.source {} tree.children).filterMap
        (checkOf j.source j.options.mangling)) := by
  have hcalls := (h.calls_perm hscan hdismiss).map
    (Prod.map id (readNames j.options.style.decorator))
  rw [map_filterMap, map_filterMap] at hcalls
  have hexpected : (situatedAll j.source {} tree.children).filterMap
      (checkOf j.source j.options.mangling) = (situatedAll j.source {} tree.children).filterMap
        fun x => (callFor j x).map (Prod.map id (readNames j.options.style.decorator)) :=
    filterMap_congr fun x hx => checkOf_eq fun y hy => by
      rw [mem_singleton.mp hy]
      exact hnames x hx
  have hread : (fun e : Edit => checkAt j.options.style e.change) = fun e =>
      (callAt j.options.style e.change).map
        (Prod.map id (readNames j.options.style.decorator)) := by
    funext e
    rw [callAt, Option.map_map]
    rfl
  rwa [hexpected, hread]

/-- **The names ahead of a marker are those that are checked.** An extraction from the tokens of a
range has one name for each group ahead of the marker that is headed by one, in order, apart from
each other and ahead of the marker. Each is the text at its range, but for one that is found between
the halves of a surrogate pair. A conversion with checks puts a call at every signature with a
marker and nowhere else, and what is read back from it are the names of the signature, in order,
mangled with the class that they stand in. -/
theorem names_emitted (parse : Text → Tree) (source : Text) :
    (∀ (start stop : Nat) (children : List Tree) (target : Target) (scope : ScopeKind)
        (e : Extraction), start ≤ stop → stop ≤ source.length →
      (∀ c ∈ children, c.start ≤ c.stop ∧ c.stop ≤ stop) →
      extract source (tokenize source start stop children) target scope = .ok (some e) →
      ListsNames source (tokenize source start stop children) e) ∧
    (∀ (values : OptionValues) (r : Result), convert parse source values = .ok r →
      r.options.dismiss = false →
      NamesIdentifiers source r.options.mangling (situatedAll source {} (parse source).children) →
      (r.edits.filterMap fun e => checkAt r.options.style e.change).Perm
        ((situatedAll source {} (parse source).children).filterMap
          (checkOf source r.options.mangling))) := by
  refine ⟨fun start stop children target scope e hle hlen hin h =>
    listsNames_tokenize hle hlen hin h, ?_⟩
  intro values r hrun hdismiss hnames
  obtain ⟨options, hjob⟩ := run_of_convert hrun
  rcases run_cases ⟨source, options⟩ (parse source) with ⟨_, scan, hscan, _, hfin⟩ | ⟨f, herr, _⟩
  · rw [hjob] at hfin
    rw [options_of_run hjob] at hdismiss hnames ⊢
    exact hfin.checks_perm hscan hdismiss hnames
  · rw [herr] at hjob
    exact absurd hjob (by simp)

/-- A method with a private parameter: `class _C:`, and on the next line
`def f(__a, b, /): pass`. -/
def methodSource : Text := "class _C:\n  def f(__a, b, /): pass\n"

def methodTree : Tree :=
  .node .script ⟨0, 35⟩ [.node .classDefinition ⟨0, 35⟩ [
    .sign "class" 0, .leaf .variableName 6 8,
    .node .body ⟨8, 35⟩ [.sign ":" 8, .node .functionDefinition ⟨12, 35⟩ [
      .sign "def" 12, .leaf .variableName 16 17,
      .node .paramList ⟨17, 28⟩ [.sign "(" 17, .leaf .variableName 18 21, .sign "," 21,
        .leaf .variableName 23 24, .sign "," 24, .sign ")" 27],
      .passBody 28]]]]

theorem names_emitted_method :
    (∃ e, extract "a, b=1, /, c" (tokenize "a, b=1, /, c" 0 12 []) .lambda .module = .ok (some e) ∧
      e.names = [⟨"a", 0, 1⟩, ⟨"b", 3, 4⟩] ∧
      ListsNames "a, b=1, /, c" (tokenize "a, b=1, /, c" 0 12 []) e) ∧
    ∃ r, convert (fun _ => methodTree) methodSource {} = .ok r ∧ r.options.dismiss = false ∧
      NamesIdentifiers methodSource r.options.mangling
        (situatedAll methodSource {} methodTree.children) ∧
      (r.edits.filterMap fun e => checkAt r.options.style e.change).Perm
        [(10, some [("_C__a" : Text), "b"])] := by
  have hextract : extract "a, b=1, /, c" (tokenize "a, b=1, /, c" 0 12 []) .lambda .module =
      .ok (some ⟨.lambda, [⟨"a", 0, 1⟩, ⟨"b", 3, 4⟩], ⟨8, 9⟩, ⟨8, 11⟩,
        .module⟩) := by decide +kernel
  have hlists := (names_emitted (fun _ => methodTree) "a, b=1, /, c").1 0 12 [] .lambda .module _
    (by decide) (by decide) (by simp) hextract
  refine ⟨⟨_, hextract, rfl, hlists⟩, ?_⟩
  have hoptions : (convert (fun _ => methodTree) methodSource {}).toOption.map
      (fun r => (r.options.dismiss, r.options.mangling)) = some (false, .all) := by decide +kernel
  have hchecks : (situatedAll methodSource {} methodTree.children).filterMap
      (checkOf methodSource .all) = [(10, some [("_C__a" : Text), "b"])] := by decide +kernel
  obtain ⟨r, hrun, hoptions⟩ := ok_of_toOption hoptions
  injection hoptions with hdismiss hmangling
  have hnames : NamesIdentifiers methodSource r.options.mangling
      (situatedAll methodSource {} methodTree.children) := by
    rw [hmangling]
    decide +kernel
  have hperm := (names_emitted (fun _ => methodTree) methodSource).2 {} r hrun hdismiss hnames
  rw [hmangling] at hperm
  exact ⟨r, hrun, hdismiss, hnames, hchecks ▸ hperm⟩

/-- A letter that is a surrogate pair, and then `,b, /`. -/
def pairSource : Text := [0xD835, 0xDC1A, 0x2C, 0x62, 0x2C, 0x20, 0x2F]

/-- Behind the first half of the pair the letter is still found. Its token takes in the comma, and
the next parameter is no longer the head of a group. -/
theorem split_pair_takes_comma :
    extract pairSource (tokenize pairSource 1 7 []) .function .module =
      .ok (some ⟨.function, [⟨[0xD835, 0xDC1A], 1, 3⟩], ⟨6, 7⟩, ⟨4, 7⟩, .module⟩) ∧
    pairSource.slice 1 3 = [0xDC1A, 0x2C] ∧ pairSource.slice 3 4 = "b" := by
  decide +kernel

end Posonly.Conversion
