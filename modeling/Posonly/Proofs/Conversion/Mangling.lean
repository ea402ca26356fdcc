import Posonly.Proofs.Conversion.Calls

/-!
# The class of a private name

Inside the body of a class, private names have the name of the class put ahead of them. The bases
and keywords of the class are evaluated outside of it, so names there belong to the next class that
has them in its body (`bodyClass?`). The walk enters a class with all its parts, and takes the
innermost class around a signature whichever part it is in (`classAround?`). So the two agree on
signatures in bodies, and differ on private names elsewhere in a class (`names_mangled`).
-/

namespace Posonly

/-- A name with two underscores ahead and not behind. -/
def Text.isPrivate (name : Text) : Bool := Text.startsWith name "__" && !Text.endsWith name "__"

/-- What a class puts ahead of private names, behind an underscore: its name without the underscores
that it starts with. -/
def mangleStem (className : Option Text) : Text := (className.getD []).dropWhile (· == 0x5F)

theorem mangle_eq (name : Text) (className : Option Text) : mangle name className =
      if name.isPrivate = true ∧ mangleStem className ≠ [] then "_" ++ mangleStem className ++ name
      else name := by
  unfold mangle mangleStem Text.isPrivate
  cases className with
  | none => simp
  | some className =>
    cases Text.startsWith name "__" <;> cases Text.endsWith name "__" <;>
      by_cases hstem : className.dropWhile (· == 0x5F) = [] <;>
        simp [hstem, -List.dropWhile_eq_nil_iff]

/-- **Two classes make the same of a name** if it is not private or they have the same stem. -/
theorem mangle_eq_mangle_iff {name : Text} {c d : Option Text} :
    mangle name c = mangle name d ↔ (name.isPrivate = true → mangleStem c = mangleStem d) := by
  rw [mangle_eq, mangle_eq]
  cases name.isPrivate with
  | false => simp
  | true =>
    -- a stem lengthens the name, so it is not mistaken for none
    have hlonger : ∀ stem : Text, ("_" ++ stem ++ name : Text) ≠ name := by
      intro stem h
      have := congrArg List.length h
      simp only [List.length_append] at this
      have : ("_" : Text).length = 1 := rfl
      omega
    by_cases hc : mangleStem c = [] <;> by_cases hd : mangleStem d = []
    · simp [hc, hd]
    · simpa [hc, hd, Ne.symm hd] using (hlonger (mangleStem d)).symm
    · simpa [hc, hd] using hlonger (mangleStem c)
    · simp [hc, hd]

namespace Conversion

open Posonly.Signature

/-- Whether a policy has the names of a node mangled: those of functions and lambdas, those of
functions, or none. -/
def Mangles (policy : ManglePolicy) (n : Tree) : Prop :=
  policy = .all ∨ policy = .functions ∧ n.kind = .functionDefinition

instance (policy : ManglePolicy) (n : Tree) : Decidable (Mangles policy n) :=
  inferInstanceAs (Decidable (_ ∨ _))

theorem covers_targetOf (policy : ManglePolicy) (n : Tree) :
    policy.covers (targetOf n) = true ↔ Mangles policy n := by
  unfold targetOf Mangles
  by_cases hfun : n.kind = .functionDefinition <;> cases policy <;>
    simp [hfun, ManglePolicy.covers]

/-- The name of the class that a node belongs to by a rule. -/
def classBy (source : Text) (rule : List Tree → Option Tree) (x : Lineage) : Option Text :=
  (rule x.above).bind fun c => nameOf source c.children

/-- The names of a signature as they are known in the class that it belongs to by a rule. -/
def namesBy (source : Text) (policy : ManglePolicy) (rule : List Tree → Option Tree) (x : Lineage)
    (e : Extraction) : List Text :=
  e.names.map fun p => mangle p.name (if Mangles policy x.node then classBy source rule x else none)

/-- The call that a node is to get by a rule, if it has a marker. -/
def callBy (source : Text) (options : Options) (rule : List Tree → Option Tree) (x : Lineage) :
    Option (Nat × Text) :=
  (extractionAt source .module x.node).map fun e =>
    (callPlace source x.node, Decorator.call options.style.decorator
      (namesBy source options.mangling rule x e) (quoteIn (x.node, .along source x.above)))

/-- The walk goes by the innermost class around a node. -/
theorem callFor_along (j : Job) (x : Lineage) :
    callFor j (x.node, .along j.source x.above) = callBy j.source j.options classAround? x := by
  have hclass : (Situation.along j.source x.above).classFor j.options.mangling (targetOf x.node) =
      if Mangles j.options.mangling x.node then classBy j.source classAround? x else none :=
    if_congr (covers_targetOf _ _) rfl rfl
  unfold callFor callBy knownNames namesBy
  rw [hclass]

theorem namesBy_eq_iff {source : Text} {policy : ManglePolicy}
    {rule rule' : List Tree → Option Tree} {x : Lineage} {e : Extraction} :
    namesBy source policy rule x e = namesBy source policy rule' x e ↔
      (Mangles policy x.node → ∀ p ∈ e.names, p.name.isPrivate = true →
        mangleStem (classBy source rule x) = mangleStem (classBy source rule' x)) := by
  unfold namesBy
  rw [List.map_inj_left]
  by_cases hmangles : Mangles policy x.node
  · simp only [hmangles, if_true, forall_const, mangle_eq_mangle_iff]
  · simp [hmangles]

/-- **Private names are mangled with the innermost class around them.** A conversion with checks
puts a call at every signature with a marker and nowhere else. Where the policy covers the signature
its names are mangled with the innermost class above it, elsewhere they are plain. These are the
names that the body rule gives, exactly if the two classes have one stem or no name is private. The
classes are the same if the signature stands in the body of that innermost class. If it stands in
another part, the body rule asks for the next class outside. -/
theorem names_mangled (parse : Text → Tree) (source : Text) (values : OptionValues) (r : Result)
    (hrun : convert parse source values = .ok r) (hdismiss : r.options.dismiss = false) :
    (r.edits.filterMap fun e => callAt r.options.style e.change).Perm
      ((Tree.lineagesAll [] (parse source).children).filterMap
        (callBy source r.options classAround?)) ∧
    (∀ (x : Lineage) (e : Extraction),
      namesBy source r.options.mangling classAround? x e =
          namesBy source r.options.mangling bodyClass? x e ↔
        (Mangles r.options.mangling x.node → ∀ p ∈ e.names, p.name.isPrivate = true →
          mangleStem (classBy source classAround? x) = mangleStem (classBy source bodyClass? x))) ∧
    (∀ (inner outer : List Tree) (c : Tree), (∀ a ∈ inner, a.kind ≠ .classDefinition) →
      c.kind = .classDefinition →
      classAround? (inner ++ c :: outer) = some c ∧
      bodyClass? (inner ++ c :: outer) =
        if inner.getLast?.any (·.kind = .body) then some c else bodyClass? outer) := by
  refine ⟨?_, fun x e => namesBy_eq_iff,
    fun inner outer c hinner hc => ⟨classAround?_append hinner hc, bodyClass?_append hinner hc⟩⟩
  obtain ⟨_, scan, hscan, _, hfin⟩ := finished_of_run (run_own_options hrun)
  have hpaths := (situatedAll_lineages source (parse source).children).filterMap
    (callFor ⟨source, r.options⟩)
  rw [List.filterMap_map] at hpaths
  have hrule : (callFor ⟨source, r.options⟩ ∘ fun x : Lineage => (x.node, .along source x.above)) =
      callBy source r.options classAround? := funext fun x => callFor_along ⟨source, r.options⟩ x
  rw [hrule] at hpaths
  exact (hfin.calls_perm hscan hdismiss).trans hpaths

/-- A class with a lambda among its bases, `class C(f(lambda __a, /: __a)):`, and on the next line
the method `def m(__b, /): pass`. -/
def basesSource : Text := "class C(f(lambda __a, /: __a)):\n  def m(__b, /): pass\n"

def basesTree : Tree :=
  .node .script ⟨0, 54⟩ [.node .classDefinition ⟨0, 54⟩ [
    .sign "class" 0, .leaf .variableName 6 7,
    .node (.other "ArgList") ⟨7, 30⟩ [.sign "(" 7,
      .node (.other "CallExpression") ⟨8, 29⟩ [.leaf .variableName 8 9,
        .node (.other "ArgList") ⟨9, 29⟩ [.sign "(" 9,
          .node .lambdaExpression ⟨10, 28⟩ [.sign "lambda" 10,
            .node .paramList ⟨17, 23⟩ [.leaf .variableName 17 20, .sign "," 20, .leaf .error 22 23],
            .sign ":" 23, .leaf .variableName 25 28],
          .sign ")" 28]],
      .sign ")" 29],
    .node .body ⟨30, 54⟩ [.sign ":" 30, .node .functionDefinition ⟨34, 54⟩ [
      .sign "def" 34, .leaf .variableName 38 39,
      .node .paramList ⟨39, 47⟩
        [.sign "(" 39, .leaf .variableName 40 43, .sign "," 43, .sign ")" 46],
      .passBody 47]]]]

/-- The calls for the lambda and the method, given the name that the lambda is checked for. -/
def basesCalls (name : Text) : List (Nat × Text) :=
  [(10, "__posonly_decorator('" ++ name ++ "')"), (32, "__posonly_decorator('_C__b')")]

/-- The calls that are put in, and those that the body rule asks for. -/
theorem bases_evaluated : (convert (fun _ => basesTree) basesSource {}).toOption.map (fun r =>
      (r.options.dismiss, r.edits.filterMap (fun e => callAt r.options.style e.change),
        (Tree.lineagesAll [] basesTree.children).filterMap
          (callBy basesSource r.options bodyClass?))) =
    some (false, basesCalls "_C__a", basesCalls "__a") := by
  decide +kernel

theorem names_mangled_bases :
    ∃ r, convert (fun _ => basesTree) basesSource {} = .ok r ∧ r.options.dismiss = false ∧
      (basesCalls "_C__a").Perm ((Tree.lineagesAll [] basesTree.children).filterMap
        (callBy basesSource r.options classAround?)) := by
  obtain ⟨r, hrun, hvalues⟩ := ok_of_toOption bases_evaluated
  injection hvalues with hdismiss hvalues
  injection hvalues with hcalls
  have hperm := (names_mangled (fun _ => basesTree) basesSource {} r hrun hdismiss).1
  exact ⟨r, hrun, hdismiss, hcalls ▸ hperm⟩

/-- **The names of a lambda among the bases of a class are mangled with that class**, where the body
rule leaves them plain. -/
theorem bases_mangled_with_own_class :
    (convert (fun _ => basesTree) basesSource {}).toOption.map (fun r =>
      (r.edits.filterMap (fun e => callAt r.options.style e.change),
        (Tree.lineagesAll [] basesTree.children).filterMap
          (callBy basesSource r.options bodyClass?))) =
    some (basesCalls "_C__a", basesCalls "__a") := by
  obtain ⟨r, hr, hvalues⟩ := Option.map_eq_some_iff.mp bases_evaluated
  obtain ⟨_, hboth⟩ := Prod.mk.injEq .. ▸ hvalues
  rw [hr, Option.map_some, hboth]

end Conversion

end Posonly
