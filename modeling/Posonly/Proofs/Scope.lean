import Mathlib.Data.List.Perm.Basic
import Posonly.Scope

/-!
# Runs of a stack of scopes

A stack of scopes takes calls in any order, and a handle that it has returned may come back late,
twice or out of turn. A session keeps book of the calls beside the stack: which scopes have been
entered and not been left, as they were asked for (`openings`). What the stack holds can be told
from the book alone (`Opening.scopes`), whatever has been called and whatever was refused
(`ScopeSession.Kept`). From that come the shape of the stack, and that a handle opens its own scope
only, and once (`run_disciplined`).
-/

open List

namespace Posonly

/-! ## Calls -/

/-- A call on a stack of scopes. A handle is known by how many were returned before it. -/
inductive ScopeCall where
  | enter (kind : ScopeKind) (name : Option Text) (delimiter : Option Delimiter)
  | exit (handle : Nat)
  | current
  | delimiters
  | schedule
  | mangleClass (target : Target) (policy : ManglePolicy)
deriving DecidableEq, Repr

/-- What a call gives. -/
inductive ScopeAnswer where
  | handle (h : ScopeHandle)
  | done
  | scope (scope : Scope)
  | delimiters (found : List Delimiter)
  | scheduled (first : Bool)
  | mangleClass (name : Option Text)
  | fault (f : ScopeFault)
deriving DecidableEq, Repr

/-- The answer that a call which only looks gives. -/
def ScopeAnswer.of {α : Type} (good : α → ScopeAnswer) : Except ScopeFault α → ScopeAnswer
  | .ok a => good a
  | .error f => .fault f

/-- A scope that has been entered and not been left, as it was asked for. -/
structure Opening where
  /-- The number of the handle that was returned for it. -/
  number : Nat
  kind : ScopeKind
  name : Option Text
  delimiter : Option Delimiter
deriving DecidableEq, Repr

/-- A stack of scopes and the book of its calls. -/
structure ScopeSession where
  stack : ScopeStack := {}
  /-- The handles that have been returned, oldest first. -/
  handles : List ScopeHandle := []
  /-- The scopes that have been entered and not been left, innermost first. -/
  openings : List Opening := []
  /-- The handles that have been exited, in that order. -/
  exited : List Nat := []
  /-- Whether a definition has been scheduled since a module was last entered. -/
  asked : Bool := false
deriving DecidableEq, Repr

namespace ScopeSession

/-- What a call gives, and the session after it. There is no call with a handle that has not been
returned. -/
def call (s : ScopeSession) : ScopeCall → Option (ScopeAnswer × ScopeSession)
  | .enter kind name delimiter =>
    match s.stack.enter kind name delimiter with
    | .ok (h, stack) => some (.handle h, { s with
          stack
          handles := s.handles ++ [h]
          openings := ⟨s.handles.length, kind, name, delimiter⟩ :: s.openings
          asked := s.asked && kind != .module })
    | .error f => some (.fault f, s)
  | .exit n =>
    (s.handles[n]?).map fun h => match s.stack.exit h with
      | .ok stack =>
        (.done, { s with stack, openings := s.openings.tail, exited := s.exited ++ [n] })
      | .error f => (.fault f, s)
  | .current => some (.of .scope s.stack.current, s)
  | .delimiters => some (.delimiters s.stack.delimiters, s)
  | .schedule =>
    match s.stack.scheduleDefinition with
    | .ok (first, stack) => some (.scheduled first, { s with stack, asked := true })
    | .error f => some (.fault f, s)
  | .mangleClass target policy =>
    some (.of .mangleClass (s.stack.mangleClassFor target policy), s)

/-- The session after some calls, if all their handles had been returned. -/
def run (calls : List ScopeCall) : Option ScopeSession :=
  calls.foldlM (fun s c => (s.call c).map Prod.snd) {}

end ScopeSession

/-! ## What the stack holds -/

namespace Opening

/-- The class that the innermost of some scopes mangles names with: the nearest one. -/
def nearestClass (os : List Opening) : Option Text :=
  (os.find? fun o => o.kind = .classBody).bind (·.name)

/-- The scopes on a stack, by what was asked for. -/
def scopes : List Opening → List Scope
  | [] => []
  | o :: below =>
    { id := o.number
      kind := o.kind
      name := o.name
      parent := below.head?.map (·.number)
      mangleClass := nearestClass (o :: below)
      delimiter := o.delimiter
      definitionScheduled := false } :: scopes below

theorem length_scopes (os : List Opening) : (scopes os).length = os.length := by
  induction os with
  | nil => rfl
  | cons o os ih => rw [scopes, length_cons, length_cons, ih]

theorem getElem?_scopes (os : List Opening) (i : Nat) :
    (scopes os)[i]? = (scopes (os.drop i)).head? := by
  induction os generalizing i with
  | nil => simp [scopes]
  | cons o os ih =>
    cases i with
    | zero => rfl
    | succ i => rw [scopes, getElem?_cons_succ, ih, drop_succ_cons]

theorem nearestClass_cons (o : Opening) (os : List Opening) : nearestClass (o :: os) =
      if o.kind = .classBody then o.name else (scopes os).head?.bind (·.mangleClass) := by
  unfold nearestClass
  by_cases h : o.kind = .classBody
  · rw [if_pos h, find?_cons_of_pos (by simpa using h), Option.bind_some]
  · rw [if_neg h, find?_cons_of_neg (by simpa using h)]
    cases os <;> rfl

end Opening

/-- A scope without the note that is made on it when a definition is scheduled. -/
def Scope.plain (scope : Scope) : Scope := { scope with definitionScheduled := false }

theorem ScopeStack.map_id_plain (scopes : List Scope) :
    (scopes.map Scope.plain).map (·.id) = scopes.map (·.id) := by
  rw [map_map]
  rfl

/-- The note is made on the scope at the bottom, if that is a module. -/
theorem ScopeStack.scheduleDefinition_append (inner : List Scope) (root : Scope) (entered : Nat)
    (h : root.kind = .module) :
    ScopeStack.scheduleDefinition ⟨inner ++ [root], entered⟩ = .ok (!root.definitionScheduled,
        ⟨inner ++ [{ root with definitionScheduled := true }], entered⟩) := by
  unfold ScopeStack.scheduleDefinition
  rw [reverse_append, reverse_singleton, singleton_append]
  dsimp only
  rw [if_neg (by simp [h])]
  cases hnote : root.definitionScheduled with
  | false => simp
  | true =>
    obtain ⟨id, kind, name, parent, mangleClass, delimiter, note⟩ := root
    cases hnote
    rfl

namespace ScopeSession

/-- **The book tells what the stack holds**: the scopes that have been entered and not been left, in
the order in which they were entered. -/
structure Kept (s : ScopeSession) : Prop where
  scopes : s.stack.scopes.map Scope.plain = Opening.scopes s.openings
  entered : s.stack.entered = s.handles.length
  /-- A handle leads to the scope with its number. -/
  handle : ∀ (n : Nat) h, s.handles[n]? = some h → h.scope.id = n
  /-- The handle of a scope on the stack has its depth. -/
  depth : ∀ (i : Nat) o h, s.openings[i]? = some o → s.handles[o.number]? = some h →
    h.depth + i = s.openings.length
  /-- A module is at the bottom, and nothing else is. -/
  bottom : ∀ (i : Nat) o, s.openings[i]? = some o → (o.kind = .module ↔ i + 1 = s.openings.length)
  /-- Inner scopes have been entered later. -/
  recent : (s.openings.map (·.number)).Pairwise (· > ·)
  /-- Every handle has been exited once, or its scope is on the stack. -/
  ledger : (s.exited ++ s.openings.map (·.number)).Perm (range s.handles.length)
  asked : ∀ root, s.stack.scopes.getLast? = some root → root.definitionScheduled = s.asked

namespace Kept

variable {s : ScopeSession}

theorem length_eq (h : s.Kept) : s.stack.scopes.length = s.openings.length := by
  rw [← Opening.length_scopes, ← h.scopes, length_map]

theorem scopes_eq_nil_iff (h : s.Kept) : s.stack.scopes = [] ↔ s.openings = [] := by
  rw [← length_eq_zero_iff, h.length_eq, length_eq_zero_iff]

theorem map_id (h : s.Kept) : s.stack.scopes.map (·.id) = s.openings.map (·.number) := by
  rw [← ScopeStack.map_id_plain, h.scopes]
  induction s.openings with
  | nil => rfl
  | cons o os ih => rw [Opening.scopes, map_cons, map_cons, ih]

theorem number_lt (h : s.Kept) {o : Opening} (ho : o ∈ s.openings) : o.number < s.handles.length :=
  List.mem_range.mp (h.ledger.mem_iff.mp
    (mem_append_right _ (mem_map_of_mem ho)))

theorem scope_cases (h : s.Kept) {i : Nat} {scope : Scope}
    (hget : s.stack.scopes[i]? = some scope) :
    ∃ o, s.openings[i]? = some o ∧ (Opening.scopes (s.openings.drop i)).head? = some scope.plain ∧
      scope.plain.kind = o.kind ∧ scope.plain.id = o.number := by
  have hplain : (Opening.scopes (s.openings.drop i)).head? = some scope.plain := by
    rw [← Opening.getElem?_scopes, ← h.scopes, getElem?_map, hget]
    rfl
  cases hdrop : s.openings.drop i with
  | nil => rw [hdrop] at hplain; cases hplain
  | cons o os =>
    refine ⟨o, ?_, hdrop ▸ hplain, ?_⟩
    · rw [← head?_drop, hdrop]
      rfl
    · rw [hdrop] at hplain
      injection hplain with hplain
      rw [← hplain]
      exact ⟨rfl, rfl⟩

/-! ## One call -/

theorem start : Kept {} where
  scopes := rfl
  entered := rfl
  handle n h hget := by simp at hget
  depth i o h hget := by simp at hget
  bottom i o hget := by simp at hget
  recent := .nil
  ledger := .refl _
  asked root hget := by cases hget

theorem next_eq (h : s.Kept) (kind : ScopeKind) (name : Option Text)
    (delimiter : Option Delimiter) :
    s.stack.next kind name delimiter :: s.stack.scopes.map Scope.plain =
      Opening.scopes (⟨s.handles.length, kind, name, delimiter⟩ :: s.openings) := by
  have hhead : s.stack.scopes.head?.map Scope.plain = (Opening.scopes s.openings).head? := by
    rw [← h.scopes, head?_map]
  have hparent : s.stack.scopes.head?.map (·.id) = s.openings.head?.map (·.number) := by
    rw [← head?_map, h.map_id, head?_map]
  have hclass : s.stack.scopes.head?.bind (·.mangleClass) =
      (Opening.scopes s.openings).head?.bind (·.mangleClass) := by
    rw [← hhead]
    cases s.stack.scopes.head? <;> rfl
  rw [Opening.scopes, h.scopes, Opening.nearestClass_cons, ScopeStack.next]
  dsimp only
  rw [h.entered, hparent, hclass]

variable {stack : ScopeStack} {n : Nat} {s' : ScopeSession} {h : ScopeHandle}

theorem enter (hs : s.Kept) {kind : ScopeKind} {name : Option Text} {delimiter : Option Delimiter}
    (hok : s.stack.enter kind name delimiter = .ok (h, stack)) : Kept { s with
      stack
      handles := s.handles ++ [h]
      openings := ⟨s.handles.length, kind, name, delimiter⟩ :: s.openings
      asked := s.asked && kind != .module } := by
  unfold ScopeStack.enter at hok
  split at hok
  · cases hok
  rename_i htwice
  split at hok
  · cases hok
  rename_i houtside
  cases hok
  rw [ne_eq, hs.scopes_eq_nil_iff] at htwice
  rw [hs.scopes_eq_nil_iff] at houtside
  refine
    { scopes := hs.next_eq kind name delimiter
      entered := by rw [length_append, hs.entered]; rfl
      handle := fun n h hget => ?_
      depth := fun i o h hget hhandle => ?_
      bottom := fun i o hget => ?_
      recent := ?_
      ledger := ?_
      asked := fun root hget => ?_ }
  · rcases Nat.lt_or_ge n s.handles.length with hlt | hge
    · rw [getElem?_append_left hlt] at hget
      exact hs.handle n h hget
    · rw [getElem?_append_right hge] at hget
      obtain ⟨hlt, rfl⟩ := List.getElem?_eq_some_iff.mp hget
      rw [length_singleton] at hlt
      rw [getElem_singleton, ScopeStack.next, hs.entered]
      dsimp only
      omega
  · cases i with
    | zero =>
      cases hget
      rw [getElem?_concat_length] at hhandle
      cases hhandle
      rw [length_cons, ScopeStack.depth, hs.length_eq]
    | succ i =>
      rw [getElem?_cons_succ] at hget
      rw [getElem?_append_left (hs.number_lt (mem_of_getElem? hget))] at hhandle
      have hdepth := hs.depth i o h hget hhandle
      rw [length_cons]
      omega
  · cases i with
    | zero =>
      cases hget
      rw [length_cons]
      cases hopen : s.openings with
      | nil => simpa [hopen] using houtside
      | cons o os => simpa [hopen] using htwice
    | succ i =>
      rw [getElem?_cons_succ] at hget
      rw [length_cons]
      exact (hs.bottom i o hget).trans Nat.add_right_cancel_iff.symm
  · rw [map_cons, pairwise_cons]
    refine ⟨fun n hn => ?_, hs.recent⟩
    obtain ⟨o, ho, rfl⟩ := mem_map.mp hn
    exact hs.number_lt ho
  · rw [map_cons, length_append, length_singleton, range_succ]
    exact perm_middle.trans ((hs.ledger.cons _).trans (perm_append_singleton _ _).symm)
  · cases hopen : s.stack.scopes with
    | nil =>
      -- the first scope is a module, and nothing is scheduled in it
      rw [hopen] at hget
      cases hget
      have hkind : kind = .module := by simpa [hs.scopes_eq_nil_iff.mp hopen] using houtside
      rw [hkind, ScopeStack.next]
      simp
    | cons top rest =>
      rw [hopen, getLast?_cons_cons, ← hopen] at hget
      have hkind : kind ≠ .module := by
        have hne : s.openings ≠ [] := by
          rw [ne_eq, ← hs.scopes_eq_nil_iff, hopen]
          exact cons_ne_nil top rest
        simpa [hne] using htwice
      rw [hs.asked root hget]
      simp [hkind]

/-- **A handle opens its own scope only**: it can be exited exactly if the scope that was entered
with it is the innermost one. -/
theorem exit_iff (hs : s.Kept) (hget : s.handles[n]? = some h) :
    (∃ stack, s.stack.exit h = .ok stack) ↔ s.openings.head?.map (·.number) = some n := by
  have hid := hs.handle n h hget
  have hmap := hs.map_id
  have hlength := hs.length_eq
  unfold ScopeStack.exit
  cases hopen : s.openings with
  | nil => simp [hs.scopes_eq_nil_iff.mpr hopen]
  | cons o os =>
    cases hscopes : s.stack.scopes with
    | nil => rw [hs.scopes_eq_nil_iff.mp hscopes] at hopen; cases hopen
    | cons top rest =>
      rw [hopen, hscopes, map_cons, map_cons, cons.injEq] at hmap
      dsimp only
      rw [head?_cons, Option.map_some, Option.some.injEq, hmap.1, hid, ScopeStack.depth, hlength]
      constructor
      · rintro ⟨stack, hok⟩
        by_contra hne
        rw [if_neg fun hboth => hne hboth.2] at hok
        cases hok
      · intro heq
        -- the scope on top is the one of the handle, so the depth is right as well
        have hdepth := hs.depth 0 o h (by rw [hopen]; rfl) (heq ▸ hget)
        exact ⟨_, if_pos ⟨by omega, heq⟩⟩

theorem exit (hs : s.Kept) (hget : s.handles[n]? = some h)
    (hok : s.stack.exit h = .ok stack) :
    Kept { s with stack, openings := s.openings.tail, exited := s.exited ++ [n] } := by
  -- a handle closes only the scope on top, which is the latest opening
  have htop := (hs.exit_iff hget).mp ⟨stack, hok⟩
  obtain ⟨o, os, hopen, rfl⟩ : ∃ o os, s.openings = o :: os ∧ o.number = n := by
    cases hopen : s.openings with
    | nil => rw [hopen] at htop; cases htop
    | cons o os =>
      rw [hopen] at htop
      exact ⟨o, os, rfl, by injection htop⟩
  have hscopes := hs.scopes
  unfold ScopeStack.exit at hok
  cases hstack : s.stack.scopes with
  | nil => rw [hstack] at hok; cases hok
  | cons top rest =>
    rw [hstack] at hok
    dsimp only at hok
    split at hok
    · cases hok
      rw [hopen, tail_cons]
      rw [hstack, hopen, map_cons, Opening.scopes, cons.injEq] at hscopes
      have hrecent := hs.recent
      have hledger := hs.ledger
      rw [hopen, map_cons] at hrecent hledger
      refine
        { scopes := hscopes.2
          entered := hs.entered
          handle := hs.handle
          depth := fun i o' h' ho hh => ?_
          bottom := fun i o' ho => ?_
          recent := (pairwise_cons.mp hrecent).2
          ledger := by rw [append_assoc]; exact hledger
          asked := fun root hroot => ?_ }
      · have hdepth := hs.depth (i + 1) o' h' (by rw [hopen]; exact ho) hh
        rw [hopen, length_cons] at hdepth
        dsimp only
        omega
      · have hbottom := hs.bottom (i + 1) o' (by rw [hopen]; exact ho)
        rw [hopen, length_cons] at hbottom
        exact hbottom.trans Nat.add_right_cancel_iff
      · refine hs.asked root ?_
        rw [hstack]
        cases rest with
        | nil => cases hroot
        | cons next rest => exact hroot
    · cases hok

/-- **A definition is scheduled once in a module.** The answer is whether it was not asked for
before, and the stack stays as it is but for the note. -/
theorem schedule_spec (hs : s.Kept) (hne : s.stack.scopes ≠ []) :
    ∃ stack, s.stack.scheduleDefinition = .ok (!s.asked, stack) ∧
      Kept { s with stack, asked := true } := by
  obtain ⟨inner, root, hscopes⟩ : ∃ inner root, s.stack.scopes = inner ++ [root] :=
    ⟨_, _, (dropLast_concat_getLast hne).symm⟩
  have hroot : s.stack.scopes[inner.length]? = some root := by
    rw [hscopes, getElem?_concat_length]
  obtain ⟨o, ho, _, hkind, _⟩ := hs.scope_cases hroot
  have hbottom : root.kind = .module := by
    refine hkind.trans ((hs.bottom _ o ho).mpr ?_)
    rw [← hs.length_eq, hscopes, length_append]
    rfl
  have hnote := hs.asked root (by rw [hscopes, getLast?_concat])
  have hschedule := ScopeStack.scheduleDefinition_append inner root s.stack.entered hbottom
  rw [← hscopes, hnote] at hschedule
  refine ⟨_, hschedule, { hs with scopes := ?_, asked := fun root' hget => ?_ }⟩
  · rw [← hs.scopes, hscopes, map_append, map_append]
    rfl
  · rw [getLast?_concat] at hget
    cases hget
    rfl

theorem schedule_nil (hnil : s.stack.scopes = []) :
    s.stack.scheduleDefinition = .error .scheduledOutsideModule := by
  unfold ScopeStack.scheduleDefinition
  rw [hnil]
  rfl

theorem call (hs : s.Kept) {c : ScopeCall} {answer : ScopeAnswer}
    (hcall : s.call c = some (answer, s')) : s'.Kept := by
  unfold ScopeSession.call at hcall
  cases c with
  | enter kind name delimiter =>
    dsimp only at hcall
    split at hcall
    · cases hcall
      exact hs.enter (by assumption)
    · cases hcall
      exact hs
  | exit n =>
    obtain ⟨h, hget, hcall⟩ := Option.map_eq_some_iff.mp hcall
    split at hcall
    · cases hcall
      exact hs.exit hget (by assumption)
    · cases hcall
      exact hs
  | schedule =>
    dsimp only at hcall
    by_cases hnil : s.stack.scopes = []
    · rw [schedule_nil hnil] at hcall
      cases hcall
      exact hs
    · obtain ⟨stack, hschedule, hkept⟩ := hs.schedule_spec hnil
      rw [hschedule] at hcall
      cases hcall
      exact hkept
  | current | delimiters | mangleClass target policy => cases hcall; exact hs

theorem foldlM (hs : s.Kept) {calls : List ScopeCall}
    (hrun : calls.foldlM (fun s c => (s.call c).map Prod.snd) s = some s') : s'.Kept := by
  induction calls generalizing s with
  | nil => cases hrun; exact hs
  | cons c calls ih =>
    obtain ⟨s₁, hfirst, hrest⟩ := Option.bind_eq_some_iff.mp hrun
    obtain ⟨⟨answer, s₁⟩, hcall, rfl⟩ := Option.map_eq_some_iff.mp hfirst
    exact ih (hs.call hcall) hrest

end Kept

/-! ## Whole runs -/

variable {s : ScopeSession} {i : Nat} {scope : Scope}

theorem call_fault {s' : ScopeSession} {c : ScopeCall} {f : ScopeFault}
    (hcall : s.call c = some (.fault f, s')) : s' = s := by
  unfold call at hcall
  cases c with
  | enter kind name delimiter =>
    dsimp only at hcall
    split at hcall <;> cases hcall
    rfl
  | exit n =>
    obtain ⟨h, _, hcall⟩ := Option.map_eq_some_iff.mp hcall
    split at hcall <;> cases hcall
    rfl
  | schedule =>
    dsimp only at hcall
    split at hcall <;> cases hcall
    rfl
  | current | delimiters | mangleClass target policy =>
    injection hcall with hcall; exact (congrArg Prod.snd hcall).symm

theorem find?_id {scopes : List Scope} (h : (scopes.map (·.id)).Pairwise (· > ·))
    (hget : scopes[i]? = some scope) :
    (scopes.find? fun other => other.id == scope.id) = some scope := by
  induction scopes generalizing i with
  | nil => cases hget
  | cons top rest ih =>
    rw [map_cons, pairwise_cons] at h
    cases i with
    | zero =>
      cases hget
      exact find?_cons_of_pos (beq_self_eq_true _)
    | succ i =>
      rw [getElem?_cons_succ] at hget
      have hlt := h.1 scope.id (mem_map_of_mem (mem_of_getElem? hget))
      rw [find?_cons_of_neg (by simp; omega)]
      exact ih h.2 hget

/-- **The scope that a scope was entered in is the one below it.** -/
theorem Kept.parentOf (hs : s.Kept) (hget : s.stack.scopes[i]? = some scope) :
    s.stack.parentOf scope = s.stack.scopes[i + 1]? := by
  obtain ⟨o, ho, hplain, _, _⟩ := hs.scope_cases hget
  obtain ⟨hlt, hdrop⟩ := List.getElem?_eq_some_iff.mp ho
  have hparent : scope.parent = (s.stack.scopes[i + 1]?).map (·.id) := by
    have hbelow : (s.stack.scopes[i + 1]?).map (·.id) = (s.openings[i + 1]?).map (·.number) := by
      rw [← getElem?_map, hs.map_id, getElem?_map]
    rw [drop_eq_getElem_cons hlt, Opening.scopes] at hplain
    injection hplain with hplain
    rw [hbelow, ← head?_drop]
    exact (congrArg Scope.parent hplain).symm
  rw [ScopeStack.parentOf, hparent]
  cases hnext : s.stack.scopes[i + 1]? with
  | none => rfl
  | some next =>
    rw [Option.map_some, Option.bind_some]
    exact find?_id (hs.map_id ▸ hs.recent) hnext

theorem Kept.map_given (hs : s.Kept) :
    s.stack.scopes.map (fun scope => (scope.kind, scope.name, scope.delimiter)) =
      s.openings.map fun o => (o.kind, o.name, o.delimiter) := by
  have hplain : s.stack.scopes.map (fun scope => (scope.kind, scope.name, scope.delimiter)) =
      (s.stack.scopes.map Scope.plain).map fun scope =>
        (scope.kind, scope.name, scope.delimiter) := by
    rw [map_map]
    rfl
  rw [hplain, hs.scopes]
  induction s.openings with
  | nil => rfl
  | cons o os ih => rw [Opening.scopes, map_cons, map_cons, ih]

/-- **Names are mangled with the nearest class**, at a scope or below it. -/
theorem Kept.mangleClass (hs : s.Kept) (hget : s.stack.scopes[i]? = some scope) :
    scope.mangleClass =
      ((s.stack.scopes.drop i).find? fun other => other.kind = .classBody).bind (·.name) := by
  -- the nearest class can be told from what was asked for
  have hnearest :
      ((s.stack.scopes.drop i).find? fun other => other.kind = .classBody).bind (·.name) =
      Opening.nearestClass (s.openings.drop i) := by
    have hdrop := congrArg (List.drop i) hs.map_given
    rw [← map_drop, ← map_drop] at hdrop
    have hfind :=
      congrArg (fun l => (l.find? fun (given : ScopeKind × Option Text × Option Delimiter) =>
      given.1 = .classBody).bind (·.2.1)) hdrop
    rwa [find?_map, find?_map, Option.bind_map, Option.bind_map] at hfind
  obtain ⟨o, ho, hplain, _, _⟩ := hs.scope_cases hget
  obtain ⟨hlt, _⟩ := List.getElem?_eq_some_iff.mp ho
  rw [hnearest]
  rw [drop_eq_getElem_cons hlt] at hplain ⊢
  rw [Opening.scopes] at hplain
  injection hplain with hplain
  exact (congrArg Scope.mangleClass hplain).symm

/-- **The discipline of the stack over whole runs.** After any calls, with any handles that were
returned:

* a module is at the bottom of the stack and nowhere else;
* the scopes are those that have been entered and not been left, each was entered in the one below
  it, and it mangles names with the nearest class at or below it;
* a handle can be exited exactly if the innermost scope was entered with it. So each handle is
  exited at most once, and of those whose scopes are on the stack the latest one first;
* the first schedule since the module was entered gives true and every later one false;
* a call that is refused leaves the stack as it was. -/
theorem run_disciplined (calls : List ScopeCall) (s : ScopeSession) (hrun : run calls = some s) :
    (∀ (i : Nat) scope, s.stack.scopes[i]? = some scope →
      (scope.kind = .module ↔ i + 1 = s.stack.scopes.length)) ∧
    s.stack.scopes.map (fun scope => (scope.kind, scope.name, scope.delimiter)) =
      s.openings.map (fun o => (o.kind, o.name, o.delimiter)) ∧
    (∀ (i : Nat) scope, s.stack.scopes[i]? = some scope →
      s.stack.parentOf scope = s.stack.scopes[i + 1]? ∧
      scope.mangleClass =
        ((s.stack.scopes.drop i).find? fun other => other.kind = .classBody).bind (·.name)) ∧
    (∀ (n : Nat) h, s.handles[n]? = some h →
      ((∃ stack, s.stack.exit h = .ok stack) ↔ s.openings.head?.map (·.number) = some n)) ∧
    (s.exited ++ s.openings.map (·.number)).Perm (range s.handles.length) ∧
    (s.openings.map (·.number)).Pairwise (· > ·) ∧
    (s.stack.scopes ≠ [] → ∃ stack, s.stack.scheduleDefinition = .ok (!s.asked, stack)) ∧
    (s.stack.scopes = [] → s.stack.scheduleDefinition = .error .scheduledOutsideModule) ∧
    ∀ c f s', s.call c = some (.fault f, s') → s'.stack = s.stack := by
  have hs : s.Kept := Kept.start.foldlM hrun
  refine ⟨fun i scope hget => ?_, hs.map_given,
    fun i scope hget => ⟨hs.parentOf hget, hs.mangleClass hget⟩,
    fun n h hget => hs.exit_iff hget, hs.ledger, hs.recent, fun hne => ?_, Kept.schedule_nil, ?_⟩
  · obtain ⟨o, ho, _, hkind, _⟩ := hs.scope_cases hget
    rw [hs.length_eq, ← hs.bottom i o ho, ← hkind]
    rfl
  · obtain ⟨stack, hschedule, _⟩ := hs.schedule_spec hne
    exact ⟨stack, hschedule⟩
  · intro c f s' hcall
    rw [call_fault hcall]

/-- A function in a class is left, and a lambda is entered at the same depth. The handle of the
function then comes back, and that of the class out of turn. -/
def staleCalls : List ScopeCall :=
  [.schedule, .enter .module none none, .enter .classBody (some "A") none,
    .enter .function (some "f") none, .schedule, .exit 2,
    .enter .lambda none none, .exit 2, .exit 1,
    .enter .module none none, .mangleClass .lambda .all]

theorem run_disciplined_stale : ∃ s, run staleCalls = some s ∧
    s.openings.map (·.number) = [3, 1, 0] ∧ s.exited = [2] ∧
      s.handles.map (·.depth) = [1, 2, 3, 3] ∧
    s.stack.scopes.map (·.mangleClass) = [some ("A" : Text), some ("A" : Text), none] ∧
    (∀ (n : Nat) h, s.handles[n]? = some h → ((∃ stack, s.stack.exit h = .ok stack) ↔ n = 3)) ∧
    ∃ stack, s.stack.scheduleDefinition = .ok (false, stack) := by
  have hbook : (run staleCalls).map
      (fun s => (s.openings.map (·.number), s.exited, s.handles.map (·.depth))) =
      some ([3, 1, 0], [2], [1, 2, 3, 3]) := by
    decide
  have hstack : (run staleCalls).map (fun s => (s.stack.scopes.map (·.mangleClass), s.asked)) =
      some ([some ("A" : Text), some ("A" : Text), none], true) := by
    decide
  cases hrun : run staleCalls with
  | none => rw [hrun] at hbook; cases hbook
  | some s =>
    rw [hrun, Option.map_some, Option.some.injEq, Prod.mk.injEq] at hbook hstack
    obtain ⟨hopen, hbook⟩ := hbook
    obtain ⟨hexited, hdepths⟩ := Prod.mk.inj hbook
    obtain ⟨hclasses, hasked⟩ := hstack
    obtain ⟨_, _, _, hexit, _, _, hschedule, _⟩ := run_disciplined staleCalls s hrun
    refine ⟨s, rfl, hopen, hexited, hdepths, hclasses, fun n h hget => ?_, ?_⟩
    · rw [hexit n h hget, ← List.head?_map, hopen]
      simp [eq_comm]
    · have hne : s.stack.scopes ≠ [] := by
        intro hnil
        rw [hnil] at hclasses
        cases hclasses
      obtain ⟨stack, hok⟩ := hschedule hne
      exact ⟨stack, by rw [hok, hasked]; rfl⟩

end ScopeSession

end Posonly
