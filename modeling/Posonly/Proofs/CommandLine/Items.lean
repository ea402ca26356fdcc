import Posonly.CommandLine
import Posonly.Proofs.Options.Resolution

/-!
# Items on the command line

Arguments fall into items (`Item`): a flag without a value, a flag with its value behind an equals
sign or in an argument of its own, or a path. Each argument belongs to one item, and there is one
way only to tell the items apart (`Splits.unique`), so it is never in doubt whether an argument is a
flag, the value of one or a path. Arguments are read item by item (`arguments_item`), and a run is
asked for if all items are taken in and none of them asks for something else (`takes_of_arguments`).
-/

open List

namespace Posonly.CommandLine

/-! ## Items -/

/-- What one or two arguments make up. -/
inductive Item where
  /-- A flag without a value. Whatever stands behind an equals sign there is passed over. -/
  | switch (s : Switch) (arg : Text)
  /-- A flag with its value behind an equals sign. -/
  | inline (f : ValueFlag) (name value : Text)
  /-- A flag and its value, each an argument. -/
  | apart (f : ValueFlag) (name value : Text)
  /-- No flag. -/
  | path (arg : Text)
deriving DecidableEq, Repr

/-- The arguments of an item. -/
def Item.arguments : Item → List Text
  | .switch _ arg => [arg]
  | .inline _ name value => [name ++ 0x3D :: value]
  | .apart _ name value => [name, value]
  | .path arg => [arg]

/-- Whether a flag is of the kind that can have an equals sign behind it. -/
def IsLong (name : Text) : Prop := Text.startsWith name "--" = true

/-- Whether an item is spelled as its kind has to be. -/
def Item.Spelled : Item → Prop
  | .switch s arg => ∃ name, Flag.ofText? name = some (.switch s) ∧
      (arg = name ∨ IsLong name ∧ ∃ value, arg = name ++ 0x3D :: value)
  | .inline f name _ => Flag.ofText? name = some (.value f) ∧ IsLong name
  | .apart f name _ => Flag.ofText? name = some (.value f)
  | .path arg => ∀ name flag, Flag.ofText? name = some flag →
      arg ≠ name ∧ (IsLong name → ∀ value, arg ≠ name ++ 0x3D :: value)

/-- Arguments are made up of items. -/
structure Splits (args : List Text) (items : List Item) : Prop where
  arguments : args = items.flatMap Item.arguments
  spelled : ∀ i ∈ items, i.Spelled

/-! ## Telling items apart -/

variable {name value arg : Text} {flag : Flag} {f : ValueFlag} {cwd : Text} {rest : List Text}

theorem equals_notMem (h : Flag.ofText? name = some flag) : 0x3D ∉ name := by
  have hall : ∀ entry ∈ flags, (0x3D : UInt16) ∉ Text.ofString entry.1 := by decide
  obtain ⟨entry, hfind, _⟩ := Option.map_eq_some_iff.mp h
  have hname := find?_some hfind
  rw [beq_iff_eq] at hname
  rw [← hname]
  exact hall entry (mem_of_find?_eq_some hfind)

theorem cutArgument_of_notMem (h : 0x3D ∉ name) : cutArgument name = (name, none) := by
  have hcontains : name.contains 0x3D = false := by simpa using h
  rw [cutArgument, hcontains, Bool.and_false]
  rfl

theorem cutArgument_inline (hlong : IsLong name) (h : 0x3D ∉ name) (value : Text) :
    cutArgument (name ++ 0x3D :: value) = (name, some value) := by
  have hstart : Text.startsWith (name ++ 0x3D :: value) "--" = true := by
    rw [Text.startsWith, isPrefixOf_iff_prefix]
    exact (List.isPrefixOf_iff_prefix.mp hlong).trans (prefix_append _ _)
  have hname : ∀ u ∈ name, (u != 0x3D) = true := by
    intro u hu
    rw [bne_iff_ne]
    rintro rfl
    exact h hu
  rw [cutArgument, hstart, takeWhile_append_of_pos hname, dropWhile_append_of_pos hname]
  simp

theorem isLong_of_append (h : IsLong (name ++ 0x3D :: value)) : IsLong name := by
  have hdashes : Text.ofString "--" = [0x2D, 0x2D] := by decide
  unfold IsLong Text.startsWith at h ⊢
  rw [hdashes, isPrefixOf_iff_prefix] at h ⊢
  rcases name with _ | ⟨u, _ | ⟨v, name⟩⟩
  · simp [cons_prefix_cons] at h
  · simp [cons_prefix_cons] at h
  · simpa [cons_prefix_cons] using h

/-- An argument is taken whole, or a long option has its value behind an equals sign. -/
theorem cutArgument_cases (arg : Text) : cutArgument arg = (arg, none) ∨
    ∃ name value, IsLong name ∧ arg = name ++ 0x3D :: value ∧
      cutArgument arg = (name, some value) := by
  by_cases h : (Text.startsWith arg "--" && arg.contains 0x3D) = true
  · rw [Bool.and_eq_true, contains_iff_mem] at h
    obtain ⟨name, value, harg, hname⟩ := eq_append_cons_of_mem h.2
    have hlong : IsLong name := isLong_of_append (harg ▸ h.1)
    exact .inr ⟨name, value, hlong, harg, harg ▸ cutArgument_inline hlong hname value⟩
  · left
    rw [cutArgument, if_neg h]

/-- The first item of some arguments, and what is behind it. A flag that lacks its value is none. -/
def Item.first? : List Text → Option (Item × List Text)
  | [] => none
  | arg :: rest =>
    match Flag.ofText? (cutArgument arg).1, (cutArgument arg).2, rest with
    | none, _, _ => some (.path arg, rest)
    | some (.switch s), _, _ => some (.switch s arg, rest)
    | some (.value f), some value, _ => some (.inline f (cutArgument arg).1 value, rest)
    | some (.value f), none, value :: rest => some (.apart f arg value, rest)
    | some (.value _), none, [] => none

variable {i : Item} {args : List Text} {r : Reading} {o : RunOptions} {items : List Item}

/-- **An item is read back** from its arguments, whatever follows them. -/
theorem Item.first?_arguments (h : i.Spelled) (rest : List Text) :
    Item.first? (i.arguments ++ rest) = some (i, rest) := by
  cases i with
  | switch s arg =>
    obtain ⟨name, hname, harg⟩ := h
    have hcut : (cutArgument arg).1 = name := by
      rcases harg with rfl | ⟨hlong, value, rfl⟩
      · rw [cutArgument_of_notMem (equals_notMem hname)]
      · rw [cutArgument_inline hlong (equals_notMem hname)]
    simp only [Item.arguments, singleton_append, Item.first?, hcut, hname]
  | inline f name value =>
    simp only [Item.arguments, singleton_append, Item.first?,
      cutArgument_inline h.2 (equals_notMem h.1), h.1]
  | apart f name value =>
    have hname : Flag.ofText? name = some (.value f) := h
    simp only [Item.arguments, cons_append, nil_append, Item.first?,
      cutArgument_of_notMem (equals_notMem hname), hname]
  | path arg =>
    have hname : Flag.ofText? (cutArgument arg).1 = none := by
      rw [Option.eq_none_iff_forall_ne_some]
      intro flag hflag
      have hother := h _ flag hflag
      rcases cutArgument_cases arg with hcut | ⟨name, value, hlong, harg, hcut⟩
      · rw [hcut] at hother
        exact hother.1 rfl
      · rw [hcut] at hother
        exact hother.2 hlong value harg
    simp only [Item.arguments, singleton_append, Item.first?, hname]

/-- What is read as an item is spelled as one. -/
theorem Item.spelled_of_first? (h : Item.first? args = some (i, rest)) :
    i.Spelled ∧ args = i.arguments ++ rest := by
  cases args with
  | nil => cases h
  | cons arg tail =>
    unfold Item.first? at h
    dsimp only at h
    split at h
    · -- an argument that no flag is cut from
      rename_i hname
      cases h
      refine ⟨fun name flag hflag => ⟨?_, ?_⟩, rfl⟩
      · rintro rfl
        rw [cutArgument_of_notMem (equals_notMem hflag), hflag] at hname
        cases hname
      · rintro hlong value rfl
        rw [cutArgument_inline hlong (equals_notMem hflag), hflag] at hname
        cases hname
    · rename_i s hname
      cases h
      refine ⟨⟨_, hname, ?_⟩, rfl⟩
      rcases cutArgument_cases arg with hcut | ⟨name, value, hlong, harg, hcut⟩
      · rw [hcut]
        exact .inl rfl
      · rw [hcut]
        exact .inr ⟨hlong, value, harg⟩
    · rename_i f value hname hvalue
      cases h
      rcases cutArgument_cases arg with hcut | ⟨name, value', hlong, harg, hcut⟩
      · rw [hcut] at hvalue
        cases hvalue
      · rw [hcut] at hname hvalue ⊢
        obtain rfl := Option.some.inj hvalue
        exact ⟨⟨hname, hlong⟩, by rw [harg]; rfl⟩
    · rename_i f value behind hname hvalue
      cases h
      rcases cutArgument_cases arg with hcut | ⟨name, value', hlong, harg, hcut⟩
      · rw [hcut] at hname
        exact ⟨hname, rfl⟩
      · rw [hcut] at hvalue
        cases hvalue
    · cases h

theorem Splits.first? (h : Splits args (i :: items)) :
    Item.first? args = some (i, items.flatMap Item.arguments) := by
  rw [h.arguments, flatMap_cons]
  exact Item.first?_arguments (h.spelled i (.head _)) _

theorem Splits.tail (h : Splits args (i :: items)) :
    Splits (items.flatMap Item.arguments) items :=
  ⟨rfl, fun j hj => h.spelled j (mem_cons_of_mem i hj)⟩

/-- **There is one way only to tell items apart.** -/
theorem Splits.unique {items items' : List Item} (h : Splits args items) (h' : Splits args items') :
    items' = items := by
  induction items generalizing args items' with
  | nil =>
    cases items' with
    | nil => rfl
    | cons i items' =>
      have hfirst := h'.first?
      rw [h.arguments] at hfirst
      cases hfirst
  | cons i items ih =>
    cases items' with
    | nil =>
      have hfirst := h.first?
      rw [h'.arguments] at hfirst
      cases hfirst
    | cons i' items' =>
      obtain ⟨rfl, hrest⟩ := Prod.mk.inj (Option.some.inj (h'.first?.symm.trans h.first?))
      have htail : Splits (items.flatMap Item.arguments) items' := hrest ▸ h'.tail
      rw [ih h.tail htail]

/-! ## Reading items -/

/-- What an item leads to. -/
def Reading.take (r : Reading) (cwd : Text) : Item → Except OptionError Step
  | .switch s _ => .ok (r.switch s)
  | .inline f _ value => (r.value cwd f value).map .goOn
  | .apart f _ value => (r.value cwd f value).map .goOn
  | .path arg => (r.path arg).map .goOn

/-- What is made of the arguments behind an item. -/
def Step.next (cwd : Text) (rest : List Text) : Step → Except OptionError Command
  | .goOn r => r.arguments cwd rest
  | .done c => .ok c

/-- One item is read, and then the rest. -/
theorem arguments_item (h : Item.first? args = some (i, rest)) (r : Reading) (cwd : Text) :
    r.arguments cwd args = r.take cwd i >>= Step.next cwd rest := by
  have hmap : ∀ x : Except OptionError Reading,
      (x >>= fun r => r.arguments cwd rest) = x.map Step.goOn >>= Step.next cwd rest := by
    intro x
    cases x <;> rfl
  cases args with
  | nil => cases h
  | cons arg tail =>
    unfold Item.first? at h
    dsimp only at h
    rw [Reading.arguments]
    generalize cutArgument arg = cut at h ⊢
    obtain ⟨flag, inline⟩ := cut
    dsimp only at h ⊢
    -- a path, a switch, a value behind an equals sign, or one in the next argument
    split at h
    · rename_i hname
      cases h
      rw [hname]
      exact hmap _
    · rename_i s hname
      cases h
      rw [hname, Reading.take]
      dsimp only
      cases r.switch s <;> rfl
    · rename_i f value hname
      cases h
      rw [hname]
      exact hmap _
    · rename_i f value behind hname
      cases h
      rw [hname]
      exact hmap _
    · cases h

theorem arguments_dangling (hne : args ≠ []) (h : Item.first? args = none) (r : Reading)
    (cwd : Text) (c : Command) : r.arguments cwd args ≠ .ok c := by
  obtain ⟨arg, tail, rfl⟩ := exists_cons_of_ne_nil hne
  unfold Item.first? at h
  dsimp only at h
  rw [Reading.arguments]
  generalize cutArgument arg = cut at h ⊢
  obtain ⟨flag, inline⟩ := cut
  dsimp only at h ⊢
  split at h
  · cases h
  · cases h
  · cases h
  · cases h
  · rename_i f hname
    rw [hname]
    intro hok
    cases hok

/-- Items that are read one after the other, up to where they lead. -/
inductive Takes (cwd : Text) : Reading → List Item → Reading → Prop where
  | nil (r : Reading) : Takes cwd r [] r
  | cons {r r' r'' : Reading} {i : Item} {items : List Item} :
      r.take cwd i = .ok (.goOn r') → Takes cwd r' items r'' → Takes cwd r (i :: items) r''

theorem options_of_finish (h : r.finish = .ok (.run o)) : r.options = o := by
  unfold Reading.finish at h
  split at h
  · cases h
  · split at h
    · cases h
    · cases h
      rfl

theorem take_ne_run : r.take cwd i ≠ .ok (.done (.run o)) := by
  cases i with
  | switch s arg => cases s <;> simp [Reading.take, Reading.switch]
  | inline f name value | apart f name value =>
    cases h : r.value cwd f value <;> simp [Reading.take, h, Except.map]
  | path arg => cases h : r.path arg <;> simp [Reading.take, h, Except.map]

/-- **When arguments ask for a run**, they fall into items, which are read one after the other. -/
theorem takes_of_arguments (h : r.arguments cwd args = .ok (.run o)) :
    ∃ items r', Splits args items ∧ Takes cwd r items r' ∧ r'.options = o := by
  -- on the number of arguments: an item takes one or two of them
  induction hn : args.length using Nat.strongRecOn generalizing r args with
  | ind n ih =>
    subst hn
    by_cases hne : args = []
    · subst hne
      rw [Reading.arguments] at h
      exact ⟨[], r, ⟨rfl, by simp⟩, .nil r, options_of_finish h⟩
    · cases hfirst : Item.first? args with
      | none => exact absurd h (arguments_dangling hne hfirst r cwd _)
      | some first =>
        obtain ⟨i, rest⟩ := first
        obtain ⟨hspelled, rfl⟩ := Item.spelled_of_first? hfirst
        rw [arguments_item hfirst] at h
        obtain ⟨step, htake, hnext⟩ := bind_eq_ok.mp h
        cases step with
        | done c =>
          rw [Step.next] at hnext
          cases hnext
          exact absurd htake take_ne_run
        | goOn r' =>
          have hlt : rest.length < (i.arguments ++ rest).length := by
            have hpos : 0 < i.arguments.length := by cases i <;> exact Nat.succ_pos _
            rw [length_append]
            omega
          obtain ⟨items, r'', hsplits, htakes, hend⟩ := ih _ hlt hnext rfl
          refine ⟨i :: items, r'', ⟨?_, ?_⟩, .cons htake htakes, hend⟩
          · rw [flatMap_cons, hsplits.arguments]
          · simpa [hspelled] using hsplits.spelled

end Posonly.CommandLine
