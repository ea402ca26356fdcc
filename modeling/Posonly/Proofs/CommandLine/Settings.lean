import Posonly.Proofs.CommandLine.Items

/-!
# What wins on the command line

Every item sets one thing (`advances_of_take`), and the environment sets things before any item does
(`start_get`). So what a run is asked to do can be told from the items alone: a setting is the last
value of its flag, else that of its variable in the environment, else the default
(`Setting.Settled`). And as an item with an equals sign sets what it sets without, either spelling
can take the place of the other (`read_respelled`).
-/

open List Option

namespace Posonly.CommandLine

variable {name value arg : Text} {f : ValueFlag} {cwd : Text}

/-! ## Settings -/

/-- The path that an item is. -/
def Item.path? : Item → Option Text
  | .path arg => some arg
  | _ => none

/-- What an item gives a setting that a flag without a value is for. -/
def switched {α : Type} (s : Switch) (a : α) : Item → Option (Except OptionError α)
  | .switch s' _ => if s' = s then some (.ok a) else none
  | _ => none

/-- What an item gives a setting that a flag with a value is for. -/
def valued {α : Type} (f : ValueFlag) (reader : Text → Except OptionError α) :
    Item → Option (Except OptionError α)
  | .inline f' _ value => if f' = f then some (reader value) else none
  | .apart f' _ value => if f' = f then some (reader value) else none
  | _ => none

/-- What the environment gives a setting that a variable is for. An empty variable gives nothing. -/
def preset {α : Type} (name : Text) (reader : Text → Except OptionError α) (env : Environment) :
    Option (Except OptionError α) :=
  (env.get? name).map reader

/-- A setting of a run, and where it comes from. -/
structure Setting where
  {Value : Type}
  /-- What it is in the options of a run. -/
  get : RunOptions → Value
  /-- What an item gives it. -/
  given : Item → Option (Except OptionError Value)
  /-- What the environment gives it. -/
  preset : Environment → Option (Except OptionError Value) := fun _ => none
  default : Value

/-- **What wins**: the last item that gives the setting, else the environment, else the default. -/
def Setting.Settled (s : Setting) (env : Environment) (items : List Item) (o : RunOptions) : Prop :=
  ((items.filterMap s.given).getLast?.or (s.preset env)).getD (.ok s.default) = .ok (s.get o)

/-- A setting that a variable and a flag without a value are for. -/
@[simp] def Setting.ofSwitch {α : Type} (get : RunOptions → α) (default : α) (s : Switch) (a : α)
    (variableName : Text) (reader : Text → Except OptionError α) : Setting where
  get := get
  default := default
  given := switched s a
  preset := CommandLine.preset variableName reader

/-- A setting that a variable and a flag with a value are for. -/
@[simp] def Setting.ofValue {α : Type} (get : RunOptions → α) (default : α) (f : ValueFlag)
    (variableName : Text) (reader : Text → Except OptionError α) : Setting where
  get := get
  default := default
  given := valued f reader
  preset := CommandLine.preset variableName reader

/-- All settings of a run from a working directory. -/
def settings (cwd : Text) : List Setting :=
  [.ofSwitch (·.quiet) false .quiet true "POSONLY_QUIET" (readBoolean "POSONLY_QUIET"),
   .ofSwitch (·.archive) true .noArchive false "POSONLY_ARCHIVE" (readBoolean "POSONLY_ARCHIVE"),
   { get := (·.archivePath), default := Path.join cwd defaultArchive
     given := valued .archivePath fun value => .ok (Path.resolve cwd value) },
   .ofValue (·.encoding) .utf8 .encoding "POSONLY_ENCODING" readEncoding,
   .ofValue (·.concurrency) none .concurrency "POSONLY_CONCURRENCY"
     fun value => (readConcurrency value).map some,
   { get := (·.dryRun), default := false, given := switched .dryRun true },
   { get := (·.failFast), default := false, given := switched .failFast true },
   .ofValue (·.values.indentation) none .indentation "POSONLY_INDENTATION"
     fun value => (readIndentation value).map some,
   .ofValue (·.values.lineSeparator) none .linesep "POSONLY_LINESEP"
     fun value => (readLineSeparator value).map (some ·.text),
   .ofSwitch (·.values.pep8) none .noPep8 (some false) "POSONLY_PEP8"
     fun value => (readBoolean "POSONLY_PEP8" value).map some,
   .ofValue (·.values.version) none .python "POSONLY_VERSION"
     fun value => (readVersion value).map (some ·.text),
   .ofValue (·.values.decorator) none .decorator "POSONLY_DECORATOR"
     fun value => (readDecorator value).map some,
   .ofSwitch (·.values.dismiss) none .dismiss (some true) "POSONLY_DISMISS"
     fun value => (readBoolean "POSONLY_DISMISS" value).map some,
   .ofSwitch (·.values.lint) none .lint (some true) "POSONLY_LINT"
     fun value => (readBoolean "POSONLY_LINT" value).map some,
   .ofValue (·.values.mangling) none .mangling "POSONLY_MANGLING"
     fun value => (readManglePolicy value).map (some ·.text)]

/-- Reading goes from one state to another by an item: each setting becomes what the item gives it,
or stays, and the item is put to the paths if it is one. -/
structure Advances (cwd : Text) (i : Item) (r r' : Reading) : Prop where
  get : ∀ s ∈ settings cwd, (s.given i).getD (.ok (s.get r.options)) = .ok (s.get r'.options)
  paths : r'.options.paths = r.options.paths ++ i.path?.toList

theorem given_apart (f : ValueFlag) (name value : Text) :
    ∀ s ∈ settings cwd, s.given (.apart f name value) = s.given (.inline f name value) := by
  simp [settings, switched, valued]

variable {r r' : Reading} {items : List Item}

theorem advances_of_value (h : r.value cwd f value = .ok r') (name : Text) :
    Advances cwd (.inline f name value) r r' := by
  unfold Reading.value at h
  cases f with
  | archivePath | recover =>
    cases h
    exact ⟨by simp [settings, switched, valued], by simp [Item.path?]⟩
  | _ =>
    obtain ⟨a, ha, h⟩ := bind_eq_ok.mp h
    cases h
    exact ⟨by simp [settings, switched, valued, ha, Except.map], by simp [Item.path?]⟩

theorem goOn_of_map {x : Except OptionError Reading} (h : x.map Step.goOn = .ok (.goOn r)) :
    x = .ok r := by
  cases x with
  | error e => cases h
  | ok r' => cases h; rfl

theorem advances_of_take {i : Item} (h : r.take cwd i = .ok (.goOn r')) : Advances cwd i r r' := by
  cases i with
  | switch s arg =>
    rw [Reading.take] at h
    cases s with
    | help | version => cases h
    | _ =>
      cases h
      exact ⟨by simp [settings, switched, valued], by simp [Item.path?]⟩
  | inline f name value => exact advances_of_value (goOn_of_map h) name
  | apart f name value =>
    have hadvances := advances_of_value (goOn_of_map h) name
    exact ⟨fun s hs => by rw [given_apart f name value s hs]; exact hadvances.get s hs,
      hadvances.paths⟩
  | path arg =>
    rw [Reading.take, Reading.path] at h
    split at h
    · cases h
    · cases h
      exact ⟨by simp [settings, switched, valued], rfl⟩

/-- **What the items of a run of reading do to a setting**: the last that gives it counts. -/
theorem Takes.get (h : Takes cwd r items r') : ∀ s ∈ settings cwd,
      ((items.filterMap s.given).getLast?).getD (.ok (s.get r.options)) =
        .ok (s.get r'.options) := by
  intro s hs
  induction h with
  | nil r => rfl
  | @cons r r' r'' i items htake _ ih =>
    have hstep := (advances_of_take htake).get s hs
    cases hgiven : s.given i with
    | none =>
      rw [hgiven, getD_none] at hstep
      rwa [filterMap_cons_none hgiven, hstep]
    | some x =>
      rw [hgiven, getD_some] at hstep
      rwa [filterMap_cons_some hgiven, getLast?_cons, getD_some, hstep]

theorem Takes.paths (h : Takes cwd r items r') :
    r'.options.paths = r.options.paths ++ items.filterMap Item.path? := by
  induction h with
  | nil r => simp
  | @cons r r' r'' i items htake _ ih =>
    rw [ih, (advances_of_take htake).paths, append_assoc]
    cases hpath : i.path? <;> simp [hpath]

/-! ## Before any item -/

section

variable {α β : Type} {env : Environment} {reader : Text → Except OptionError α} {x : Option α}

theorem preset_of_read (h : env.read name reader = .ok x) : preset name reader env = x.map .ok := by
  unfold Environment.read at h
  unfold preset
  cases hvalue : env.get? name with
  | none =>
    rw [hvalue] at h
    cases h
    rfl
  | some value =>
    rw [hvalue] at h
    dsimp only at h
    cases hread : reader value with
    | error e => rw [hread] at h; cases h
    | ok a =>
      rw [hread] at h
      cases h
      exact congrArg some hread

theorem getD_preset (h : env.read name reader = .ok x) (a : α) :
    (preset name reader env).getD (.ok a) = .ok (x.getD a) := by
  rw [preset_of_read h]
  cases x <;> rfl

theorem getD_preset_map (h : env.read name reader = .ok x) (g : α → β) :
    (preset name (fun value => (reader value).map fun a => some (g a)) env).getD (.ok none) =
      .ok (x.map g) := by
  have hmap : preset name (fun value => (reader value).map fun a => some (g a)) env =
      (preset name reader env).map (·.map fun a => some (g a)) := by
    rw [preset, preset, Option.map_map]
    rfl
  rw [hmap, preset_of_read h]
  cases x <;> rfl

end

variable {env : Environment}

/-- **What holds before any argument has been read**: what the environment gives, or the default. -/
theorem start_get (h : Reading.start env cwd = .ok r) :
    (∀ s ∈ settings cwd, (s.preset env).getD (.ok s.default) = .ok (s.get r.options)) ∧
      r.options.paths = [] := by
  obtain ⟨run, hrun, h⟩ := bind_eq_ok.mp h
  obtain ⟨archive, harchive, h⟩ := bind_eq_ok.mp h
  obtain ⟨values, hvalues, h⟩ := bind_eq_ok.mp h
  cases h
  obtain ⟨quiet, hquiet, hrun⟩ := bind_eq_ok.mp hrun
  obtain ⟨encoding, hencoding, hrun⟩ := bind_eq_ok.mp hrun
  obtain ⟨concurrency, hconcurrency, hrun⟩ := bind_eq_ok.mp hrun
  cases hrun
  obtain ⟨indentation, hindentation, hvalues⟩ := bind_eq_ok.mp hvalues
  obtain ⟨separator, hseparator, hvalues⟩ := bind_eq_ok.mp hvalues
  obtain ⟨pep8, hpep8, hvalues⟩ := bind_eq_ok.mp hvalues
  obtain ⟨version, hversion, hvalues⟩ := bind_eq_ok.mp hvalues
  obtain ⟨decorator, hdecorator, hvalues⟩ := bind_eq_ok.mp hvalues
  obtain ⟨dismiss, hdismiss, hvalues⟩ := bind_eq_ok.mp hvalues
  obtain ⟨lint, hlint, hvalues⟩ := bind_eq_ok.mp hvalues
  obtain ⟨mangling, hmangling, hvalues⟩ := bind_eq_ok.mp hvalues
  cases hvalues
  have hsome : ∀ {α : Type} {name reader} {x : Option α}, env.read name reader = .ok x →
      (preset name (fun value => (reader value).map some) env).getD (.ok none) = .ok x := by
    intro α name reader x hx
    exact (getD_preset_map hx id).trans (by rw [Option.map_id, id])
  refine ⟨?_, rfl⟩
  simp only [settings, forall_mem_cons]
  exact ⟨getD_preset hquiet false, getD_preset harchive true, rfl, getD_preset hencoding .utf8,
    hsome hconcurrency, rfl, rfl, hsome hindentation, getD_preset_map hseparator _, hsome hpep8,
    getD_preset_map hversion _, hsome hdecorator, hsome hdismiss, hsome hlint,
    getD_preset_map hmangling _, by simp⟩

/-! ## What a run is asked to do -/

theorem settled_of_takes (hstart : Reading.start env cwd = .ok r) (htakes : Takes cwd r items r') :
    ∀ s ∈ settings cwd, s.Settled env items r'.options := by
  intro s hs
  have hlast := htakes.get s hs
  have hfirst := (start_get hstart).1 s hs
  rw [Setting.Settled]
  cases hitems : (items.filterMap s.given).getLast? with
  | none =>
    rw [hitems, getD_none] at hlast
    rw [none_or, hfirst, hlast]
  | some x =>
    rw [hitems, getD_some] at hlast
    rw [some_or, getD_some, hlast]

/-! ## Spelling a flag with a value -/

theorem arguments_behind (hspelled : ∀ i ∈ items, i.Spelled) {xs ys : List Text}
    (h : ∀ r : Reading, r.arguments cwd xs = r.arguments cwd ys) (r : Reading) :
    r.arguments cwd (items.flatMap Item.arguments ++ xs) =
      r.arguments cwd (items.flatMap Item.arguments ++ ys) := by
  induction items generalizing r with
  | nil => exact h r
  | cons i items ih =>
    have hi := hspelled i (.head _)
    rw [flatMap_cons, append_assoc, append_assoc,
      arguments_item (Item.first?_arguments hi _), arguments_item (Item.first?_arguments hi _)]
    cases r.take cwd i with
    | error e => rfl
    | ok step =>
      cases step with
      | done c => rfl
      | goOn r' => exact ih (fun j hj => hspelled j (.tail _ hj)) r'

/-- **A value may stand behind an equals sign or in an argument of its own.** -/
theorem read_respelled {before : List Item} (hbefore : ∀ i ∈ before, i.Spelled)
    (hname : (Item.inline f name value).Spelled) (after : List Text) :
    read (before.flatMap Item.arguments ++ (name ++ 0x3D :: value) :: after) env cwd =
      read (before.flatMap Item.arguments ++ name :: value :: after) env cwd := by
  have happart : (Item.apart f name value).Spelled := hname.1
  have hsame : ∀ r : Reading, r.arguments cwd ((name ++ 0x3D :: value) :: after) =
      r.arguments cwd (name :: value :: after) := fun r =>
    (arguments_item (Item.first?_arguments hname after) r cwd).trans
      (arguments_item (Item.first?_arguments happart after) r cwd).symm
  rw [read, read]
  cases Reading.start env cwd with
  | error e => rfl
  | ok r => exact arguments_behind hbefore hsame r

/-- **What wins on the command line.** If a run is asked for, the arguments fall into items in one
way only: every setting is the last value of its flag in the items, else that of its variable, else
the default, and the paths are the items that are no flags, in order. Behind whole items, a flag
with a value can be spelled with an equals sign or as two arguments, whatever the value is and
whatever follows. -/
theorem read_precedence (args : List Text) (env : Environment) (cwd : Text) :
    (∀ o, read args env cwd = .ok (.run o) → ∃ items, Splits args items ∧
      (∀ items', Splits args items' → items' = items) ∧ o.paths = items.filterMap Item.path? ∧
      ∀ s ∈ settings cwd, s.Settled env items o) ∧
    ∀ (before : List Item) (f : ValueFlag) (name value : Text) (after : List Text),
      (∀ i ∈ before, i.Spelled) → Flag.ofText? name = some (.value f) → IsLong name →
      read (before.flatMap Item.arguments ++ (name ++ 0x3D :: value) :: after) env cwd =
        read (before.flatMap Item.arguments ++ name :: value :: after) env cwd := by
  refine ⟨fun o h => ?_, fun before f name value after hbefore hname hlong =>
    read_respelled hbefore ⟨hname, hlong⟩ after⟩
  obtain ⟨r, hstart, h⟩ := bind_eq_ok.mp h
  obtain ⟨items, r', hsplits, htakes, rfl⟩ := takes_of_arguments h
  refine ⟨items, hsplits, fun items' hitems' => hsplits.unique hitems', ?_,
    settled_of_takes hstart htakes⟩
  rw [htakes.paths, (start_get hstart).2, List.nil_append]

/-- Arguments that give one setting in three ways, and another only in the environment. Values look
like flags or have equals signs in them. -/
def mixedArguments : List Text :=
  ["-q", "--python=3.9", "-p", "--lint", "-v", "3.10", "-",
    "--archive-path=a=b", "--quiet=no", "a.py"]

/-- An environment with an empty variable. -/
def mixedEnvironment : Environment :=
  [("POSONLY_VERSION", "3.8"), ("POSONLY_ENCODING", ""), ("POSONLY_LINESEP", "CR")]

/-- What these arguments fall into. -/
def mixedItems : List Item :=
  [.switch .quiet "-q", .inline .python "--python" "3.9", .apart .archivePath "-p" "--lint",
    .apart .python "-v" "3.10", .path "-", .inline .archivePath "--archive-path" "a=b",
    .switch .quiet "--quiet=no", .path "a.py"]

/-- What they ask for. -/
def mixedOptions : RunOptions where
  paths := ["-", "a.py"]
  quiet := true
  archive := true
  archivePath := "/w/a=b"
  encoding := .utf8
  concurrency := none
  dryRun := false
  failFast := false
  values := { version := some "3.10", lineSeparator := some "\r" }

theorem mixed_evaluated :
    (read mixedArguments mixedEnvironment "/w").toOption = some (.run mixedOptions) ∧
      mixedArguments = mixedItems.flatMap Item.arguments ∧
      ∀ i ∈ mixedItems, Item.first? i.arguments = some (i, []) := by
  decide +kernel

theorem read_precedence_mixed :
    read mixedArguments mixedEnvironment "/w" = .ok (.run mixedOptions) ∧
    Splits mixedArguments mixedItems ∧
    (∀ s ∈ settings "/w", s.Settled mixedEnvironment mixedItems mixedOptions) ∧
    read mixedArguments mixedEnvironment "/w" =
      read ("-q" :: "--python" :: "3.9" :: mixedArguments.drop 2) mixedEnvironment "/w" := by
  obtain ⟨hrun, harguments, hfirst⟩ := mixed_evaluated
  have hrun : read mixedArguments mixedEnvironment "/w" = .ok (.run mixedOptions) := by
    cases hread : read mixedArguments mixedEnvironment "/w" with
    | error e => rw [hread] at hrun; cases hrun
    | ok c => rw [hread] at hrun; cases hrun; rfl
  have hspelled : ∀ i ∈ mixedItems, i.Spelled :=
    fun i hi => (Item.spelled_of_first? (hfirst i hi)).1
  have hsplits : Splits mixedArguments mixedItems := ⟨harguments, hspelled⟩
  obtain ⟨hwins, hrespelled⟩ := read_precedence mixedArguments mixedEnvironment "/w"
  obtain ⟨items, hitems, hunique, _, hsettled⟩ := hwins mixedOptions hrun
  obtain rfl := hunique mixedItems hsplits
  refine ⟨hrun, hsplits, hsettled, ?_⟩
  have hquiet : (Item.switch .quiet "-q").Spelled := hspelled _ (List.mem_cons_self ..)
  have hpython := hspelled (.inline .python "--python" "3.9") (by decide)
  exact hrespelled [.switch .quiet "-q"] .python "--python" "3.9" (mixedArguments.drop 2)
    (by simpa using hquiet) hpython.1 hpython.2

end Posonly.CommandLine
