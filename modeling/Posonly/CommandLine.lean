import Posonly.Options.Environment
import Posonly.Options.Resolve
import Posonly.Path

/-!
# The command line

Arguments are flags, values of flags, and paths. A long flag may have its value behind an equals
sign. What the arguments do not say comes from the environment, and then from the defaults.
-/

namespace Posonly.CommandLine

def programVersion : Text := "0.1.0"

structure RunOptions where
  paths : List Text
  quiet : Bool
  archive : Bool
  archivePath : Text
  encoding : Encoding
  concurrency : Option Concurrency
  dryRun : Bool
  failFast : Bool
  values : OptionValues
deriving DecidableEq, Repr

inductive Command where
  | help
  | version
  | recover (archivePath : Text) (quiet : Bool)
  | run (options : RunOptions)
deriving DecidableEq, Repr

/-! ## Flags -/

inductive ValueFlag where
  | archivePath
  | recover
  | encoding
  | python
  | linesep
  | indentation
  | decorator
  | mangling
  | concurrency
deriving DecidableEq, Repr

inductive Switch where
  | help
  | version
  | quiet
  | noArchive
  | dismiss
  | noPep8
  | lint
  | dryRun
  | failFast
deriving DecidableEq, Repr

inductive Flag where
  | value (f : ValueFlag)
  | switch (s : Switch)
deriving DecidableEq, Repr

def flags : List (String × Flag) :=
  [("-h", .switch .help), ("--help", .switch .help),
    ("-V", .switch .version), ("--version", .switch .version),
    ("-q", .switch .quiet), ("--quiet", .switch .quiet),
    ("-n", .switch .noArchive), ("--no-archive", .switch .noArchive),
    ("-p", .value .archivePath), ("--archive-path", .value .archivePath),
    ("--recover", .value .recover),
    ("-c", .value .encoding), ("--encoding", .value .encoding),
    ("-v", .value .python), ("--python", .value .python),
    ("-s", .value .linesep), ("--linesep", .value .linesep),
    ("-t", .value .indentation), ("--indentation", .value .indentation),
    ("-d", .switch .dismiss), ("--dismiss", .switch .dismiss),
    ("--no-pep8", .switch .noPep8),
    ("-l", .switch .lint), ("--lint", .switch .lint),
    ("-r", .value .decorator), ("--decorator", .value .decorator),
    ("-m", .value .mangling), ("--mangling", .value .mangling),
    ("-j", .value .concurrency), ("--concurrency", .value .concurrency),
    ("--dry-run", .switch .dryRun),
    ("--fail-fast", .switch .failFast)]

def Flag.ofText? (t : Text) : Option Flag :=
  (flags.find? fun entry => Text.ofString entry.1 == t).map (·.2)

/-- An argument cut at its first equals sign, if it is a long flag that has one. -/
def cutArgument (arg : Text) : Text × Option Text :=
  if Text.startsWith arg "--" && arg.contains 0x3D then
    (arg.takeWhile (· != 0x3D), some ((arg.dropWhile (· != 0x3D)).drop 1))
  else (arg, none)

/-! ## Reading arguments -/

structure Reading where
  options : RunOptions
  recover : Option Text := none

inductive Step where
  | goOn (r : Reading)
  | done (c : Command)

def Reading.switch (r : Reading) (s : Switch) : Step :=
  let o := r.options
  match s with
  | .help => .done .help
  | .version => .done .version
  | .quiet => .goOn { r with options := { o with quiet := true } }
  | .noArchive => .goOn { r with options := { o with archive := false } }
  | .dismiss =>
    .goOn { r with options := { o with values := { o.values with dismiss := some true } } }
  | .noPep8 => .goOn { r with options := { o with values := { o.values with pep8 := some false } } }
  | .lint => .goOn { r with options := { o with values := { o.values with lint := some true } } }
  | .dryRun => .goOn { r with options := { o with dryRun := true } }
  | .failFast => .goOn { r with options := { o with failFast := true } }

def Reading.value (r : Reading) (cwd : Text) (f : ValueFlag) (value : Text) :
    Except OptionError Reading := do
  let o := r.options
  match f with
  | .archivePath => return { r with options := { o with archivePath := Path.resolve cwd value } }
  | .recover => return { r with recover := some (Path.resolve cwd value) }
  | .encoding => return { r with options := { o with encoding := ← readEncoding value } }
  | .concurrency =>
    return { r with options := { o with concurrency := some (← readConcurrency value) } }
  | .python =>
    let version := (← readVersion value).text
    return { r with options := { o with values := { o.values with version := some version } } }
  | .linesep =>
    let lineSeparator := (← readLineSeparator value).text
    return { r with options := { o with values := { o.values with
      lineSeparator := some lineSeparator } } }
  | .indentation =>
    let indentation ← readIndentation value
    return { r with options := { o with values := { o.values with
      indentation := some indentation } } }
  | .decorator =>
    let decorator ← readDecorator value
    return { r with options := { o with values := { o.values with decorator := some decorator } } }
  | .mangling =>
    let mangling := (← readManglePolicy value).text
    return { r with options := { o with values := { o.values with mangling := some mangling } } }

/-- Takes in an argument that is no flag: a path, unless it looks like a flag. -/
def Reading.path (r : Reading) (arg : Text) : Except OptionError Reading :=
  if Text.startsWith arg "-" && arg != "-" then .error ⟨arg, .unknownOption⟩
  else .ok { r with options := { r.options with paths := r.options.paths ++ [arg] } }

def Reading.finish (r : Reading) : Except OptionError Command :=
  match r.recover with
  | some archive => .ok (.recover archive r.options.quiet)
  | none =>
    if r.options.paths.isEmpty then .error ⟨"SOURCE", .noSources⟩ else .ok (.run r.options)

def Reading.arguments (r : Reading) (cwd : Text) : List Text → Except OptionError Command
  | [] => r.finish
  | arg :: rest =>
    let (flag, inline) := cutArgument arg
    match Flag.ofText? flag with
    | none => do (← r.path arg).arguments cwd rest
    | some (.switch s) =>
      match r.switch s with
      | .goOn r => r.arguments cwd rest
      | .done c => .ok c
    | some (.value f) =>
      match inline with
      | some value => do (← r.value cwd f value).arguments cwd rest
      | none =>
        match rest with
        | [] => .error ⟨flag, .missingValue⟩
        | value :: rest => do (← r.value cwd f value).arguments cwd rest

def defaultArchive : Text := "archive"

def Reading.start (env : Environment) (cwd : Text) : Except OptionError Reading := do
  let settings ← env.runSettings
  let archive ← env.read "POSONLY_ARCHIVE" (readBoolean "POSONLY_ARCHIVE")
  let values ← env.optionValues
  return {
    options := {
      paths := []
      quiet := settings.quiet
      archive := archive.getD true
      archivePath := Path.join cwd defaultArchive
      encoding := settings.encoding
      concurrency := settings.concurrency
      dryRun := false
      failFast := false
      values } }

def read (args : List Text) (env : Environment) (cwd : Text) : Except OptionError Command := do
  (← Reading.start env cwd).arguments cwd args

/-! ## Help -/

structure HelpSection where
  title : Text
  lines : List Text

def helpSections (cwd : Text) : List HelpSection :=
  [⟨"Usage:",
      ["  posonly [options] <python source files and folders...>",
        "  posonly --recover <archive-path>"]⟩,
    ⟨"Options:",
      ["  -h, --help               Show this help",
        "  -V, --version            Show the version",
        "  -q, --quiet              Run in quiet mode"]⟩,
    ⟨"Archive options:",
      ["  -n, --no-archive         Do not archive original files",
        "  -p, --archive-path PATH  Path to archive original files (" ++
          Path.join cwd defaultArchive ++ ")",
        "      --recover PATH       Restore the original files archived in PATH"]⟩,
    ⟨"Convert options:",
      ["  -c, --encoding CODING    Encoding to open source files (utf8)",
        "  -v, --python VERSION     Convert against Python version (" ++ defaultVersion.text ++ ")",
        "  -s, --linesep SEP        Line separator of generated code: LF, CRLF or CR (detected)",
        "  -t, --indentation IND    Indentation of generated code: a width, " ++
          "\"tab\", or whitespace (detected)",
        "  -d, --dismiss            Dismiss runtime checks for positional-only parameters",
        "      --no-pep8            Do not add PEP 8 blank lines around the decorator definition",
        "  -l, --lint               Verify converted code",
        "  -r, --decorator NAME     Name of the runtime-check decorator (" ++ defaultDecorator ++
          ")",
        "  -m, --mangling POLICY    Private name mangling: all, functions or none (all)",
        "  -j, --concurrency N      Files converted at once (available parallelism)",
        "      --dry-run            Report edits without writing files",
        "      --fail-fast          Stop starting files after the first failure"]⟩,
    ⟨"Environment:",
      ["  POSONLY_QUIET, POSONLY_ENCODING, POSONLY_VERSION, POSONLY_LINESEP,",
        "  POSONLY_INDENTATION, POSONLY_DISMISS, POSONLY_PEP8, POSONLY_LINT,",
        "  POSONLY_DECORATOR, POSONLY_MANGLING, POSONLY_ARCHIVE, POSONLY_CONCURRENCY"]⟩]

/-- The help text for a working directory: what the program is, then the sections, each after a
blank line. -/
def help (cwd : Text) : Text :=
  let head : Text :=
    "posonly " ++ programVersion ++ ": backport compiler for Python positional-only parameters"
  let body := (helpSections cwd).flatMap fun s => [] :: s.title :: s.lines
  Text.joined "\n" ([] :: head :: body ++ [[]])

end Posonly.CommandLine
