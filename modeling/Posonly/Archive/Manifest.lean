import Posonly.Json
import Posonly.Text.Blank

/-!
# Manifests

A manifest is a text of entries, each a JSON object on a line of its own. An entry says which file
was archived, and under which name. Blank lines of a manifest mean nothing.
-/

namespace Posonly

structure ArchiveEntry where
  /-- The absolute path of the file. -/
  file : Text
  archived : Text
  storedAt : Text
deriving DecidableEq, Repr

namespace ArchiveEntry

def json (e : ArchiveEntry) : Json :=
  .object [("original", .string e.file), ("archived", .string e.archived),
    ("storedAt", .string e.storedAt)]

def line (e : ArchiveEntry) : Text := e.json.write ++ "\n"

def ofJson? (j : Json) : Option ArchiveEntry := do
  let file ← (← j.field? "original").string?
  let archived ← (← j.field? "archived").string?
  let storedAt ← (← j.field? "storedAt").string?
  return ⟨file, archived, storedAt⟩

end ArchiveEntry

inductive ManifestFault where
  | notJson
  /-- A line is no entry; lines count from one, blank ones left out. -/
  | malformed (line : Nat)
deriving DecidableEq, Repr

namespace Manifest

/-- The lines of a manifest that are not blank. -/
def entryLines (content : Text) : List Text :=
  (content.splitOn Text.lineFeed).filter fun line => !line.trim.isEmpty

/-- Reads lines as entries, the first of which has a number. -/
def readLines (number : Nat) : List Text → Except ManifestFault (List ArchiveEntry)
  | [] => .ok []
  | line :: rest =>
    match Json.parse? line with
    | none => .error .notJson
    | some value =>
      match ArchiveEntry.ofJson? value with
      | none => .error (.malformed number)
      | some entry => do return entry :: (← readLines (number + 1) rest)

def read (content : Text) : Except ManifestFault (List ArchiveEntry) :=
  readLines 1 (entryLines content)

/-- The first entry of each file, in order. -/
def earliest (entries : List ArchiveEntry) : List ArchiveEntry :=
  entries.foldl (fun found e =>
    if found.any fun f => f.file == e.file then found else found ++ [e]) []

end Manifest

end Posonly
