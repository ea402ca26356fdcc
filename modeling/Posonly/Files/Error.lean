import Posonly.Text.Quoted

/-!
# File errors

A request to the file system fails for one of a few causes. The error says what was asked for, and
of which paths, so that its message can.
-/

namespace Posonly

inductive FileCause where
  | noEntry
  /-- A path leads through something that is no directory. -/
  | notDirectory
  /-- A directory stands where a file is wanted. -/
  | isDirectory
  /-- Something stands already where a directory is to be made. -/
  | alreadyExists
  | nameTooLong
  | tooManyLinks
  | zeroInPath
  /-- Anything else, by its code and wording. -/
  | other (name words : Text)
deriving DecidableEq, Repr, Inhabited

namespace FileCause

def code : FileCause → Text
  | noEntry => "ENOENT"
  | notDirectory => "ENOTDIR"
  | isDirectory => "EISDIR"
  | alreadyExists => "EEXIST"
  | nameTooLong => "ENAMETOOLONG"
  | tooManyLinks => "ELOOP"
  | zeroInPath => "ERR_INVALID_ARG_VALUE"
  | other name _ => name

def wording : FileCause → Text
  | noEntry => "no such file or directory"
  | notDirectory => "not a directory"
  | isDirectory => "illegal operation on a directory"
  | alreadyExists => "file already exists"
  | nameTooLong => "name too long"
  | tooManyLinks => "too many symbolic links encountered"
  | zeroInPath => "must be a string, Uint8Array, or URL without null bytes."
  | other _ words => words

end FileCause

structure FileError where
  cause : FileCause
  request : Text
  paths : List Text
deriving DecidableEq, Repr, Inhabited

namespace FileError

/-- A unit of a path as it is shown in single quotes. -/
def shownUnit (u : UInt16) : Text :=
  if u == 0x27 || u == 0x5C then [0x5C, u]
  else if u == 0x0A then "\\n"
  else if u == 0x09 then "\\t"
  else if u == 0x0D then "\\r"
  else if u < 0x20 then "\\x" ++ [Text.hexDigit (u.toNat / 0x10), Text.hexDigit (u.toNat % 0x10)]
  else [u]

def message (e : FileError) : Text :=
  match e.cause with
  | .zeroInPath =>
    let shown := (e.paths.headD []).flatMap shownUnit
    "The argument 'path' " ++ e.cause.wording ++ " Received '" ++ shown ++ "'"
  | cause =>
    let places : Text := match e.paths with
      | [] => []
      | paths => " " ++ Text.joined " -> " (paths.map fun p => "'" ++ p ++ "'")
    cause.code ++ ": " ++ cause.wording ++ ", " ++ e.request ++ places

end FileError

end Posonly
