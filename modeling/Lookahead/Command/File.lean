import Lookahead.Text.Quoted

/-!
# Files

A run reads one file.  What it reads is the bytes of the file, or the reason why there are none.

A path is shown and opened in its plain form: components that are empty or a single dot are
dropped, and a path without components is a dot.  A path that begins with a slash stays absolute;
exactly two slashes in front are kept, any other number counts as one.
-/

namespace Lookahead.Command

/-! ## 1. Paths -/

/-- The components of a path: what stands between the slashes. -/
def splitSlashes : List CodePoint → List (List CodePoint)
  | [] => [[]]
  | c :: cs =>
    if c = .ofChar '/' then [] :: splitSlashes cs
    else
      match splitSlashes cs with
      | [] => [[c]]
      | p :: ps => (c :: p) :: ps

/-- The components of a path in its plain form. -/
def pathComponents (path : Text) : List Text :=
  ((splitSlashes path.codes).map Text.mk).filter fun p => p ≠ "" ∧ p ≠ "."

/-- The slashes in front of a path in its plain form. -/
def pathRoot (path : Text) : Text :=
  match (path.codes.takeWhile (· = .ofChar '/')).length with
  | 0 => ""
  | 2 => "//"
  | _ => "/"

/-- A path in its plain form. -/
def plainPath (path : Text) : Text :=
  if pathRoot path = "" ∧ (pathComponents path).isEmpty then "."
  else pathRoot path ++ Text.join "/" (pathComponents path)

/-! ## 2. Faults -/

/-- Why a file cannot be read. -/
inductive ReadError where
  /-- There is no such file. -/
  | missing
  /-- The path leads to a directory. -/
  | directory
  /-- The path leads through something that is no directory. -/
  | throughFile
  /-- The file may not be read. -/
  | forbidden
  /-- The path, or a component of it, is too long. -/
  | tooLong
  /-- The path holds a null character or a surrogate, and no file can have it. -/
  | impossible
deriving DecidableEq, Repr

/-- The class, the number and the sentence of the fault, as reports name it.  A path that no file can
have is not reported. -/
def ReadError.describe? : ReadError → Option String
  | missing => some "FileNotFoundError [Errno 2] No such file or directory"
  | directory => some "IsADirectoryError [Errno 21] Is a directory"
  | throughFile => some "NotADirectoryError [Errno 20] Not a directory"
  | forbidden => some "PermissionError [Errno 13] Permission denied"
  | tooLong => some "OSError [Errno 36] File name too long"
  | impossible => none

end Lookahead.Command
