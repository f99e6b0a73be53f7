import Locomotive.Text

/-!
# File paths

Paths are names with slashes between them; one that starts with a slash is absolute.
A clean path has no empty names, no `.`, and no `..` that could be resolved.

* `clean`, `join`, `absolute`: clean paths from parts of them.
* `directory`, `base`, `dropExtension`: the parts of a path.
* `sourcePaths`, `outputPath`: where a compiled file goes.
-/

namespace Locomotive.Path

/-- The path starts at the root. -/
def isAbsolute (p : List Char) : Bool := p.head? == some '/'

/-- The name that leads to the directory above. -/
def up : List Char := ['.', '.']

/-- The names of a path, the last one first, with one more name after them. At the root
there is no way up. -/
def push (rooted : Bool) (names : List (List Char)) (name : List Char) : List (List Char) :=
  if name = [] ∨ name = ['.'] then names
  else if name = up then
    match names with
    | [] => if rooted then [] else [up]
    | last :: rest => if last = up then up :: names else rest
  else name :: names

/-- The path without names that lead nowhere. -/
def clean (p : List Char) : List Char :=
  let names := (Text.splitAt '/' p).foldl (push (isAbsolute p)) []
  let body := List.intercalate ['/'] names.reverse
  if isAbsolute p then '/' :: body
  else if body.isEmpty then ['.']
  else body

/-- A path inside another. -/
def join (p q : List Char) : List Char :=
  if p.isEmpty then (if q.isEmpty then [] else clean q) else clean (p ++ '/' :: q)

/-- The path as seen from the root, if it is meant from the working directory. -/
def absolute (workingDir p : List Char) : List Char :=
  if isAbsolute p then clean p else join workingDir p

/-- The directory of a path. -/
def directory (p : List Char) : List Char := clean (Text.dropEndWhile (· != '/') p)

/-- The last name of a path. -/
def base (p : List Char) : List Char :=
  let trimmed := Text.dropEndWhile (· == '/') p
  if p.isEmpty then ['.']
  else if trimmed.isEmpty then ['/']
  else (trimmed.reverse.takeWhile (· != '/')).reverse

/-- The path without the extension of its last name. -/
def dropExtension (p : List Char) : List Char :=
  match p.reverse.dropWhile fun c => c != '.' && c != '/' with
  | '.' :: rest => rest.reverse
  | _ => p

/-- The path of a source file as seen from the root, and the directory for its output,
which is meant from the directory of the source; an empty one stays empty. -/
def sourcePaths (workingDir source outDir : List Char) : List Char × List Char :=
  let full := absolute workingDir source
  (full,
    if !outDir.isEmpty && !isAbsolute outDir then join (directory full) outDir else outDir)

/-- The path of the output of a source file: next to it, or in the given directory. -/
def outputPath (source outDir : List Char) : List Char :=
  let stem := dropExtension source
  (if outDir.isEmpty then stem else join outDir (base stem)) ++ ['.', 'j', 's']

end Locomotive.Path
