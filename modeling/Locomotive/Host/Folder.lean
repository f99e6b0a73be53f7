import Locomotive.Host
import Locomotive.Text

/-!
# A host in memory

A folder with some files, and what has been shown so far. Other files and folders do not
exist. A name is followed step by step from the folder, or from the root.

* `Folder.locate`: what a path leads to.
* `Folder.host`: the operations of a system on a folder.
-/

namespace Locomotive

/-- A folder in memory. -/
structure Folder where
  /-- The names of the folders from the root to this one. -/
  place : List (List Char) := []
  /-- The files: the names from this folder to it, and its text. -/
  files : List (List (List Char) × String) := []
  /-- What has been shown as a result. -/
  out : String := ""
  /-- What has been shown as a message. -/
  err : String := ""

namespace Folder

/-- The names lead to a file. -/
def text? (f : Folder) (names : List (List Char)) : Option String := f.files.lookup names

/-- The names lead to a folder: to this one, or to one that holds a file. -/
def isFolder (f : Folder) (names : List (List Char)) : Bool :=
  names.isEmpty || f.files.any fun e => names.length < e.1.length && names.isPrefixOf e.1

/-- Follows names from a folder inside this one; the last name may lead to nothing. -/
def follow (f : Folder) (here : List (List Char)) :
    List (List Char) → Except FileError (List (List Char))
  | [] => .ok here
  | name :: rest =>
    if !f.isFolder here then
      .error (if (f.text? here).isSome then .notDirectory else .missing)
    else if name = [] ∨ name = ['.'] then f.follow here rest
    else if name = ['.', '.'] then
      if here.isEmpty then .error .missing else f.follow here.dropLast rest
    else f.follow (here ++ [name]) rest

/-- The names from this folder to what a path leads to. -/
def locate (f : Folder) (path : String) : Except FileError (List (List Char)) :=
  let names := Text.splitAt '/' path.toList
  if path.toList.head? = some '/' then
    let fromRoot := names.filter fun n => !n.isEmpty
    if f.place.isPrefixOf fromRoot then f.follow [] (fromRoot.drop f.place.length)
    else .error .missing
  else if path = "" then .error .missing
  else f.follow [] names

/-- The text of a file. -/
def read (f : Folder) (path : String) : Except FileError String :=
  match f.locate path with
  | .error e => .error e
  | .ok names =>
    match f.text? names with
    | some text => .ok text
    | none => .error (if f.isFolder names then .isDirectory else .missing)

/-- The folder with a file of the given text. -/
def write (f : Folder) (path text : String) : Except FileError Folder :=
  match f.locate path with
  | .error e => .error e
  | .ok names =>
    if f.isFolder names || path.toList.getLast? = some '/' then .error .isDirectory
    else .ok { f with files := f.files.filter (fun e => e.1 != names) ++ [(names, text)] }

/-- The operations of a system on a folder. -/
def host : Host (StateM Folder) where
  read path := do pure ((← get).read path)
  write path text := do
    match (← get).write path text with
    | .ok f => do
      set f
      pure (.ok ())
    | .error e => pure (.error e)
  out s := modify fun f => { f with out := f.out ++ s }
  err s := modify fun f => { f with err := f.err ++ s }

end Folder

end Locomotive
