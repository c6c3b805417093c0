import StoryAtlas.Text.Trim

/-!
# Paths

A path is a list of names below a root. Empty names and single dots say nothing and are left out.
Two slashes in front are a root of their own; one, or three and more, are the ordinary one.
-/

namespace StoryAtlas

structure FilePath where
  root : String := ""
  names : List String := []
deriving DecidableEq, Repr

namespace FilePath

def rootOf : List Char → String
  | '/' :: '/' :: '/' :: _ => "/"
  | '/' :: '/' :: _ => "//"
  | '/' :: _ => "/"
  | _ => ""

def ofText (text : String) : FilePath where
  root := rootOf text.toList
  names := ((Text.splitAtChar '/' text.toList).map String.ofList).filter fun name =>
    name != "" && name != "."

def text (path : FilePath) : String :=
  let shown := path.root ++ Text.join "/" path.names
  if shown.isEmpty then "." else shown

def parent (path : FilePath) : FilePath := { path with names := path.names.dropLast }

end FilePath

end StoryAtlas
