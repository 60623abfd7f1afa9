import ClassLang.Diagnostic
import ClassLang.Source.Path

/-!
# Modules in files

A module imported as `a.b` lives in the file `a/b.<extension>` under one of the import roots. The
files stand in a `FileTree`, a finite picture of a directory: `FileTree.locate?` finds the file of
a module and `FileTree.load` reads it.
-/

namespace ClassLang

/-- A directory with everything below it. Entries are filed under their names from the top;
directories have no content. -/
structure FileTree where
  entries : List (List String × Option ByteArray)

namespace FileTree

/-- A directory that holds the given files and directories, and the directories on their way. -/
def ofList (entries : List (String × Option ByteArray)) : FileTree :=
  let listed := entries.map fun (path, content) =>
    (SourcePath.components ⟨path⟩, content)
  let parents := listed.flatMap fun (names, _) =>
    (List.range names.length).map fun length => (names.take length, none)
  ⟨([], none) :: listed ++ parents⟩

/-- The entry at the given names from the top: nothing, a directory, or a file. -/
def entryAt? (t : FileTree) (names : List String) : Option (Option ByteArray) :=
  t.entries.lookup names

/-- Whether a directory stands at the given names. -/
def isDirectory (t : FileTree) (names : List String) : Bool :=
  match t.entryAt? names with
  | some none => true
  | _ => false

/-- Walk down from a directory, name by name; `..` goes back up. Every name but the last must be
that of a directory. -/
def walk (t : FileTree) : List String → List String → Option (List String)
  | here, [] => some here
  | here, name :: rest =>
    if !t.isDirectory here then none
    else if name == "." then t.walk here rest
    else if name == ".." then
      if here.isEmpty then none else t.walk here.dropLast rest
    else t.walk (here ++ [name]) rest

/-- The content of the file that a relative path leads to. -/
def file? (t : FileTree) (path : SourcePath) : Option ByteArray :=
  if path.isAbsolute then none
  else do
    let names ← t.walk [] path.components
    (← t.entryAt? names)

/-- The path of the module imported as `segments`: the first root that has its file. -/
def locate? (t : FileTree) (roots : List SourcePath) (extension : String)
    (segments : List String) : Option SourcePath :=
  roots.findSome? fun root =>
    let path := (segments.foldl SourcePath.join root).withExtension extension
    if (t.file? path).isSome then some path else none

/-- The text of the module imported as `segments`. A file that is missing, or that is not text,
cannot be imported. -/
def load (t : FileTree) (roots : List SourcePath) (extension : String)
    (segments : List String) : Except CompileError String :=
  match ((t.locate? roots extension segments).bind t.file?).bind String.fromUTF8? with
  | some source => .ok source
  | none => .error (.importNotFound (".".intercalate segments))

end FileTree

end ClassLang
