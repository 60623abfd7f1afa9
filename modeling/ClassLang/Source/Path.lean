/-!
# File paths

A path is the text a person wrote, and joining keeps that text. Two paths are the same if they have
the same components: repeated separators, a separator at the end and inner `.` do not count.
-/

namespace ClassLang

/-- A path as it is written, with `/` between its parts. -/
structure SourcePath where
  text : String
deriving DecidableEq, Repr

namespace SourcePath

/-- The parts between separators, empty ones included. -/
def pieces (p : SourcePath) : List String :=
  p.text.splitOn "/"

/-- Whether the path starts at the root of the file system. -/
def isAbsolute (p : SourcePath) : Bool :=
  p.text.startsWith "/"

/-- Whether the piece at a position counts as a component. A `.` counts in front only. -/
def counts (index : Nat) (piece : String) : Bool :=
  piece != "" && (piece != "." || index == 0)

/-- The components of a path without the root. -/
def components (p : SourcePath) : List String :=
  (p.pieces.zipIdx.filter fun (piece, index) => counts index piece).map (·.1)

/-- Whether two paths have the same components from the same start. -/
def same (p q : SourcePath) : Bool :=
  p.isAbsolute == q.isAbsolute && p.components == q.components

/-- Append a relative path, or start anew with an absolute one. -/
def join (p : SourcePath) (segment : String) : SourcePath :=
  if segment.startsWith "/" then ⟨segment⟩
  else if p.text == "" || p.text.endsWith "/" then ⟨p.text ++ segment⟩
  else ⟨p.text ++ "/" ++ segment⟩

/-- A file name without its extension: what stands before the last dot, unless nothing does. -/
def stem (name : String) : String :=
  match ".".intercalate (name.splitOn ".").dropLast with
  | "" => name
  | before => before

/-- Drop what does not count from the end of the pieces. -/
def trimEnd (pieces : List String) : List String :=
  ((pieces.zipIdx.reverse.dropWhile fun (piece, index) => !counts index piece).map (·.1)).reverse

/-- Replace the extension of the last component. An empty extension removes it, and a path that
does not end in a name stays as it is. -/
def withExtension (p : SourcePath) (extension : String) : SourcePath :=
  let kept := trimEnd p.pieces
  match kept.getLast? with
  | none => p
  | some name =>
    if name == ".." || name == "." then p
    else
      let bare := "/".intercalate (kept.dropLast ++ [stem name])
      ⟨if extension == "" then bare else bare ++ "." ++ extension⟩

/-- The text without leading separators and `.` components. -/
def relativeText (p : SourcePath) : String :=
  "/".intercalate (p.pieces.dropWhile fun piece => piece == "" || piece == ".")

end SourcePath

end ClassLang
