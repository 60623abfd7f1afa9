import ClassLang.Source.Path

/-!
# Options

How a session finds imports and what it reports. The defaults can be changed by the settings
`TALON_DEBUG` and `TALON_PATH`.
-/

namespace ClassLang

/-- The configuration of a compilation. -/
structure CompileOptions where
  /-- The name of the generated module. -/
  moduleName : String := "main"
  /-- The roots that are searched for imports, in order. -/
  importPaths : List SourcePath := [⟨"lib"⟩]
  /-- The extension of source files. -/
  extension : String := "tln"
  /-- Whether the generated code is shown before it is checked. -/
  dumpCode : Bool := false
deriving DecidableEq, Repr

namespace CompileOptions

/-- The defaults changed by the settings that `lookup` knows. Any text but the empty one in
`TALON_DEBUG` shows the generated code; `TALON_PATH` lists the import roots with colons between
them, of which empty ones are left out. -/
def ofLookup (lookup : String → Option String) : CompileOptions :=
  let defaults : CompileOptions := {}
  let roots := (((lookup "TALON_PATH").getD "").splitOn ":").filter (· ≠ "")
  { defaults with
    dumpCode := (lookup "TALON_DEBUG").any (· ≠ "")
    importPaths := if roots.isEmpty then defaults.importPaths else roots.map .mk }

/-- Name the generated module. -/
def withModuleName (o : CompileOptions) (name : String) : CompileOptions :=
  { o with moduleName := name }

/-- Add an import root after the others. -/
def withImportPath (o : CompileOptions) (path : String) : CompileOptions :=
  { o with importPaths := o.importPaths ++ [⟨path⟩] }

/-- Whether two configurations mean the same; import roots are compared as paths. -/
def same (a b : CompileOptions) : Bool :=
  a.moduleName == b.moduleName
    && a.importPaths.length == b.importPaths.length
    && (a.importPaths.zip b.importPaths).all (fun (p, q) => p.same q)
    && a.extension == b.extension
    && a.dumpCode == b.dumpCode

end CompileOptions

end ClassLang
