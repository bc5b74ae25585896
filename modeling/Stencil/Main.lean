import Stencil.CommandLine.Run

/-!
# The program

The outer layer of the command line: it takes the files below the working directory, and those at
the paths outside of it that the arguments name, and writes what the run leaves.
-/

namespace Stencil

/-- The files at and below an entry, which is at a place. Folders behind links are left out. -/
partial def gather (entry : IO.FS.DirEntry) (place : List String) : IO Disk := do
  match ← entry.path.readDir.toBaseIO with
  | .ok entries =>
    entries.foldlM
      (fun disk inner => do
        let linked := (← inner.path.symlinkMetadata).type == .symlink
        if linked && (← inner.path.isDir) then return disk
        else
          let below ← gather inner (place ++ [inner.fileName])
          return ⟨below.files ++ disk.files, below.folders ++ disk.folders⟩)
      ⟨[], [place]⟩
  | .error _ =>
    match ← (IO.FS.readBinFile entry.path).toBaseIO with
    | .ok content => return ⟨[(place, content)], []⟩
    | .error _ => return ⟨[], []⟩

/-- The files that an invocation can need. -/
def gatherFor (arguments : List String) : IO Disk := do
  let here ← IO.currentDir
  let named := ((CommandLine.parse? arguments).map CommandLine.pathsOf).getD []
  let outside := named.filter fun path => (Path.place path).head?.any ["/", ".."].contains
  outside.foldlM
    (fun disk path => do
      let more ← gather ⟨here, path⟩ (Path.place path)
      return ⟨disk.files ++ more.files, disk.folders ++ more.folders⟩)
    (← gather ⟨here, "."⟩ [])

/-- How the program is called. -/
def usage : String :=
  "leaf-check [-v] [--config FILE] check [PATH]\n" ++
  "leaf-check [-v] [--config FILE] render FILE [-c FILE] [--strict]\n"

end Stencil

/-- Runs the command that the arguments name. -/
def main (arguments : List String) : IO UInt32 := do
  match Stencil.CommandLine.run (← Stencil.gatherFor arguments) arguments with
  | none =>
    IO.eprint Stencil.usage
    return 2
  | some outcome =>
    IO.print outcome.output
    IO.eprint outcome.errors
    return outcome.code.toUInt32
