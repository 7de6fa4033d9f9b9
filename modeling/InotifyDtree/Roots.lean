import InotifyDtree.Fs

set_option autoImplicit false

/- The root directories named on the command line: `rootDirPaths`, where a zapped entry
is NULL, the `stat` identities taken at startup, and the count `ignoreRootDirs` of
entries zapped so far. -/
namespace InotifyDtree

structure Roots where
  rootDirPaths : List (Option Path)
  rootDirStat : List Ino
  ignoreRootDirs : Nat
deriving DecidableEq, Repr

def Roots.numRootDirs (roots : Roots) : Nat := roots.rootDirPaths.length

/-- `copyRootDirPaths(argv)`: every argument must name a directory, and no two may name
the same one. -/
def copyRootDirPaths (fs : Fs) (argv : List Path) : Except Stop Roots := do
  let stats ← argv.mapM fun p =>
    match if p.length < pathMax then fs.lookup p else none with
    | some dir => pure dir.ino
    | none => throw (.exit exitFailure "lstat() failed")
  if stats.Nodup then pure ⟨argv.map some, stats, 0⟩
  else throw (.exit exitFailure "Duplicate filesystem objects")

/-- The index of the first non-NULL entry equal to `path`. -/
def findRootDirPath (rootDirPaths : List (Option Path)) (path : Path) : Option Nat :=
  rootDirPaths.findIdx? (· == some path)

def isRootDirPath (roots : Roots) (path : Path) : Bool :=
  (findRootDirPath roots.rootDirPaths path).isSome

def zapRootDirPath (roots : Roots) (path : Path) : Except Stop Roots :=
  match findRootDirPath roots.rootDirPaths path with
  | none => .error (.exit exitFailure "zapRootDirPath(): path not found!")
  | some j =>
    let zapped : Roots := { roots with
      rootDirPaths := roots.rootDirPaths.set j none
      ignoreRootDirs := roots.ignoreRootDirs + 1 }
    if zapped.ignoreRootDirs = zapped.numRootDirs then
      .error (.exit exitSuccess "No more root paths left to monitor; bye!")
    else .ok zapped

end InotifyDtree
