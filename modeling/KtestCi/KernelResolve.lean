import KtestCi.KernelFleet

/-!
# The kernel that a test runs on

`resolve_kernel_name` looks a kernel up by `<distro>/<release>[/<arch>]` in the store of the
machine, or where there is none in that of the system, and takes the newest version. Under
`upstream` of a store that was deployed it finds an entry that is complete, or nothing.
-/

namespace KtestCi
namespace KernelStore

open CrashScripts FileTrees

inductive Root where
  | home | system
  deriving DecidableEq, Repr

inductive ResolveError where
  | noStore
  | badName (name : Text)
  | noPackage (sourceDir : Path) (available : List Path)
  | noVersions (sourceDir : Path)
  deriving DecidableEq, Repr

inductive Resolution where
  | literal (path : Text)
  | found (root : Root) (path : Path)
  | fails (e : ResolveError)
  deriving DecidableEq, Repr

/-- `find "$kernels_root" -maxdepth 3 -mindepth 3 -type d`. -/
def available (t : Store) : List Path := t.paths.filter (fun p => p.length == 3 && t.node p == some .dir)

end KernelStore
end KtestCi
