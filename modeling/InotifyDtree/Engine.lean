import InotifyDtree.Cache
import InotifyDtree.Kernel
import InotifyDtree.Roots

set_option autoImplicit false

/- The program's state and the routines that combine the cache with the kernel: the
walk callback `traverseTree` and its drivers, `zapSubtree`, and `reinitialize`. A walk
runs against the tree as it is when the walk starts. -/
namespace InotifyDtree

/-- The command-line options the modelled code reads: `-a`, `-b`, and whether `-l` opened
a log file, so that `logfp` is not NULL. -/
structure Config where
  abortOnCacheProblem : Bool
  readBufferSize : Int
  logFile : Bool

/-- The program's globals together with the kernel it talks to. -/
structure World where
  wlCache : List Watch
  roots : Roots
  kernel : Kernel

/-- `createStopFileAndAbort()`: after the stop file, `dumpCacheToLog()` writes the cache
with `fprintf(logfp, ...)`, which is undefined behaviour when no log file was opened;
otherwise `abort()`. -/
def createStopFileAndAbort (cfg : Config) : Stop :=
  if cfg.logFile then .abort else .nullLogfp

/-- A miss is reported as -1, or aborts the program under `-a`. -/
def findWatchChecked (cfg : Config) (wlCache : List Watch) (wd : Int) : Except Stop Int :=
  let slot := findWatch wlCache wd
  if 0 ≤ slot then .ok slot
  else if cfg.abortOnCacheProblem then .error (createStopFileAndAbort cfg)
  else .ok (-1)

/-- The events `traverseTree` asks for, with `IN_MOVE_SELF` when the pathname is a
root's. -/
def traverseFlags (roots : Roots) (pathname : Path) : UInt32 :=
  let flags := inCreate ||| inMovedFrom ||| inMovedTo ||| inDeleteSelf
  if isRootDirPath roots pathname then flags ||| inMoveSelf else flags

/-- The `nftw` callback: watch the directory and cache it unless its descriptor is
cached already. -/
def traverseTree (w : World) (pathname : Path) : Except Stop World :=
  match w.kernel.inotifyAddWatch pathname (traverseFlags w.roots pathname ||| inOnlydir) with
  | .error .enoent => .ok w
  | .error _ => .error (.exit exitFailure "inotify_add_watch")
  | .ok (kernel, wd) =>
    if 0 ≤ findWatch w.wlCache wd then .ok { w with kernel := kernel }
    else .ok { w with kernel := kernel, wlCache := (addWatchToCache w.wlCache wd pathname).1 }

def watchDir (w : World) (pathname : Path) : Except Stop World :=
  (nftw w.kernel.fs pathname).foldlM (fun w entry => traverseTree w entry.1) w

def watchSubtree (w : World) (path : Path) : Except Stop World := watchDir w path

/-- The loop of `zapSubtree` from one slot on, with the count so far; an
`inotify_rm_watch` failure sets the count to -1 and leaves the remaining slots. -/
def zapSlots (pn : Path) : List Watch → Kernel → Int → List Watch × Kernel × Int
  | [], k, cnt => ([], k, cnt)
  | slot :: rest, k, cnt =>
    if 0 ≤ slot.wd && inSubtree pn slot.path then
      match k.inotifyRmWatch slot.wd with
      | none => (slot :: rest, k, -1)
      | some k' =>
        let (rest', k'', cnt') := zapSlots pn rest k' (cnt + 1)
        (emptySlot :: rest', k'', cnt')
    else
      let (rest', k', cnt') := zapSlots pn rest k cnt
      (slot :: rest', k', cnt')

/-- Remove the watches and cache entries for `path` and everything below it. The scan
matches against a copy of `path`, which may point into the cache. -/
def zapSubtree (w : World) (path : Path) : World × Int :=
  let (wlCache, kernel, cnt) := zapSlots path w.wlCache w.kernel 0
  ({ w with wlCache := wlCache, kernel := kernel }, cnt)

/-- Close the descriptor, open a new instance, empty the cache and walk every root that
has not been zapped. -/
def reinitialize (w : World) : Except Stop World :=
  let fresh : World := { w with kernel := w.kernel.inotifyInit, wlCache := [] }
  w.roots.rootDirPaths.foldlM (fun w root =>
    match root with
    | some p => watchSubtree w p
    | none => pure w) fresh

end InotifyDtree

namespace InotifyDtree

/-- A `foldlM` whose every step keeps `P` keeps it. -/
theorem foldlM_invariant {α β : Type} (P : β → Prop) (f : β → α → Except Stop β)
    (step : ∀ b a b', P b → f b a = .ok b' → P b') :
    ∀ (xs : List α) (b b' : β), P b → xs.foldlM f b = .ok b' → P b'
  | [], _, _, holds, done => by cases done; exact holds
  | x :: rest, b, b', holds, done => by
    rw [List.foldlM_cons] at done
    cases stepped : f b x with
    | error e => rw [stepped] at done; cases done
    | ok b₁ => rw [stepped] at done; exact foldlM_invariant P f step rest b₁ b' (step b x b₁ holds stepped) done

/-- A `foldlM` stops only as one of its steps does. -/
theorem foldlM_error {α β : Type} (Q : Stop → Prop) (f : β → α → Except Stop β)
    (step : ∀ b a e, f b a = .error e → Q e) :
    ∀ (xs : List α) (b : β) (e : Stop), xs.foldlM f b = .error e → Q e
  | [], _, _, stopped => by cases stopped
  | x :: rest, b, e, stopped => by
    rw [List.foldlM_cons] at stopped
    cases stepped : f b x with
    | error e' => rw [stepped] at stopped; cases stopped; exact step b x _ stepped
    | ok b₁ => rw [stepped] at stopped; exact foldlM_error Q f step rest b₁ e stopped

/-- A `foldlM` that succeeds ran each of its steps successfully, from a state that
satisfies every invariant `P` of the steps. -/
theorem foldlM_ok_mem {α β : Type} (P : β → Prop) (f : β → α → Except Stop β)
    (step : ∀ b a b', P b → f b a = .ok b' → P b') :
    ∀ (xs : List α) (b b' : β), P b → xs.foldlM f b = .ok b' → ∀ x ∈ xs, ∃ c c', P c ∧ f c x = .ok c'
  | [], _, _, _, _, _, member => by cases member
  | x :: rest, b, b', holds, done, y, member => by
    rw [List.foldlM_cons] at done
    cases stepped : f b x with
    | error e => rw [stepped] at done; cases done
    | ok b₁ =>
      rw [stepped] at done
      rcases List.mem_cons.mp member with rfl | later
      · exact ⟨b, b₁, holds, stepped⟩
      · exact foldlM_ok_mem P f step rest b₁ b' (step b x b₁ holds stepped) done y later

/-- The walks stop the program only when `inotify_add_watch` fails other than with
`ENOENT`. -/
theorem traverseTree_error {w : World} {pathname : Path} {e : Stop}
    (stopped : traverseTree w pathname = .error e) : e = .exit exitFailure "inotify_add_watch" := by
  unfold traverseTree at stopped
  split at stopped
  · cases stopped
  · cases stopped; rfl
  · split at stopped <;> cases stopped

theorem traverseTree_roots {w w' : World} {pathname : Path} (done : traverseTree w pathname = .ok w') :
    w'.roots = w.roots := by
  unfold traverseTree at done
  split at done
  · cases done; rfl
  · cases done
  · split at done <;> (cases done; rfl)

/-- A callback of the walk keeps the tree and the instance. -/
theorem traverseTree_kernel {w w' : World} {pathname : Path} (done : traverseTree w pathname = .ok w') :
    w'.kernel.fs = w.kernel.fs ∧ w'.kernel.inotify.generation = w.kernel.inotify.generation := by
  unfold traverseTree at done
  split at done
  · cases done; exact ⟨rfl, rfl⟩
  · cases done
  · rename_i added
    split at done <;> (cases done; exact Kernel.inotifyAddWatch_keeps added)

/-- A pathname of `PATH_MAX` characters or more: `ENAMETOOLONG`, and the program exits. -/
theorem traverseTree_of_long (w : World) {pathname : Path} (long : pathMax ≤ pathname.length) :
    traverseTree w pathname = .error (.exit exitFailure "inotify_add_watch") := by
  simp [traverseTree, Kernel.inotifyAddWatch, long]

theorem watchSubtree_kernel {w w' : World} {path : Path} (done : watchSubtree w path = .ok w') :
    w'.kernel.fs = w.kernel.fs ∧ w'.kernel.inotify.generation = w.kernel.inotify.generation :=
  foldlM_invariant (fun v => v.kernel.fs = w.kernel.fs ∧ v.kernel.inotify.generation = w.kernel.inotify.generation) _
    (fun _ (_ : Path × Ino) _ same stepped =>
      ⟨(traverseTree_kernel stepped).1.trans same.1, (traverseTree_kernel stepped).2.trans same.2⟩)
    _ _ _ ⟨rfl, rfl⟩ done

theorem watchSubtree_error {w : World} {path : Path} {e : Stop} (stopped : watchSubtree w path = .error e) :
    e = .exit exitFailure "inotify_add_watch" :=
  foldlM_error (· = .exit exitFailure "inotify_add_watch") _
    (fun _ (_ : Path × Ino) _ => traverseTree_error) _ _ _ stopped

theorem watchSubtree_roots {w w' : World} {path : Path} (done : watchSubtree w path = .ok w') :
    w'.roots = w.roots :=
  foldlM_invariant (fun v => v.roots = w.roots) _
    (fun _ (_ : Path × Ino) _ same stepped => (traverseTree_roots stepped).trans same) _ _ _ rfl done

theorem reinitialize_error {w : World} {e : Stop} (stopped : reinitialize w = .error e) :
    e = .exit exitFailure "inotify_add_watch" :=
  foldlM_error (· = .exit exitFailure "inotify_add_watch") _ (fun _ root _ stepped => by
    cases root with
    | some p => exact watchSubtree_error stepped
    | none => cases stepped) _ _ _ stopped

theorem reinitialize_roots {w w' : World} (done : reinitialize w = .ok w') : w'.roots = w.roots :=
  foldlM_invariant (fun v => v.roots = w.roots) _ (fun _ root _ same stepped => by
    cases root with
    | some p => exact (watchSubtree_roots stepped).trans same
    | none => cases stepped; exact same) _ _ _ rfl done

/-- `reinitialize` leaves the program on a new instance. -/
theorem reinitialize_generation {w w' : World} (done : reinitialize w = .ok w') :
    w'.kernel.inotify.generation = w.kernel.inotify.generation + 1 :=
  foldlM_invariant (fun v => v.kernel.inotify.generation = w.kernel.inotify.generation + 1) _
    (fun _ root _ same stepped => by
      cases root with
      | some p => exact (watchSubtree_kernel stepped).2.trans same
      | none => cases stepped; exact same) _ _ _ rfl done

@[simp] theorem zapSubtree_wlCache (w : World) (path : Path) :
    (zapSubtree w path).1.wlCache = (zapSlots path w.wlCache w.kernel 0).1 := rfl

@[simp] theorem zapSubtree_snd (w : World) (path : Path) :
    (zapSubtree w path).2 = (zapSlots path w.wlCache w.kernel 0).2.2 := rfl

theorem zapSlots_generation (pn : Path) : ∀ (wlCache : List Watch) (k : Kernel) (cnt : Int),
    (zapSlots pn wlCache k cnt).2.1.inotify.generation = k.inotify.generation
  | [], _, _ => rfl
  | slot :: rest, k, cnt => by
    unfold zapSlots
    split
    · split
      · rfl
      · rename_i k' removed
        exact (zapSlots_generation pn rest k' (cnt + 1)).trans (Kernel.inotifyRmWatch_generation removed)
    · exact zapSlots_generation pn rest k cnt

@[simp] theorem zapSubtree_generation (w : World) (path : Path) :
    (zapSubtree w path).1.kernel.inotify.generation = w.kernel.inotify.generation :=
  zapSlots_generation path w.wlCache w.kernel 0

theorem findWatchChecked_cases (cfg : Config) (wlCache : List Watch) (wd : Int) :
    (cfg.abortOnCacheProblem = true ∧ findWatch wlCache wd = -1 ∧
        findWatchChecked cfg wlCache wd = .error (createStopFileAndAbort cfg)) ∨
      (cfg.abortOnCacheProblem = false ∧ findWatch wlCache wd = -1 ∧
        findWatchChecked cfg wlCache wd = .ok (-1)) ∨
      (0 ≤ findWatch wlCache wd ∧ findWatchChecked cfg wlCache wd = .ok (findWatch wlCache wd)) := by
  rcases scanSlots_cases (fun slot => slot.wd == wd) wlCache with ⟨miss, -⟩ | ⟨j, -, hit, -⟩
  · have miss' : findWatch wlCache wd = -1 := miss
    cases abort : cfg.abortOnCacheProblem <;> simp [findWatchChecked, miss', abort]
  · have hit' : findWatch wlCache wd = j := hit
    have found : (0 : Int) ≤ j := Int.ofNat_nonneg j
    exact .inr (.inr ⟨by omega, by simp [findWatchChecked, hit', found]⟩)

end InotifyDtree
