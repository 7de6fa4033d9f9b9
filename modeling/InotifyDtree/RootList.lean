import Mathlib.Data.List.Forall2
import InotifyDtree.System

set_option autoImplicit false

/- The root list over whole runs. It changes only when `zapRootDirPath` NULLs an entry
that `isRootDirPath` has just found, so its count of zapped entries stays right, "path
not found" is never reached, and the program says "bye" only when it zaps the last
entry. Roots are tracked by pathname, not by inode: a root renamed inside another
root's tree keeps its watch and its slot under a name the root list does not hold. -/
namespace InotifyDtree

/-- What one handler call may do to the root list: keep it, or zap a pathname that
`isRootDirPath` accepts. -/
def RootsStep (roots roots' : Roots) : Prop :=
  roots' = roots ∨ ∃ path, isRootDirPath roots path = true ∧ zapRootDirPath roots path = .ok roots'

/-- How a handler call may stop, as far as the root list goes: never with "path not
found", and with "bye" only when it zapped the last entry. -/
def RootsExit (roots : Roots) (e : Stop) : Prop :=
  e ≠ .exit exitFailure "zapRootDirPath(): path not found!" ∧
    (e = .exit exitSuccess "No more root paths left to monitor; bye!" →
      roots.ignoreRootDirs + 1 = roots.numRootDirs)

/-- The outcome of a call that returns the world with some `β`. -/
def RootsEffect {β : Type} (roots : Roots) : Except Stop (World × β) → Prop
  | .ok (w, _) => RootsStep roots w.roots
  | .error e => RootsExit roots e

theorem rootsExit_of_ne {roots : Roots} {e : Stop}
    (notFound : e ≠ .exit exitFailure "zapRootDirPath(): path not found!")
    (notBye : e ≠ .exit exitSuccess "No more root paths left to monitor; bye!") : RootsExit roots e :=
  ⟨notFound, fun bye => absurd bye notBye⟩

theorem rootsExit_addWatch (roots : Roots) :
    RootsExit roots (.exit exitFailure "inotify_add_watch") :=
  rootsExit_of_ne (by decide) (by decide)

theorem RootsEffect.bind {roots : Roots} {α β : Type} {x : Except Stop α}
    {f : α → Except Stop (World × β)} (first : ∀ e, x = .error e → RootsExit roots e)
    (rest : ∀ a, x = .ok a → RootsEffect roots (f a)) : RootsEffect roots (x >>= f) := by
  cases x with
  | error e => exact first e rfl
  | ok a => exact rest a rfl

theorem RootsEffect.of_ok {roots : Roots} {β : Type} {w : World} {n : β} (step : RootsStep roots w.roots) :
    RootsEffect roots (.ok (w, n)) :=
  step

/-- Slot reads stop only with `badSlot`, lookups only with `abort`, and the buffer reads
only with `badRecord`. -/
theorem headRecord_rootsExit {roots : Roots} {buf : List InotifyEvent} {e : Stop}
    (stopped : headRecord buf = .error e) : RootsExit roots e := by
  unfold headRecord at stopped
  split at stopped <;> cases stopped
  exact rootsExit_of_ne (by decide) (by decide)

theorem readSlot_rootsExit {roots : Roots} {wlCache : List Watch} {slot : Option Int} {e : Stop}
    (stopped : readSlot wlCache slot = .error e) : RootsExit roots e := by
  unfold readSlot at stopped
  repeat' split at stopped
  all_goals cases stopped <;> exact rootsExit_of_ne (by decide) (by decide)

theorem findWatchChecked_rootsExit {roots : Roots} {cfg : Config} {wlCache : List Watch} {wd : Int}
    {e : Stop} (stopped : findWatchChecked cfg wlCache wd = .error e) : RootsExit roots e := by
  simp only [findWatchChecked, createStopFileAndAbort] at stopped
  repeat' split at stopped
  all_goals cases stopped <;> exact rootsExit_of_ne (by decide) (by decide)

theorem lookahead_rootsExit {roots : Roots} {buf : List InotifyEvent} {evLen bufSize : Int} {e : Stop}
    (stopped : lookahead buf evLen bufSize = .error e) : RootsExit roots e := by
  unfold lookahead at stopped
  repeat' split at stopped
  all_goals cases stopped <;> exact rootsExit_of_ne (by decide) (by decide)

/-- A walk keeps the root list and stops only when `inotify_add_watch` fails. -/
theorem RootsEffect.walk {roots : Roots} {x : Except Stop World} (n : Int)
    (keeps : ∀ w, x = .ok w → RootsStep roots w.roots)
    (stops : ∀ e, x = .error e → e = .exit exitFailure "inotify_add_watch") :
    RootsEffect roots (x >>= fun w => pure (w, n)) :=
  RootsEffect.bind (fun e stopped => stops e stopped ▸ rootsExit_addWatch roots)
    (fun w done => keeps w done)

theorem RootsEffect.discardBuffer {roots : Roots} {w : World} (step : RootsStep roots w.roots) :
    RootsEffect roots (discardBuffer w) :=
  RootsEffect.walk _ (fun _ done => (reinitialize_roots done).symm ▸ step)
    (fun _ stopped => reinitialize_error stopped)

/-- `zapRootDirPath` on a pathname `isRootDirPath` accepts. -/
theorem zapRootDirPath_rootsExit {roots : Roots} {path : Path} {e : Stop}
    (isRoot : isRootDirPath roots path = true) (stopped : zapRootDirPath roots path = .error e) :
    RootsExit roots e := by
  obtain ⟨j, found⟩ := Option.isSome_iff_exists.mp isRoot
  simp only [zapRootDirPath, found] at stopped
  split at stopped
  · rename_i last
    cases stopped
    exact ⟨by decide, fun _ => by simpa [Roots.numRootDirs] using last⟩
  · cases stopped

section Handler

variable (cfg : Config) (w : World) (evCacheSlot : Option Int) (ev : InotifyEvent)

theorem directoryCreated_rootsEffect : RootsEffect w.roots (directoryCreated w evCacheSlot ev) := by
  unfold directoryCreated
  refine RootsEffect.bind (fun _ stopped => readSlot_rootsExit stopped) fun ⟨_, parent⟩ _ => ?_
  dsimp only
  split
  · exact RootsEffect.of_ok (.inl rfl)
  · exact RootsEffect.walk _ (fun _ done => .inl (watchSubtree_roots done))
      (fun _ stopped => watchSubtree_error stopped)

theorem directoryDeleted_rootsEffect : RootsEffect w.roots (directoryDeleted w evCacheSlot ev) := by
  unfold directoryDeleted
  refine RootsEffect.bind (fun _ stopped => readSlot_rootsExit stopped) fun ⟨slot, watch⟩ _ => ?_
  dsimp only
  split
  · rename_i isRoot
    exact RootsEffect.bind (fun _ stopped => zapRootDirPath_rootsExit isRoot stopped)
      fun roots zapped => RootsEffect.of_ok (.inr ⟨watch.path, isRoot, zapped⟩)
  · exact RootsEffect.of_ok (.inl rfl)

theorem movedOut_rootsEffect : RootsEffect w.roots (movedOut w evCacheSlot ev) := by
  unfold movedOut
  refine RootsEffect.bind (fun _ stopped => readSlot_rootsExit stopped) fun ⟨_, parent⟩ _ => ?_
  dsimp only
  split
  · exact RootsEffect.discardBuffer (.inl rfl)
  · exact RootsEffect.of_ok (.inl rfl)

theorem renamedWithin_rootsEffect (nextEv : InotifyEvent) :
    RootsEffect w.roots (renamedWithin cfg w evCacheSlot ev nextEv) := by
  unfold renamedWithin
  refine RootsEffect.bind (fun _ stopped => findWatchChecked_rootsExit stopped) fun slot _ => ?_
  split
  · exact RootsEffect.discardBuffer (.inl rfl)
  · refine RootsEffect.bind (fun _ stopped => readSlot_rootsExit stopped) fun ⟨_, oldDir⟩ _ => ?_
    exact RootsEffect.bind (fun _ stopped => readSlot_rootsExit stopped)
      fun ⟨_, newDir⟩ _ => RootsEffect.of_ok (.inl rfl)

theorem directoryMovedFrom_rootsEffect (buf : List InotifyEvent) (bufSize : Int) (firstTry : Bool) :
    RootsEffect w.roots (directoryMovedFrom cfg w buf bufSize firstTry evCacheSlot ev) := by
  unfold directoryMovedFrom
  refine RootsEffect.bind (fun _ stopped => lookahead_rootsExit stopped) fun next _ => ?_
  split
  · split
    · exact renamedWithin_rootsEffect cfg w evCacheSlot ev _
    · exact movedOut_rootsEffect w evCacheSlot ev
  · split
    · exact RootsEffect.of_ok (.inl rfl)
    · exact movedOut_rootsEffect w evCacheSlot ev

theorem rootMoved_rootsEffect : RootsEffect w.roots (rootMoved w evCacheSlot ev) := by
  unfold rootMoved
  refine RootsEffect.bind (fun _ stopped => readSlot_rootsExit stopped) fun ⟨_, watch⟩ _ => ?_
  dsimp only
  split
  · rename_i isRoot
    refine RootsEffect.bind (fun _ stopped => zapRootDirPath_rootsExit isRoot stopped)
      fun roots zapped => ?_
    have step : RootsStep w.roots roots := .inr ⟨watch.path, isRoot, zapped⟩
    split
    · exact RootsEffect.discardBuffer step
    · exact RootsEffect.of_ok step
  · exact RootsEffect.of_ok (.inl rfl)

theorem dispatchEvent_rootsEffect (buf : List InotifyEvent) (bufSize : Int) (firstTry : Bool) :
    RootsEffect w.roots (dispatchEvent cfg w buf bufSize firstTry evCacheSlot ev) := by
  rcases dispatchEvent_cases cfg w buf bufSize firstTry evCacheSlot ev with
    taken | taken | taken | taken | taken | taken | taken <;> rw [taken]
  · exact directoryCreated_rootsEffect w evCacheSlot ev
  · exact directoryDeleted_rootsEffect w evCacheSlot ev
  · exact directoryMovedFrom_rootsEffect cfg w evCacheSlot ev buf bufSize firstTry
  · exact RootsEffect.discardBuffer (.inl rfl)
  · exact RootsEffect.bind (fun _ stopped => readSlot_rootsExit stopped)
      fun _ _ => RootsEffect.of_ok (.inl rfl)
  · exact rootMoved_rootsEffect w evCacheSlot ev
  · exact RootsEffect.of_ok (.inl rfl)

end Handler

/-- Every call of the handler keeps the root list or zaps a root it found. -/
theorem processNextInotifyEvent_rootsEffect (cfg : Config) (w : World) (buf : List InotifyEvent)
    (bufSize : Int) (firstTry : Bool) :
    RootsEffect w.roots (processNextInotifyEvent cfg w buf bufSize firstTry) := by
  unfold processNextInotifyEvent
  refine RootsEffect.bind (fun _ stopped => headRecord_rootsExit stopped) fun ev _ => ?_
  split
  · refine RootsEffect.bind (fun _ stopped => findWatchChecked_rootsExit stopped) fun slot _ => ?_
    split
    · exact RootsEffect.discardBuffer (.inl rfl)
    · exact dispatchEvent_rootsEffect cfg w _ ev buf bufSize firstTry
  · exact dispatchEvent_rootsEffect cfg w _ ev buf bufSize firstTry

theorem loopBody_rootsEffect (cfg : Config) (w : World) (L : ReadBuf) :
    RootsEffect w.roots (loopBody cfg w L) := by
  unfold loopBody
  dsimp only
  split
  · next records _ =>
    have handled := processNextInotifyEvent_rootsEffect cfg w records (L.numRead - L.evp) L.firstTry
    simp only [except_pure, except_ok_bind]
    revert handled
    cases processNextInotifyEvent cfg w records (L.numRead - L.evp) L.firstTry with
    | error e => exact id
    | ok result =>
      intro handled
      rw [except_ok_bind]
      split <;> exact handled
  · exact rootsExit_of_ne (by decide) (by decide)

/-- What one step of the system may do to the root list. -/
def SysEffect (roots : Roots) : Option (Except Stop Sys) → Prop
  | some (.ok s) => RootsStep roots s.world.roots
  | some (.error e) => RootsExit roots e
  | none => True

theorem SysEffect.map {roots : Roots} {α : Type} {x : Except Stop α} {f : α → Sys}
    (first : ∀ e, x = .error e → RootsExit roots e)
    (rest : ∀ a, x = .ok a → RootsStep roots (f a).world.roots) :
    SysEffect roots (some (x.map f)) := by
  cases x with
  | error e => exact first e rfl
  | ok a => exact rest a rfl

theorem primaryRead_rootsExit {roots : Roots} {result : ReadResult} {e : Stop}
    (stopped : primaryRead result = .error e) : RootsExit roots e := by
  unfold primaryRead at stopped
  repeat' split at stopped
  all_goals cases stopped <;> exact rootsExit_of_ne (by decide) (by decide)

theorem secondaryRead_rootsExit {roots : Roots} {L : ReadBuf} {result : ReadResult} {e : Stop}
    (stopped : secondaryRead L result = .error e) : RootsExit roots e := by
  unfold secondaryRead at stopped
  split at stopped <;> cases stopped <;> exact rootsExit_of_ne (by decide) (by decide)

/-- Only a pass of the loop can change the root list; reads stop only on their own
errors. -/
theorem Sys.step_sysEffect (cfg : Config) (s : Sys) (a : Action) :
    SysEffect s.world.roots (s.step cfg a) := by
  cases a with
  | mkdir p =>
    cases made : s.world.kernel.mkdir p <;> simp only [Sys.step, made, Option.map_none', Option.map_some']
    · trivial
    · exact Or.inl rfl
  | rmdir p =>
    cases removed : s.world.kernel.rmdir p <;> simp only [Sys.step, removed, Option.map_none', Option.map_some']
    · trivial
    · exact Or.inl rfl
  | rename src dst =>
    cases renamed : s.world.kernel.rename src dst <;> simp only [Sys.step, renamed, Option.map_none', Option.map_some']
    · trivial
    · exact Or.inl rfl
  | primaryRead =>
    simp only [Sys.step]
    split
    · split
      · trivial
      · exact SysEffect.map (fun _ => primaryRead_rootsExit) (fun _ _ => Or.inl rfl)
    · trivial
  | pass =>
    simp only [Sys.step]
    split
    · next L _ =>
      split
      · have body := loopBody_rootsEffect cfg s.world L
        revert body
        cases loopBody cfg s.world L with
        | error e => exact id
        | ok result =>
          obtain ⟨w, pass⟩ := result
          cases pass <;> exact id
      · exact Or.inl rfl
    · trivial
  | secondaryRead =>
    simp only [Sys.step]
    split
    · split
      · trivial
      · exact SysEffect.map (fun _ => secondaryRead_rootsExit) (fun _ _ => Or.inl rfl)
    · trivial
  | alarm =>
    simp only [Sys.step]
    split
    · exact SysEffect.map (fun _ => secondaryRead_rootsExit) (fun _ _ => Or.inl rfl)
    · trivial

/-- The root list as the program keeps it, against the arguments `argv` it started
with: each entry is still its argument or NULL (renames never rewrite it),
`ignoreRootDirs` counts the NULLs, and one entry at least is left. -/
structure RootInv (argv : List Path) (roots : Roots) : Prop where
  entries : List.Forall₂ (fun entry arg => entry = some arg ∨ entry = none) roots.rootDirPaths argv
  counted : roots.ignoreRootDirs = roots.rootDirPaths.count none
  remaining : roots.ignoreRootDirs < roots.numRootDirs

theorem forall₂_set_none {args : List Path} : ∀ {entries : List (Option Path)} (j : Nat),
    List.Forall₂ (fun entry arg => entry = some arg ∨ entry = none) entries args →
      List.Forall₂ (fun entry arg => entry = some arg ∨ entry = none) (entries.set j none) args
  | _, _, .nil => .nil
  | _, 0, .cons _ rest => .cons (.inr rfl) rest
  | _, j + 1, .cons head rest => .cons head (forall₂_set_none j rest)

/-- A zap that does not exit NULLs one more entry and leaves one at least. -/
theorem RootInv.zap {argv : List Path} {roots roots' : Roots} {path : Path} (inv : RootInv argv roots)
    (zapped : zapRootDirPath roots path = .ok roots') : RootInv argv roots' := by
  unfold zapRootDirPath at zapped
  split at zapped
  · cases zapped
  · rename_i j found
    obtain ⟨within, holds, -⟩ := List.findIdx?_eq_some_iff_getElem.mp found
    have entry : roots.rootDirPaths[j] = some path := by simpa using holds
    dsimp only at zapped
    split at zapped
    · cases zapped
    · rename_i notLast
      cases zapped
      have counted : (roots.rootDirPaths.set j none).count none = roots.rootDirPaths.count none + 1 := by
        rw [List.count_set _ _ _ _ within, entry]
        simp
      have bounded := List.count_le_length none (roots.rootDirPaths.set j none)
      have notLast : roots.ignoreRootDirs + 1 ≠ (roots.rootDirPaths.set j none).length := notLast
      rw [counted, List.length_set] at bounded
      rw [List.length_set] at notLast
      refine ⟨forall₂_set_none j inv.entries, ?_, ?_⟩
      · show roots.ignoreRootDirs + 1 = _
        rw [counted, inv.counted]
      · show roots.ignoreRootDirs + 1 < (roots.rootDirPaths.set j none).length
        rw [List.length_set]
        have := inv.counted
        omega

theorem RootInv.step {argv : List Path} {roots roots' : Roots} (inv : RootInv argv roots)
    (step : RootsStep roots roots') : RootInv argv roots' := by
  rcases step with rfl | ⟨_, -, zapped⟩
  · exact inv
  · exact inv.zap zapped

theorem copyRootDirPaths_roots {fs : Fs} {argv : List Path} {roots : Roots}
    (copied : copyRootDirPaths fs argv = .ok roots) :
    roots.rootDirPaths = argv.map some ∧ roots.ignoreRootDirs = 0 := by
  unfold copyRootDirPaths at copied
  simp only [bind, Except.bind] at copied
  split at copied
  · cases copied
  · split at copied
    · cases copied
      exact ⟨rfl, rfl⟩
    · cases copied

/-- The program starts with every argument a root and nothing zapped. -/
theorem startup_rootInv {k : Kernel} {argv : List Path} {s : Sys} (started : startup k argv = .ok s) :
    RootInv argv s.world.roots := by
  unfold startup at started
  split at started
  · cases started
  · rename_i nonempty
    cases copied : copyRootDirPaths k.fs argv with
    | error e => rw [copied] at started; cases started
    | ok roots =>
      simp only [copied, except_pure, except_ok_bind] at started
      cases rebuilt : reinitialize ⟨[], roots, k⟩ with
      | error e => rw [rebuilt] at started; cases started
      | ok w =>
        rw [rebuilt] at started
        cases started
        obtain ⟨paths, none_zapped⟩ := copyRootDirPaths_roots copied
        have length : 0 < argv.length := List.length_pos.mpr (by simpa using nonempty)
        rw [reinitialize_roots rebuilt]
        refine ⟨?_, ?_, ?_⟩
        · rw [paths]
          exact List.forall₂_map_left_iff.mpr (List.forall₂_same.mpr fun _ _ => .inl rfl)
        · rw [paths, none_zapped]
          exact (List.count_eq_zero.mpr (by simp)).symm
        · simpa [Roots.numRootDirs, paths, none_zapped] using length

/-- The root list over whole runs. In every reachable state each entry is still its
command-line pathname or NULL, `ignoreRootDirs` counts the NULLs, and one entry at least
is left. No step stops with "zapRootDirPath(): path not found!", and a step stops with
"No more root paths left to monitor; bye!" only from a state with exactly one entry
left. -/
theorem roots_tracked_by_pathname (cfg : Config) (k : Kernel) (argv : List Path) :
    (∀ s, Reachable cfg k argv s → RootInv argv s.world.roots) ∧
      ∀ s a e, Reachable cfg k argv s → s.step cfg a = some (.error e) →
        e ≠ .exit exitFailure "zapRootDirPath(): path not found!" ∧
        (e = .exit exitSuccess "No more root paths left to monitor; bye!" →
          s.world.roots.rootDirPaths.count none + 1 = s.world.roots.numRootDirs) := by
  have invariant : ∀ s, Reachable cfg k argv s → RootInv argv s.world.roots := by
    intro s reach
    induction reach with
    | start started => exact startup_rootInv started
    | @step before _ a _ stepped inv =>
      have effect := Sys.step_sysEffect cfg before a
      rw [stepped] at effect
      exact inv.step effect
  refine ⟨invariant, fun s a e reach stepped => ?_⟩
  have effect := Sys.step_sysEffect cfg s a
  rw [stepped] at effect
  exact ⟨effect.1, fun bye => (invariant s reach).counted ▸ effect.2 bye⟩

/-- The roots `/t` and `/t/r`, the second inside the first. -/
def nestedRootKernel : Kernel :=
  ⟨⟨.mk 1 [("t".toList, .mk 2 [("r".toList, .mk 3 [])])], by decide⟩, 4, 0, ⟨0, [], 0, []⟩⟩

set_option maxRecDepth 10000 in
/-- `rename /t/r /t/s` moves the second root inside the first. The handled rename pair
rewrites its slot to `/t/s`, and its `IN_MOVE_SELF` is then ignored because
`isRootDirPath("/t/s")` fails: once every record is handled, the root's entry is not
zapped and its directory keeps a watch and an active slot, yet `isRootDirPath` rejects
the slot's pathname. -/
theorem renamed_nested_root_not_recognised :
    ∃ s, Reachable ⟨false, 0, false⟩ nestedRootKernel ["/t".toList, "/t/r".toList] s ∧
      s.quiescent = true ∧ s.world.roots.rootDirStat = [2, 3] ∧
      s.world.roots.rootDirPaths = [some "/t".toList, some "/t/r".toList] ∧
      ∃ slot ∈ activeSlots s.world.wlCache, slotDir s.world.kernel slot = some ("/t/s".toList, 3) ∧
        isRootDirPath s.world.roots slot.path = false := by
  obtain ⟨s, ran, holds⟩ : ∃ s, runFrom ⟨false, 0, false⟩ nestedRootKernel ["/t".toList, "/t/r".toList]
      [.rename "/t/r".toList "/t/s".toList, .primaryRead, .pass, .pass, .pass] = some (.ok s) ∧
      (s.quiescent = true ∧ s.world.roots.rootDirStat = [2, 3] ∧
        s.world.roots.rootDirPaths = [some "/t".toList, some "/t/r".toList] ∧
        ∃ slot ∈ activeSlots s.world.wlCache, slotDir s.world.kernel slot = some ("/t/s".toList, 3) ∧
          isRootDirPath s.world.roots slot.path = false) :=
    ⟨_, rfl, by decide⟩
  exact ⟨s, reachable_of_runFrom ran, holds⟩

end InotifyDtree
