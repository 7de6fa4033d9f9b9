import InotifyDtree.System
import InotifyDtree.CacheMap
import InotifyDtree.Outcome

set_option autoImplicit false

/- The cache over whole runs of the system. Every slot array the program holds is one
the store operations of `CacheMap` build, so it is well formed, and every pathname in it
is shorter than `PATH_MAX`. The kernel's part of the invariant is `Inotify.Valid`: watch
descriptors are positive (`traverseTree` caches the descriptor `inotify_add_watch`
returns, and only a nonnegative one keeps the array well formed), and every queued record
is one the kernel can deliver. -/
namespace InotifyDtree

/-- What every state of the program keeps: the slot array is one the store operations
build, every pathname in it is shorter than `PATH_MAX`, and the kernel is valid. -/
structure CacheInv (w : World) : Prop where
  built : SlotReach w.wlCache
  short : ∀ slot ∈ w.wlCache, slot.path.length < pathMax
  kernel : w.kernel.inotify.Valid

theorem short_of_cleared {after before : List Watch} (cleared : Cleared after before)
    (short : ∀ slot ∈ before, slot.path.length < pathMax) :
    ∀ slot ∈ after, slot.path.length < pathMax := fun slot member =>
  (cleared.mem member).elim (short slot) fun empty => by rw [empty]; decide

theorem mem_findEmptyCacheSlot {wlCache : List Watch} {slot : Watch}
    (member : slot ∈ (findEmptyCacheSlot wlCache).1) : slot ∈ wlCache ∨ slot = emptySlot := by
  unfold findEmptyCacheSlot at member
  split at member
  · exact .inl member
  · rcases List.mem_append.mp member with old | extra
    · exact .inl old
    · exact .inr (List.eq_of_mem_replicate extra)

theorem short_addWatchToCache {wlCache : List Watch} {wd : Int} {pathname : Path}
    (short : ∀ slot ∈ wlCache, slot.path.length < pathMax) (fits : pathname.length < pathMax) :
    ∀ slot ∈ (addWatchToCache wlCache wd pathname).1, slot.path.length < pathMax := by
  intro slot member
  rcases List.mem_or_eq_of_mem_set member with grown | rfl
  · rcases mem_findEmptyCacheSlot grown with old | rfl
    · exact short slot old
    · decide
  · exact lt_of_le_of_lt (List.length_take_le' _ _) fits

theorem short_rewriteCachedPaths {wlCache : List Watch}
    (short : ∀ slot ∈ wlCache, slot.path.length < pathMax) (oldPathPrefix oldName newPathPrefix newName : Path) :
    ∀ slot ∈ rewriteCachedPaths wlCache oldPathPrefix oldName newPathPrefix newName,
      slot.path.length < pathMax := by
  intro slot member
  obtain ⟨old, kept, rfl⟩ := List.mem_map.mp member
  unfold rewriteSlot
  split
  · exact length_rewrittenPath_lt _ _ _
  · exact short old kept

theorem zapSlots_valid (pn : Path) : ∀ (wlCache : List Watch) (k : Kernel) (cnt : Int),
    k.inotify.Valid → (zapSlots pn wlCache k cnt).2.1.inotify.Valid
  | [], _, _, valid => valid
  | slot :: rest, k, cnt, valid => by
    unfold zapSlots
    split
    · split
      · exact valid
      · rename_i k' removed
        exact zapSlots_valid pn rest k' (cnt + 1) (Kernel.inotifyRmWatch_valid valid removed)
    · exact zapSlots_valid pn rest k cnt valid

namespace CacheInv

variable {w w' : World}

theorem traverseTree (inv : CacheInv w) {pathname : Path} (done : traverseTree w pathname = .ok w') :
    CacheInv w' := by
  unfold InotifyDtree.traverseTree at done
  split at done
  · cases done
    exact inv
  · cases done
  · rename_i added
    obtain ⟨valid, fresh, fits⟩ := Kernel.inotifyAddWatch_valid inv.kernel added
    split at done <;> cases done
    · exact ⟨inv.built, inv.short, valid⟩
    · exact ⟨.add pathname inv.built fresh.le (by omega), short_addWatchToCache inv.short fits, valid⟩

theorem watchSubtree (inv : CacheInv w) {path : Path} (done : watchSubtree w path = .ok w') :
    CacheInv w' :=
  foldlM_invariant CacheInv _ (fun _ (_ : Path × Ino) _ inv stepped => inv.traverseTree stepped) _ _ _ inv done

/-- The rebuild starts from the empty array on a new instance, so it needs nothing of the
state before it. -/
theorem reinitialize (done : reinitialize w = .ok w') : CacheInv w' := by
  refine foldlM_invariant CacheInv _ (fun _ root _ inv stepped => ?_) _ _ _ ?_ done
  · cases root with
    | some p => exact inv.watchSubtree stepped
    | none => cases stepped; exact inv
  · exact ⟨.freeCache, by simp, Kernel.inotifyInit_valid _⟩

theorem zapSubtree (inv : CacheInv w) (path : Path) : CacheInv (zapSubtree w path).1 where
  built := .zap path w.kernel inv.built
  short := short_of_cleared (cleared_zapSlots path w.wlCache w.kernel 0) inv.short
  kernel := zapSlots_valid path w.wlCache w.kernel 0 inv.kernel

theorem withRoots (inv : CacheInv w) (roots : Roots) : CacheInv { w with roots := roots } :=
  ⟨inv.built, inv.short, inv.kernel⟩

theorem markCacheSlotEmpty (inv : CacheInv w) (roots : Roots) (slot : Nat) :
    CacheInv { w with roots := roots, wlCache := markCacheSlotEmpty w.wlCache slot } :=
  ⟨.mark slot inv.built, short_of_cleared (cleared_markCacheSlotEmpty _ slot) inv.short, inv.kernel⟩

theorem rewriteCachedPaths (inv : CacheInv w) (oldPathPrefix oldName newPathPrefix newName : Path) :
    CacheInv { w with wlCache := rewriteCachedPaths w.wlCache oldPathPrefix oldName newPathPrefix newName } :=
  ⟨.rewrite _ _ _ _ inv.built, short_rewriteCachedPaths inv.short _ _ _ _, inv.kernel⟩

end CacheInv

/-- A result whose world keeps the invariant. -/
def KeepsCache {β : Type} (r : World × β) : Prop := CacheInv r.1

theorem discardBuffer_keepsCache (w : World) : Yields KeepsCache (discardBuffer w) :=
  Yields.bind fun _ rebuilt => Yields.of_ok (CacheInv.reinitialize rebuilt)

section Handler

variable {w : World} (inv : CacheInv w) (evCacheSlot : Option Int) (ev : InotifyEvent)
include inv

theorem zapped_keepsCache (path : Path) :
    Yields KeepsCache (if (zapSubtree w path).2 = -1 then discardBuffer (zapSubtree w path).1
      else pure ((zapSubtree w path).1, ev.size)) := by
  split
  · exact discardBuffer_keepsCache _
  · exact Yields.of_ok (inv.zapSubtree path)

theorem directoryCreated_keepsCache : Yields KeepsCache (directoryCreated w evCacheSlot ev) := by
  unfold directoryCreated
  refine Yields.bind fun ⟨_, parent⟩ _ => ?_
  dsimp only
  split
  · exact Yields.of_ok inv
  · exact Yields.bind fun _ walked => Yields.of_ok (inv.watchSubtree walked)

theorem directoryDeleted_keepsCache : Yields KeepsCache (directoryDeleted w evCacheSlot ev) := by
  unfold directoryDeleted
  refine Yields.bind fun ⟨slot, _⟩ _ => ?_
  dsimp only
  split
  · exact Yields.bind fun roots _ => Yields.of_ok (inv.markCacheSlotEmpty roots slot)
  · exact Yields.of_ok (inv.markCacheSlotEmpty w.roots slot)

theorem movedOut_keepsCache : Yields KeepsCache (movedOut w evCacheSlot ev) := by
  unfold movedOut
  refine Yields.bind fun ⟨_, parent⟩ _ => ?_
  exact zapped_keepsCache inv ev _

theorem renamedWithin_keepsCache (cfg : Config) (nextEv : InotifyEvent) :
    Yields KeepsCache (renamedWithin cfg w evCacheSlot ev nextEv) := by
  unfold renamedWithin
  refine Yields.bind fun slot _ => ?_
  split
  · exact discardBuffer_keepsCache w
  · exact Yields.bind fun ⟨_, oldDir⟩ _ => Yields.bind fun ⟨_, newDir⟩ _ =>
      Yields.of_ok (inv.rewriteCachedPaths _ _ _ _)

theorem directoryMovedFrom_keepsCache (cfg : Config) (buf : List InotifyEvent) (bufSize : Int)
    (firstTry : Bool) : Yields KeepsCache (directoryMovedFrom cfg w buf bufSize firstTry evCacheSlot ev) := by
  unfold directoryMovedFrom
  refine Yields.bind fun next _ => ?_
  cases next with
  | some next =>
    dsimp only
    split
    · exact renamedWithin_keepsCache inv evCacheSlot ev cfg next
    · exact movedOut_keepsCache inv evCacheSlot ev
  | none =>
    dsimp only
    split
    · exact Yields.of_ok inv
    · exact movedOut_keepsCache inv evCacheSlot ev

theorem rootMoved_keepsCache : Yields KeepsCache (rootMoved w evCacheSlot ev) := by
  unfold rootMoved
  refine Yields.bind fun ⟨_, watch⟩ _ => ?_
  dsimp only
  split
  · exact Yields.bind fun roots _ => zapped_keepsCache (inv.withRoots roots) ev _
  · exact Yields.of_ok inv

theorem dispatchEvent_keepsCache (cfg : Config) (buf : List InotifyEvent) (bufSize : Int)
    (firstTry : Bool) : Yields KeepsCache (dispatchEvent cfg w buf bufSize firstTry evCacheSlot ev) := by
  rcases dispatchEvent_cases cfg w buf bufSize firstTry evCacheSlot ev with
    taken | taken | taken | taken | taken | taken | taken <;> rw [taken]
  · exact directoryCreated_keepsCache inv evCacheSlot ev
  · exact directoryDeleted_keepsCache inv evCacheSlot ev
  · exact directoryMovedFrom_keepsCache inv evCacheSlot ev cfg buf bufSize firstTry
  · exact discardBuffer_keepsCache w
  · exact Yields.bind fun ⟨slot, _⟩ _ => Yields.of_ok (inv.markCacheSlotEmpty w.roots slot)
  · exact rootMoved_keepsCache inv evCacheSlot ev
  · exact Yields.of_ok inv

end Handler

section Loop

variable (cfg : Config) {w : World} (inv : CacheInv w)
include inv

theorem processNextInotifyEvent_keepsCache (buf : List InotifyEvent) (bufSize : Int) (firstTry : Bool) :
    Yields KeepsCache (processNextInotifyEvent cfg w buf bufSize firstTry) := by
  unfold processNextInotifyEvent
  refine Yields.bind fun ev _ => ?_
  split
  · refine Yields.bind fun slot _ => ?_
    split
    · exact discardBuffer_keepsCache w
    · exact dispatchEvent_keepsCache inv _ ev cfg buf bufSize firstTry
  · exact dispatchEvent_keepsCache inv _ ev cfg buf bufSize firstTry

theorem loopBody_keepsCache (L : ReadBuf) : Yields KeepsCache (loopBody cfg w L) := by
  unfold loopBody
  dsimp only
  split
  · refine Yields.bind fun records _ => Yields.bind fun ⟨_, evLen⟩ handled => ?_
    have kept := processNextInotifyEvent_keepsCache cfg inv records _ _ _ handled
    split <;> exact Yields.of_ok kept
  · intro _ stopped
    cases stopped

end Loop

/-- One step of the system keeps the invariant. -/
theorem CacheInv.step {cfg : Config} {s s' : Sys} {a : Action} (inv : CacheInv s.world)
    (stepped : s.step cfg a = some (.ok s')) : CacheInv s'.world := by
  rcases Sys.step_cases stepped with ⟨k, rfl, changed⟩ | ⟨L, -, -, rfl⟩ |
    ⟨L, w, L', -, -, ⟨body, rfl⟩ | ⟨body, rfl⟩⟩ | ⟨L, -, -, rfl⟩ | ⟨L, L', -, ⟨-, rfl⟩ | ⟨-, -, rfl⟩⟩
  · exact ⟨inv.built, inv.short, changed.valid inv.kernel⟩
  · exact ⟨inv.built, inv.short, Kernel.read_valid inv.kernel _⟩
  · exact loopBody_keepsCache cfg inv L _ body
  · exact loopBody_keepsCache cfg inv L _ body
  · exact inv
  · exact ⟨inv.built, inv.short, Kernel.read_valid inv.kernel _⟩
  · exact inv

theorem startup_keepsCache (k : Kernel) (argv : List Path) :
    Yields (fun s : Sys => CacheInv s.world) (startup k argv) := by
  unfold startup
  split
  · intro _ stopped
    cases stopped
  · exact Yields.bind fun _ _ => Yields.bind fun _ _ => Yields.bind fun _ rebuilt =>
      Yields.of_ok (CacheInv.reinitialize rebuilt)

/-- The invariant over whole runs. -/
theorem CacheInv.reachable {cfg : Config} {k : Kernel} {argv : List Path} {s : Sys}
    (reach : Reachable cfg k argv s) : CacheInv s.world := by
  induction reach with
  | start started => exact startup_keepsCache k argv _ started
  | step _ _ stepped inv => exact inv.step stepped

/-- The cache over whole runs: in every reachable state the slot array is one the store
operations build, so it is well formed (free slots blank, no descriptor in two active
slots), and every pathname in it is shorter than `PATH_MAX`. -/
theorem reachable_cache_wellFormed {cfg : Config} {k : Kernel} {argv : List Path} {s : Sys}
    (reach : Reachable cfg k argv s) :
    SlotReach s.world.wlCache ∧ SlotsWellFormed s.world.wlCache ∧
      ∀ slot ∈ s.world.wlCache, slot.path.length < pathMax :=
  have inv := CacheInv.reachable reach
  ⟨inv.built, inv.built.wellFormed, inv.short⟩

set_option maxRecDepth 10000 in
/-- After the rename that leaves two active slots holding `/t/b`, the array is still well
formed: the two slots hold different descriptors. -/
theorem cache_wellFormed_after_rename_onto_dir :
    ∃ s, runFrom ⟨false, 0, false⟩ twoDirsKernel ["/t".toList]
        [.rename "/t/a".toList "/t/b".toList, .primaryRead, .pass] = some (.ok s) ∧
      SlotReach s.world.wlCache ∧ SlotsWellFormed s.world.wlCache ∧
        ∀ slot ∈ s.world.wlCache, slot.path.length < pathMax := by
  obtain ⟨s, ran⟩ : ∃ s, runFrom ⟨false, 0, false⟩ twoDirsKernel ["/t".toList]
      [.rename "/t/a".toList "/t/b".toList, .primaryRead, .pass] = some (.ok s) := ⟨_, rfl⟩
  exact ⟨s, ran, reachable_cache_wellFormed (reachable_of_runFrom ran)⟩

end InotifyDtree
