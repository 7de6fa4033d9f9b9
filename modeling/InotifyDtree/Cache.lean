import InotifyDtree.Event

set_option autoImplicit false

/- The watch cache of `inotify_dtree.c`: the array `wlCache` of `cacheSize` slots,
searched linearly. A slot is free when its watch descriptor is -1. -/
namespace InotifyDtree

/-- `struct watch`. -/
structure Watch where
  wd : Int
  path : Path
deriving DecidableEq, Repr

/-- The contents `markCacheSlotEmpty` leaves in a slot: `wd = -1` and `path[0] = '\0'`. -/
def emptySlot : Watch := ⟨-1, []⟩

/-- The loop shared by `findWatch`, `findEmptyCacheSlot` and `pathnameToCacheSlot`: the
index of the first slot satisfying `p`, or -1. -/
def scanSlots (p : Watch → Bool) (wlCache : List Watch) : Int :=
  match wlCache.findIdx? p with
  | some j => j
  | none => -1

def findWatch (wlCache : List Watch) (wd : Int) : Int :=
  scanSlots (fun slot => slot.wd == wd) wlCache

def markCacheSlotEmpty (wlCache : List Watch) (slot : Nat) : List Watch :=
  wlCache.set slot emptySlot

def allocIncr : Nat := 200

/-- The first slot with `wd == -1`; when there is none the array grows by `allocIncr`
empty slots and the first of them is returned. -/
def findEmptyCacheSlot (wlCache : List Watch) : List Watch × Nat :=
  match wlCache.findIdx? (fun slot => slot.wd == -1) with
  | some j => (wlCache, j)
  | none => (wlCache ++ List.replicate allocIncr emptySlot, wlCache.length)

def addWatchToCache (wlCache : List Watch) (wd : Int) (pathname : Path) : List Watch × Nat :=
  let (grown, slot) := findEmptyCacheSlot wlCache
  (grown.set slot ⟨wd, strncpy pathMax pathname⟩, slot)

def pathnameToCacheSlot (wlCache : List Watch) (pathname : Path) : Int :=
  scanSlots (fun slot => 0 ≤ slot.wd && slot.path == pathname) wlCache

def pathnameInCache (wlCache : List Watch) (pathname : Path) : Bool :=
  0 ≤ pathnameToCacheSlot wlCache pathname

/-- The value `rewriteCachedPaths` stores in a slot whose path lies below `fullPath`:
`snprintf("%s%s", newPrefix, &path[len])` copied back with `strncpy`. -/
def rewrittenPath (fullPath newPrefix path : Path) : Path :=
  strncpy pathMax (snprintf pathMax (newPrefix ++ path.drop fullPath.length))

/-- The body of the loop of `rewriteCachedPaths`, for one slot. -/
def rewriteSlot (fullPath newPrefix : Path) (slot : Watch) : Watch :=
  if inSubtree fullPath slot.path then
    { slot with path := rewrittenPath fullPath newPrefix slot.path }
  else slot

/-- The directory `oldPathPrefix/oldName` was renamed to `newPathPrefix/newName`: every
slot (free or not) whose path is that directory or lies below it gets the new prefix. -/
def rewriteCachedPaths (wlCache : List Watch)
    (oldPathPrefix oldName newPathPrefix newName : Path) : List Watch :=
  let fullPath := snprintf pathMax (oldPathPrefix ++ '/' :: oldName)
  let newPrefix := snprintf pathMax (newPathPrefix ++ '/' :: newName)
  wlCache.map (rewriteSlot fullPath newPrefix)

/-- The active slots, in array order: the entries `dumpCacheToLog` prints. -/
def activeSlots (wlCache : List Watch) : List Watch :=
  wlCache.filter fun slot => 0 ≤ slot.wd

@[simp] theorem length_markCacheSlotEmpty (wlCache : List Watch) (slot : Nat) :
    (markCacheSlotEmpty wlCache slot).length = wlCache.length :=
  List.length_set ..

@[simp] theorem length_rewriteCachedPaths (wlCache : List Watch)
    (oldPathPrefix oldName newPathPrefix newName : Path) :
    (rewriteCachedPaths wlCache oldPathPrefix oldName newPathPrefix newName).length =
      wlCache.length :=
  List.length_map ..

@[simp] theorem rewriteSlot_wd (fullPath newPrefix : Path) (slot : Watch) :
    (rewriteSlot fullPath newPrefix slot).wd = slot.wd := by
  unfold rewriteSlot
  split <;> rfl

theorem scanSlots_cases (p : Watch → Bool) (wlCache : List Watch) :
    (scanSlots p wlCache = -1 ∧ ∀ slot ∈ wlCache, p slot = false) ∨
      ∃ (j : Nat) (within : j < wlCache.length), scanSlots p wlCache = j ∧
        p wlCache[j] = true := by
  unfold scanSlots
  split
  · rename_i j found
    obtain ⟨within, hit, -⟩ := List.findIdx?_eq_some_iff_getElem.mp found
    exact .inr ⟨j, within, rfl, hit⟩
  · rename_i missing
    exact .inl ⟨rfl, List.findIdx?_eq_none_iff.mp missing⟩

end InotifyDtree
