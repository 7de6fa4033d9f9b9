import InotifyDtree.Positions
import InotifyDtree.CacheInvariant

set_option autoImplicit false

/- The cache as a mirror of the tree below one root. A table pairs each directory below
the root with the watch on it; the active slots are the table's watches under the
directories' pathnames, and the kernel's watches are the table's. That is the
consistency the program is written to keep. The cache part (`Cached`) and the tree part
(`Mirror`) are apart so that a state between two records of one call, which mirrors no
tree, still carries the first. The transitions at the end are what the handler does to
the table for a new directory, a removed one and a renamed subtree. -/
namespace InotifyDtree

/-- A root pathname as `nftw` and the handler both extend it: one '/' before each name. -/
def RootName (r : Path) : Prop := r.getLast? ≠ some '/' ∧ '\x00' ∉ r

instance (r : Path) : Decidable (RootName r) := inferInstanceAs (Decidable (_ ∧ _))

/-- The events every watch of the program asks for, whatever its pathname. -/
def Selects (mask : UInt32) : Prop :=
  hasAny mask inCreate = true ∧ hasAny mask inMovedFrom = true ∧ hasAny mask inMovedTo = true ∧
    hasAny mask inDeleteSelf = true

instance (mask : UInt32) : Decidable (Selects mask) := inferInstanceAs (Decidable (_ ∧ _ ∧ _ ∧ _))

theorem selects_traverseFlags (roots : Roots) (pathname : Path) :
    Selects (traverseFlags roots pathname ||| inOnlydir) := by
  unfold traverseFlags
  split <;> decide

/-- Only a root's watch asks for `IN_MOVE_SELF`. -/
theorem traverseFlags_moveSelf {roots : Roots} {pathname : Path} (notRoot : isRootDirPath roots pathname = false) :
    hasAny (traverseFlags roots pathname ||| inOnlydir) inMoveSelf = false := by
  rw [traverseFlags, notRoot]
  decide

/-- A root's watch asks for `IN_MOVE_SELF`. -/
theorem traverseFlags_moveSelf_of_root {roots : Roots} {pathname : Path} (root : isRootDirPath roots pathname = true) :
    hasAny (traverseFlags roots pathname ||| inOnlydir) inMoveSelf = true := by
  rw [traverseFlags, root]
  decide

/-- A directory below the root, at `pos`, with the watch `wd` on its inode. -/
structure Tracked where
  pos : List Path
  ino : Ino
  wd : Int
deriving DecidableEq, Repr

def Tracked.place (entry : Tracked) : List Path × Ino := (entry.pos, entry.ino)

/-- The slot that caches the directory below the root `r`. -/
def Tracked.slot (r : Path) (entry : Tracked) : Watch := ⟨entry.wd, pathAt r entry.pos⟩

def Tracked.key (entry : Tracked) : Int × Ino := (entry.wd, entry.ino)

def KWatch.key (watch : KWatch) : Int × Ino := (watch.wd, watch.ino)

/-- Where the rename of the directory at `src` to `dst` puts the directory at `pos`. -/
def movePos (src dst pos : List Path) : List Path :=
  if src.isPrefixOf pos then dst ++ pos.drop src.length else pos

/-- A table entry after a rename: the same watch on the same inode, at its new place. -/
def Tracked.move (src dst : List Path) (entry : Tracked) : Tracked :=
  { entry with pos := movePos src dst entry.pos }

theorem movePos_of_below {src dst pos : List Path} (below : src <+: pos) :
    movePos src dst pos = dst ++ pos.drop src.length := by
  rw [movePos, if_pos (List.isPrefixOf_iff_prefix.mpr below)]

theorem movePos_of_outside {src dst pos : List Path} (outside : ¬ src <+: pos) : movePos src dst pos = pos := by
  rw [movePos, if_neg (mt List.isPrefixOf_iff_prefix.mp outside)]

/-- The rename moves the subtree at `src` to `dst` and leaves the other positions. -/
theorem perm_map_move {src dst : List Path} {places rest moved : List (List Path × Ino)}
    (split : places.Perm (rest ++ moved.map (below src))) (outside : ∀ entry ∈ rest, ¬ src <+: entry.1) :
    (places.map fun entry => (movePos src dst entry.1, entry.2)).Perm (rest ++ moved.map (below dst)) := by
  refine (split.map _).trans (.of_eq ?_)
  rw [List.map_append, List.map_map]
  congr 1
  · conv_rhs => rw [← List.map_id rest]
    exact List.map_congr_left fun entry member => by rw [movePos_of_outside (outside entry member)]; rfl
  · exact List.map_congr_left fun entry _ => by
      simp [below, movePos_of_below (List.prefix_append src entry.1)]

theorem map_place_move (src dst : List Path) (table : List Tracked) :
    (table.map (Tracked.move src dst)).map Tracked.place =
      (table.map Tracked.place).map fun entry => (movePos src dst entry.1, entry.2) := by
  simp [Function.comp_def, Tracked.move, Tracked.place]

/-- Every directory below the root has a pathname shorter than `PATH_MAX`. -/
def ShortTree (fs : Fs) (r : Path) : Prop := ∀ entry ∈ nftw fs r, entry.1.length < pathMax

instance (fs : Fs) (r : Path) : Decidable (ShortTree fs r) := inferInstanceAs (Decidable (∀ entry ∈ _, _))

/-- The cache and the kernel follow `table`: the active slots are its watches under its
pathnames below the root `r`, and the kernel holds exactly its watches, each asking for
the events the handler needs, and the root's, and only the root's, for `IN_MOVE_SELF`. -/
structure Cached (r : Path) (w : World) (table : List Tracked) : Prop where
  roots : w.roots.rootDirPaths = [some r]
  slots : (activeSlots w.wlCache).Perm (table.map (Tracked.slot r))
  watches : (w.kernel.inotify.watches.map KWatch.key).Perm (table.map Tracked.key)
  selects : ∀ watch ∈ w.kernel.inotify.watches, Selects watch.mask
  distinct : (table.map Tracked.wd).Nodup ∧ (table.map Tracked.ino).Nodup
  fresh : ∀ entry ∈ table, 0 < entry.wd ∧ entry.wd ≤ w.kernel.inotify.lastWd ∧ entry.ino < w.kernel.nextIno
  built : SlotReach w.wlCache
  short : ∀ slot ∈ w.wlCache, slot.path.length < pathMax
  rootSelf : ∀ entry ∈ table, pathAt r entry.pos ≠ r → ∀ watch ∈ w.kernel.inotify.watches,
    watch.ino = entry.ino → hasAny watch.mask inMoveSelf = false
  rootMoves : ∀ entry ∈ table, pathAt r entry.pos = r → ∀ watch ∈ w.kernel.inotify.watches,
    watch.ino = entry.ino → hasAny watch.mask inMoveSelf = true

/-- The cache mirrors the tree below the root `r` through `table`: the table's positions
are the tree's. -/
structure Mirror (r : Path) (w : World) (table : List Tracked) extends Cached r w table : Prop where
  tree : ∃ rootDir, w.kernel.fs.lookup r = some rootDir ∧ rootDir.positions.Perm (table.map Tracked.place)

/-! Pathnames below the root and the rename of `rewriteCachedPaths`. -/

section Renaming

variable {r : Path} (endOk : r.getLast? ≠ some '/') {front back : List Path}
  (valid : ∀ name ∈ front ++ back, validName name = true)
include endOk valid

theorem atOrBelow_pathAt : atOrBelow (pathAt r front) (pathAt r back) = true ↔ front <+: back := by
  have validFront : ∀ name ∈ front, validName name = true := fun name m => valid name (List.mem_append_left _ m)
  have validBack : ∀ name ∈ back, validName name = true := fun name m => valid name (List.mem_append_right _ m)
  have noSlash : ∀ name ∈ front ++ back, '/' ∉ name := fun name m => (validName_spec (valid name m)).2.1
  rw [pathAt_eq_join endOk validFront, pathAt_eq_join endOk validBack, atOrBelow, Bool.or_eq_true,
    beq_iff_eq, List.isPrefixOf_iff_prefix, List.append_assoc, List.prefix_append_right_inj,
    List.append_cancel_left_eq]
  constructor
  · rintro (same | ⟨rest, longer⟩)
    · exact joinNames_inj noSlash same.symm ▸ List.prefix_refl _
    · exact @prefix_of_joinNames front back rest noSlash (by rw [← longer]; simp)
  · rintro ⟨extra, rfl⟩
    rw [joinNames_append]
    cases extra with
    | nil => exact .inl (by simp)
    | cons name more => exact .inr ⟨name ++ joinNames more, by simp⟩

theorem renamePath_pathAt_of_below {renamed : List Path} (newValid : ∀ name ∈ renamed, validName name = true)
    (moved : front <+: back) :
    renamePath (pathAt r front) (pathAt r renamed) (pathAt r back) =
      pathAt r (renamed ++ back.drop front.length) := by
  have validFront : ∀ name ∈ front, validName name = true := fun name m => valid name (List.mem_append_left _ m)
  have validBack : ∀ name ∈ back, validName name = true := fun name m => valid name (List.mem_append_right _ m)
  rw [renamePath, if_pos ((atOrBelow_pathAt endOk valid).mpr moved)]
  obtain ⟨extra, rfl⟩ := moved
  rw [List.drop_left, pathAt_eq_join endOk validFront, pathAt_eq_join endOk validBack,
    pathAt_eq_join endOk newValid, pathAt_eq_join endOk fun name member => ?_, joinNames_append,
    joinNames_append, ← List.append_assoc, List.drop_left]
  · simp
  · rcases List.mem_append.mp member with inNew | inExtra
    · exact newValid name inNew
    · exact validBack name (List.mem_append_right _ inExtra)

theorem renamePath_pathAt_of_outside (renamed : Path) (kept : ¬ front <+: back) :
    renamePath (pathAt r front) renamed (pathAt r back) = pathAt r back := by
  rw [renamePath, if_neg fun below => kept ((atOrBelow_pathAt endOk valid).mp below)]

end Renaming

/-- The pathname the handler builds from its parent's: one '/' and the name. -/
theorem pathAt_concat {r : Path} (endOk : r.getLast? ≠ some '/') {rel : List Path}
    (valid : ∀ name ∈ rel, validName name = true) (leaf : Path) :
    pathAt r (rel ++ [leaf]) = pathAt r rel ++ '/' :: leaf := by
  simp only [pathAt_append, pathAt]
  exact childPath_of_ne (pathAt_getLast? endOk valid) leaf

theorem noNul_pathAt {r : Path} (rootOk : RootName r) {names : List Path}
    (valid : ∀ name ∈ names, validName name = true) : '\x00' ∉ pathAt r names := by
  rw [pathAt_eq_join rootOk.1 valid, List.mem_append, not_or]
  exact ⟨rootOk.2, not_mem_joinNames (by decide) fun name member => (validName_spec (valid name member)).2.2.1⟩

theorem pathAt_ne_root {r : Path} (endOk : r.getLast? ≠ some '/') {names : List Path} (nonempty : names ≠ [])
    (valid : ∀ name ∈ names, validName name = true) : pathAt r names ≠ r := fun same => by
  have longer : r.length < (pathAt r names).length := by
    obtain ⟨name, rest, rfl⟩ := List.exists_cons_of_ne_nil nonempty
    simp [pathAt_eq_join endOk valid]
  rw [same] at longer
  exact Nat.lt_irrefl _ longer

theorem ShortTree.position {fs : Fs} {r : Path} (short : ShortTree fs r) {rootDir : Dir}
    (looked : fs.lookup r = some rootDir) {entry : List Path × Ino} (member : entry ∈ rootDir.positions) :
    (pathAt r entry.1).length < pathMax :=
  short (walkEntry r entry) (by
    simp only [nftw, looked, Dir.walk_eq_positions]
    exact List.mem_map_of_mem (walkEntry r) member)

/-- The loop body of `rewriteCachedPaths` on the slot of a directory below the root: the
slot of the directory at its place after the rename. -/
theorem rewriteSlot_slot {r : Path} (rootOk : RootName r) {src dst : List Path} {entry : Tracked}
    (valid : ∀ name ∈ src ++ entry.pos, validName name = true) (validDst : ∀ name ∈ dst, validName name = true)
    (srcShort : (pathAt r src).length < pathMax)
    (fits : (pathAt r (movePos src dst entry.pos)).length < pathMax) :
    rewriteSlot (snprintf pathMax (pathAt r src)) (snprintf pathMax (pathAt r dst)) (entry.slot r) =
      (entry.move src dst).slot r := by
  have validPos : ∀ name ∈ entry.pos, validName name = true := fun name member =>
    valid name (List.mem_append_right _ member)
  rw [Tracked.slot, rewriteSlot_eq_renamePath srcShort (noNul_pathAt rootOk validPos) ?_]
  · by_cases below : src <+: entry.pos
    · rw [renamePath_pathAt_of_below rootOk.1 valid validDst below, ← movePos_of_below below]
      rfl
    · rw [renamePath_pathAt_of_outside rootOk.1 valid _ below, ← movePos_of_outside below]
      rfl
  · intro atBelow
    have below := (atOrBelow_pathAt rootOk.1 valid).mp atBelow
    have moved := renamePath_pathAt_of_below rootOk.1 valid validDst below
    rw [renamePath, if_pos atBelow] at moved
    rw [moved, ← movePos_of_below below]
    exact fits

/-- Clearing the slot of an active entry drops that entry from the active slots. -/
theorem activeSlots_markCacheSlotEmpty {wlCache : List Watch} {j : Nat} {slot : Watch}
    (hit : wlCache[j]? = some slot) (nonneg : 0 ≤ slot.wd) :
    (activeSlots wlCache).Perm (slot :: activeSlots (markCacheSlotEmpty wlCache j)) := by
  obtain ⟨within, rfl⟩ := List.getElem?_eq_some_iff.mp hit
  rw [activeSlots_split within, markCacheSlotEmpty, activeSlots_set within, activeSlots_emptySlot,
    activeSlots_singleton, if_pos nonneg, List.append_nil, List.append_assoc, List.singleton_append]
  exact List.perm_middle

section Mirror

variable {r : Path} {w : World} {table : List Tracked}

theorem Cached.watches_wd (m : Cached r w table) : (w.kernel.inotify.watches.map KWatch.wd).Nodup := by
  have keys := (m.watches.map Prod.fst).nodup_iff.mpr (by simpa [Function.comp_def] using m.distinct.1)
  simpa [Function.comp_def, KWatch.key] using keys

/-- A slot on a watch the kernel holds reads back that watch's inode. -/
theorem slotDir_of_key {k : Kernel} {wd : Int} {ino : Ino} (path : Path)
    (distinct : (k.inotify.watches.map KWatch.wd).Nodup) (held : (wd, ino) ∈ k.inotify.watches.map KWatch.key) :
    slotDir k ⟨wd, path⟩ = some (path, ino) := by
  obtain ⟨watch, member, same⟩ := List.mem_map.mp held
  simp only [KWatch.key, Prod.mk.injEq] at same
  obtain ⟨rfl, rfl⟩ := same
  unfold slotDir
  cases found : k.inotify.watches.find? (fun other => other.wd == watch.wd) with
  | none => exact absurd (List.find?_eq_none.mp found watch member) (by simp)
  | some other =>
    have hit := List.find?_some found
    rw [beq_iff_eq] at hit
    rw [List.inj_on_of_nodup_map distinct (List.mem_of_find?_eq_some found) member hit]
    rfl

theorem Cached.slotDir_eq (m : Cached r w table) {entry : Tracked} (member : entry ∈ table) :
    slotDir w.kernel (entry.slot r) = some (pathAt r entry.pos, entry.ino) :=
  slotDir_of_key _ m.watches_wd (m.watches.symm.subset (List.mem_map_of_mem Tracked.key member))

/-- The walk from the root reports the table's directories, each once. -/
theorem Mirror.monitoredDirs_perm (m : Mirror r w table) :
    (monitoredDirs w).Perm (table.map fun entry => (pathAt r entry.pos, entry.ino)) := by
  obtain ⟨rootDir, looked, placed⟩ := m.tree
  have inos : (rootDir.positions.map Prod.snd).Nodup :=
    (placed.map Prod.snd).nodup_iff.mpr (by simpa [Function.comp_def, Tracked.place] using m.distinct.2)
  unfold InotifyDtree.monitoredDirs
  rw [m.roots]
  simp only [List.filterMap_cons, List.filterMap_nil, id, List.flatMap_cons, List.flatMap_nil,
    List.append_nil, nftw, looked, Dir.walk_eq_positions]
  rw [firstPerIno_of_nodup [] _ (by simpa [Function.comp_def, walkEntry] using inos) (by simp)]
  simpa [Function.comp_def, walkEntry, Tracked.place] using placed.map (walkEntry r)

theorem Mirror.rootDir (m : Mirror r w table) :
    ∃ rootDir, w.kernel.fs.root.find? (canonical r) = some rootDir ∧ rootDir.wellFormed = true ∧
      rootDir.positions.Perm (table.map Tracked.place) := by
  obtain ⟨rootDir, looked, placed⟩ := m.tree
  exact ⟨rootDir, looked, Dir.find?_wellFormed _ _ _ w.kernel.fs.wellFormed looked, placed⟩

theorem Mirror.entry_of_position (m : Mirror r w table) {rootDir : Dir}
    (looked : w.kernel.fs.root.find? (canonical r) = some rootDir) {pos : List Path} {ino : Ino}
    (member : (pos, ino) ∈ rootDir.positions) : ∃ entry ∈ table, entry.pos = pos ∧ entry.ino = ino := by
  obtain ⟨rootDir', looked', placed⟩ := m.tree
  rw [Fs.lookup, looked, Option.some.injEq] at looked'
  subst looked'
  obtain ⟨entry, inTable, same⟩ := List.mem_map.mp (placed.subset member)
  exact ⟨entry, inTable, congrArg Prod.fst same, congrArg Prod.snd same⟩

theorem Mirror.valid (m : Mirror r w table) {entry : Tracked} (member : entry ∈ table) :
    ∀ name ∈ entry.pos, validName name = true := by
  obtain ⟨rootDir, -, wf, placed⟩ := m.rootDir
  exact Dir.positions_valid rootDir wf entry.place (placed.symm.subset (List.mem_map_of_mem _ member))

/-- The slot that caches a directory of the table. -/
theorem Cached.slotOf (m : Cached r w table) {entry : Tracked} (member : entry ∈ table) :
    ∃ j : Nat, findWatch w.wlCache entry.wd = j ∧ w.wlCache[j]? = some (entry.slot r) := by
  have wf := m.built.wellFormed
  have active : entry.slot r ∈ activeSlots w.wlCache :=
    m.slots.symm.subset (List.mem_map_of_mem _ member)
  have cached := (cacheMap_eq_some wf).mpr active
  rcases findWatch_refines wf (le_of_lt (m.fresh entry member).1) with ⟨-, absent⟩ | ⟨j, p, found, hit, value⟩
  · rw [absent] at cached
    cases cached
  · rw [value, Option.some.injEq] at cached
    exact ⟨j, found, by rw [hit, cached]; rfl⟩

/-- The watch on a directory of the table. -/
theorem Cached.watchOn (m : Cached r w table) {entry : Tracked} (member : entry ∈ table) :
    ∃ watch, w.kernel.inotify.watches.find? (fun watch => watch.ino == entry.ino) = some watch ∧
      watch.wd = entry.wd ∧ Selects watch.mask := by
  have inos : (w.kernel.inotify.watches.map KWatch.ino).Nodup := by
    have keys := (m.watches.map Prod.snd).nodup_iff.mpr (by simpa [Function.comp_def] using m.distinct.2)
    simpa [Function.comp_def, KWatch.key] using keys
  obtain ⟨watch, held, same⟩ := List.mem_map.mp (m.watches.symm.subset (List.mem_map_of_mem Tracked.key member))
  simp only [KWatch.key, Tracked.key, Prod.mk.injEq] at same
  cases found : w.kernel.inotify.watches.find? (fun other => other.ino == entry.ino) with
  | none => exact absurd (List.find?_eq_none.mp found watch held) (by simp [same.2])
  | some other =>
    have hit := List.find?_some found
    rw [beq_iff_eq, ← same.2] at hit
    rw [List.inj_on_of_nodup_map inos (List.mem_of_find?_eq_some found) held hit]
    exact ⟨watch, rfl, same.1, m.selects watch held⟩

/-- No slot holds the pathname of a position outside the table. -/
theorem Mirror.not_cached (m : Mirror r w table) (rootOk : RootName r) {q : List Path}
    (validQ : ∀ name ∈ q, validName name = true) (absent : ∀ entry ∈ table, entry.pos ≠ q) :
    pathnameInCache w.wlCache (pathAt r q) = false := by
  have wf := m.built.wellFormed
  rcases pathnameToCacheSlot_refines wf (pathAt r q) with ⟨miss, -⟩ | ⟨j, wd, -, -, value⟩
  · simp [pathnameInCache, miss]
  · obtain ⟨entry, member, same⟩ := List.mem_map.mp (m.slots.subset ((cacheMap_eq_some wf).mp value))
    simp only [Tracked.slot, Watch.mk.injEq] at same
    refine absurd (pathAt_inj rootOk.1 (fun name named => ?_) same.2) (absent entry member)
    rcases List.mem_append.mp named with inEntry | inQ
    · exact m.valid member name inEntry
    · exact validQ name inQ

/-- No slot holds the next descriptor the instance hands out. -/
theorem Cached.findWatch_next (m : Cached r w table) :
    findWatch w.wlCache (w.kernel.inotify.lastWd + 1) < 0 := by
  have wf := m.built.wellFormed
  rcases findWatch_refines wf (by omega : (0 : Int) ≤ w.kernel.inotify.lastWd + 1) with
    ⟨miss, -⟩ | ⟨j, p, -, -, value⟩
  · omega
  · obtain ⟨entry, member, same⟩ := List.mem_map.mp (m.slots.subset ((cacheMap_eq_some wf).mp value))
    simp only [Tracked.slot, Watch.mk.injEq] at same
    have := (m.fresh entry member).2.1
    omega

/-- No watch is on an inode outside the table. -/
theorem Cached.unwatched (m : Cached r w table) {ino : Ino} (absent : ino ∉ table.map Tracked.ino) :
    w.kernel.inotify.watches.find? (fun watch => watch.ino == ino) = none := by
  refine List.find?_eq_none.mpr fun watch held same => absent ?_
  obtain ⟨entry, member, keyed⟩ := List.mem_map.mp (m.watches.subset (List.mem_map_of_mem KWatch.key held))
  simp only [KWatch.key, Tracked.key, Prod.mk.injEq] at keyed
  simp only [beq_iff_eq] at same
  exact List.mem_map.mpr ⟨entry, member, keyed.2.trans same⟩

/-- The next inode the kernel hands out is in no entry. -/
theorem Cached.next_untracked (m : Cached r w table) : w.kernel.nextIno ∉ table.map Tracked.ino := fun named => by
  obtain ⟨entry, member, same⟩ := List.mem_map.mp named
  exact Nat.lt_irrefl _ (same ▸ (m.fresh entry member).2.2)

/-- No watch is on the next inode the kernel hands out. -/
theorem Cached.unwatched_next (m : Cached r w table) :
    w.kernel.inotify.watches.find? (fun watch => watch.ino == w.kernel.nextIno) = none :=
  m.unwatched m.next_untracked

/-- Each kernel watch has an active slot and each active slot a kernel watch: no watch is
leaked and none is missing. -/
theorem Cached.watches_slots (m : Cached r w table) :
    (w.kernel.inotify.watches.map KWatch.wd).Perm ((activeSlots w.wlCache).map Watch.wd) := by
  have keys := m.watches.map Prod.fst
  have slots := m.slots.map Watch.wd
  simp only [List.map_map] at keys slots
  exact keys.trans slots.symm

/-- The mirror is the consistency of the cache with the tree. -/
theorem Mirror.consistent (m : Mirror r w table) : Consistent w := by
  unfold Consistent
  refine ((m.slots.map _).trans ?_).trans (m.monitoredDirs_perm.map some).symm
  rw [List.map_map, List.map_map]
  exact .of_eq (List.map_congr_left fun entry member => m.slotDir_eq member)

/-- A directory strictly below the root is not a root. -/
theorem Cached.isRootDirPath_of_ne (m : Cached r w table) {p : Path} (differ : p ≠ r) :
    isRootDirPath w.roots p = false := by
  simp [isRootDirPath, findRootDirPath, m.roots, Ne.symm differ]

theorem Cached.isRootDirPath_root (m : Cached r w table) : isRootDirPath w.roots r = true := by
  simp [isRootDirPath, findRootDirPath, m.roots]

theorem Cached.not_root (m : Cached r w table) (rootOk : RootName r) {names : List Path}
    (nonempty : names ≠ []) (valid : ∀ name ∈ names, validName name = true) :
    isRootDirPath w.roots (pathAt r names) = false :=
  m.isRootDirPath_of_ne (pathAt_ne_root rootOk.1 nonempty valid)

/-- The inodes of the table are distinct, so taking an entry off it is filtering by inode. -/
theorem Cached.erase_eq_filter (m : Cached r w table) {gone : Tracked} (member : gone ∈ table) :
    table.erase gone = table.filter fun entry => entry.ino != gone.ino := by
  rw [(List.Nodup.of_map Tracked.ino m.distinct.2).erase_eq_filter]
  refine List.filter_congr fun entry kept => ?_
  by_cases same : entry = gone
  · simp [same]
  · have apart : entry.ino ≠ gone.ino := fun inos => same (List.inj_on_of_nodup_map m.distinct.2 kept member inos)
    rw [bne_iff_ne.mpr same, bne_iff_ne.mpr apart]

/-! The table after the program handles one call. -/

/-- The walk's callback on a directory no watch is on: a watch under the next descriptor
and a slot under its pathname, added to the table. -/
theorem Cached.added (m : Cached r w table) {pos : List Path} {ino nextIno : Ino}
    (unwatched : ino ∉ table.map Tracked.ino) (born : ino < nextIno) (grown : w.kernel.nextIno ≤ nextIno)
    (fits : (pathAt r pos).length < pathMax) (fs : Fs) (cookie : UInt32) (generation : Nat)
    (queue : List InotifyEvent) :
    Cached r
      { wlCache := (addWatchToCache w.wlCache (w.kernel.inotify.lastWd + 1) (pathAt r pos)).1
        roots := w.roots
        kernel :=
          { fs := fs, nextIno := nextIno, nextCookie := cookie
            inotify :=
              { generation := generation, queue := queue, lastWd := w.kernel.inotify.lastWd + 1
                watches := w.kernel.inotify.watches ++ [⟨w.kernel.inotify.lastWd + 1, ino,
                  traverseFlags w.roots (pathAt r pos) ||| inOnlydir⟩] } } }
      (table ++ [⟨pos, ino, w.kernel.inotify.lastWd + 1⟩]) where
  roots := m.roots
  slots := by
    refine (activeSlots_addWatchToCache m.built.wellFormed (by omega) _).trans ?_
    rw [strncpy_of_lt fits, List.map_append]
    exact ((m.slots.cons _).trans (List.perm_append_singleton _ _).symm)
  watches := by
    rw [List.map_append, List.map_append]
    exact m.watches.append_right _
  selects := by
    simp only [List.mem_append, List.mem_singleton]
    rintro watch (held | rfl)
    · exact m.selects watch held
    · exact selects_traverseFlags _ _
  distinct := by
    simp only [List.map_append, List.map_singleton, List.nodup_append, List.nodup_singleton,
      List.disjoint_singleton, List.mem_map, not_exists, not_and]
    refine ⟨⟨m.distinct.1, trivial, fun entry member same => ?_⟩,
      ⟨m.distinct.2, trivial, fun entry member same => unwatched (List.mem_map.mpr ⟨entry, member, same⟩)⟩⟩
    have := (m.fresh entry member).2.1
    omega
  fresh := by
    simp only [List.mem_append, List.mem_singleton]
    rintro entry (member | rfl)
    · obtain ⟨positive, issued, old⟩ := m.fresh entry member
      exact ⟨positive, by push_cast; omega, lt_of_lt_of_le old grown⟩
    · exact ⟨by dsimp only; omega, by simp, born⟩
  built := .add _ m.built (by omega) m.findWatch_next
  short := short_addWatchToCache m.short fits
  rootSelf := by
    simp only [List.mem_append, List.mem_singleton]
    rintro entry (member | rfl) away watch (held | rfl) same
    · exact m.rootSelf entry member away watch held same
    · exact absurd (List.mem_map.mpr ⟨entry, member, same.symm⟩) unwatched
    · obtain ⟨other, member, keyed⟩ := List.mem_map.mp (m.watches.subset (List.mem_map_of_mem KWatch.key held))
      simp only [KWatch.key, Tracked.key, Prod.mk.injEq] at keyed
      exact absurd (List.mem_map.mpr ⟨other, member, keyed.2.trans same⟩) unwatched
    · exact traverseFlags_moveSelf (m.isRootDirPath_of_ne away)
  rootMoves := by
    simp only [List.mem_append, List.mem_singleton]
    rintro entry (member | rfl) atRoot watch (held | rfl) same
    · exact m.rootMoves entry member atRoot watch held same
    · exact absurd (List.mem_map.mpr ⟨entry, member, same.symm⟩) unwatched
    · obtain ⟨other, member, keyed⟩ := List.mem_map.mp (m.watches.subset (List.mem_map_of_mem KWatch.key held))
      simp only [KWatch.key, Tracked.key, Prod.mk.injEq] at keyed
      exact absurd (List.mem_map.mpr ⟨other, member, keyed.2.trans same⟩) unwatched
    · dsimp only at atRoot ⊢
      rw [atRoot]
      exact traverseFlags_moveSelf_of_root m.isRootDirPath_root

/-- The program's walk of a new, empty directory at `pos` adds it to the table, under the
next descriptor and the next inode. -/
theorem Mirror.created (m : Mirror r w table) {fs : Fs} {pos : List Path} {rootDir : Dir}
    (looked : fs.lookup r = some rootDir)
    (grown : rootDir.positions.Perm (table.map Tracked.place ++ [(pos, w.kernel.nextIno)]))
    (fits : (pathAt r pos).length < pathMax) (cookie : UInt32) (generation : Nat) (queue : List InotifyEvent) :
    Mirror r
      { wlCache := (addWatchToCache w.wlCache (w.kernel.inotify.lastWd + 1) (pathAt r pos)).1
        roots := w.roots
        kernel :=
          { fs := fs, nextIno := w.kernel.nextIno + 1, nextCookie := cookie
            inotify :=
              { generation := generation, queue := queue, lastWd := w.kernel.inotify.lastWd + 1
                watches := w.kernel.inotify.watches ++ [⟨w.kernel.inotify.lastWd + 1, w.kernel.nextIno,
                  traverseFlags w.roots (pathAt r pos) ||| inOnlydir⟩] } } }
      (table ++ [⟨pos, w.kernel.nextIno, w.kernel.inotify.lastWd + 1⟩]) where
  toCached := m.added m.next_untracked (Nat.lt_succ_self _) (Nat.le_succ _) fits fs cookie generation queue
  tree := ⟨rootDir, looked, by simpa [Tracked.place] using grown⟩

/-- The walk's callback on a directory that no watch is on and no slot is left for: a
watch under the next descriptor, cached in a free slot. -/
theorem traverseTree_of_unwatched {pathname : Path} {dir : Dir} (short : pathname.length < pathMax)
    (resolves : w.kernel.fs.lookup pathname = some dir)
    (unwatched : w.kernel.inotify.watches.find? (fun watch => watch.ino == dir.ino) = none)
    (uncached : findWatch w.wlCache (w.kernel.inotify.lastWd + 1) < 0) :
    traverseTree w pathname = .ok { w with
      kernel := { w.kernel with inotify := { w.kernel.inotify with
        watches := w.kernel.inotify.watches ++
          [⟨w.kernel.inotify.lastWd + 1, dir.ino, traverseFlags w.roots pathname ||| inOnlydir⟩],
        lastWd := w.kernel.inotify.lastWd + 1 } }
      wlCache := (addWatchToCache w.wlCache (w.kernel.inotify.lastWd + 1) pathname).1 } := by
  rw [traverseTree, Kernel.inotifyAddWatch_of_unwatched short resolves unwatched]
  simp [Int.not_le.mpr uncached]

/-- The walk over positions below the root that resolve to directories no entry holds,
at pathnames shorter than `PATH_MAX`: each gets the next descriptor and a slot, in
order, and the tree, the inodes and the queue are kept. -/
theorem Cached.walk (m : Cached r w table) (todo : List (List Path × Ino))
    (valid : ∀ entry ∈ todo, (∃ dir, w.kernel.fs.lookup (pathAt r entry.1) = some dir ∧ dir.ino = entry.2) ∧
      (pathAt r entry.1).length < pathMax ∧ entry.2 < w.kernel.nextIno)
    (distinct : (table.map Tracked.ino ++ todo.map Prod.snd).Nodup) :
    ∃ w' table', (todo.map (walkEntry r)).foldlM (fun w entry => traverseTree w entry.1) w = .ok w' ∧
      Cached r w' table' ∧ table'.map Tracked.place = table.map Tracked.place ++ todo ∧
      w'.kernel.fs = w.kernel.fs ∧ w'.kernel.nextIno = w.kernel.nextIno ∧
      w'.kernel.inotify.queue = w.kernel.inotify.queue := by
  induction todo generalizing w table with
  | nil => exact ⟨w, table, rfl, m, by simp, rfl, rfl, rfl⟩
  | cons entry rest ih =>
    obtain ⟨pos, ino⟩ := entry
    obtain ⟨⟨dir, resolves, rfl⟩, fits, born⟩ := valid (pos, ino) (List.mem_cons_self _ _)
    have unwatched : dir.ino ∉ table.map Tracked.ino := fun named =>
      (List.nodup_append.mp distinct).2.2 named (List.mem_cons_self _ _)
    have m₁ := m.added unwatched born (le_refl _) fits w.kernel.fs w.kernel.nextCookie
      w.kernel.inotify.generation w.kernel.inotify.queue
    obtain ⟨w', table', folded, m', places, fs', next', queue'⟩ := ih m₁
      (fun other member => valid other (List.mem_cons_of_mem _ member)) (by simpa using distinct)
    refine ⟨w', table', ?_, m', by simp [places, Tracked.place], fs', next', queue'⟩
    rw [List.map_cons, List.foldlM_cons, walkEntry,
      traverseTree_of_unwatched fits resolves (m.unwatched unwatched) m.findWatch_next]
    exact folded

/-- A table entry's place in the tree goes with it. -/
theorem perm_map_erase {places : List (List Path × Ino)} {table : List Tracked} {gone : Tracked}
    (member : gone ∈ table) (shrunk : (places ++ [gone.place]).Perm (table.map Tracked.place)) :
    places.Perm ((table.erase gone).map Tracked.place) :=
  (List.perm_append_right_iff _).mp (shrunk.trans
    (((List.perm_cons_erase member).map _).trans (List.perm_append_singleton _ _).symm))

/-- Clearing the slot of a directory whose watch the kernel dropped takes it off the
table. -/
theorem Cached.removed (m : Cached r w table) {gone : Tracked} (member : gone ∈ table) {j : Nat}
    (hit : w.wlCache[j]? = some (gone.slot r)) (fs : Fs) (cookie : UInt32) (generation : Nat)
    (queue : List InotifyEvent) :
    Cached r
      { wlCache := markCacheSlotEmpty w.wlCache j
        roots := w.roots
        kernel :=
          { fs := fs, nextIno := w.kernel.nextIno, nextCookie := cookie
            inotify :=
              { generation := generation, queue := queue, lastWd := w.kernel.inotify.lastWd
                watches := w.kernel.inotify.watches.filter fun other => other.ino != gone.ino } } }
      (table.erase gone) where
  roots := m.roots
  slots := (List.perm_cons _).mp ((activeSlots_markCacheSlotEmpty hit (le_of_lt (m.fresh gone member).1)).symm.trans
    (m.slots.trans ((List.perm_cons_erase member).map _)))
  watches := by
    rw [m.erase_eq_filter member]
    simpa [List.filter_map, Function.comp_def, KWatch.key, Tracked.key] using
      m.watches.filter fun key : Int × Ino => key.2 != gone.ino
  selects := fun watch held => m.selects watch (List.mem_of_mem_filter held)
  distinct := ⟨m.distinct.1.sublist ((List.erase_sublist _ _).map _),
    m.distinct.2.sublist ((List.erase_sublist _ _).map _)⟩
  fresh := fun entry kept => m.fresh entry (List.mem_of_mem_erase kept)
  built := .mark _ m.built
  short := short_of_cleared (cleared_markCacheSlotEmpty _ _) m.short
  rootSelf := fun entry kept away watch held =>
    m.rootSelf entry (List.mem_of_mem_erase kept) away watch (List.mem_of_mem_filter held)
  rootMoves := fun entry kept atRoot watch held =>
    m.rootMoves entry (List.mem_of_mem_erase kept) atRoot watch (List.mem_of_mem_filter held)

/-- The rewrite of the cached pathnames after the rename of `r/srel/sleaf` to
`r/drel/dleaf` moves every directory of the table along. -/
theorem Cached.moved (m : Cached r w table) (rootOk : RootName r) {srel drel : List Path} {sleaf dleaf : Path}
    (valid : ∀ entry ∈ table, ∀ name ∈ entry.pos, validName name = true)
    (validSrc : ∀ name ∈ srel ++ [sleaf], validName name = true)
    (validDst : ∀ name ∈ drel ++ [dleaf], validName name = true)
    (srcShort : (pathAt r (srel ++ [sleaf])).length < pathMax)
    (fits : ∀ entry ∈ table, (pathAt r (movePos (srel ++ [sleaf]) (drel ++ [dleaf]) entry.pos)).length < pathMax)
    (fs : Fs) (cookie : UInt32) (generation : Nat) (queue : List InotifyEvent) :
    Cached r
      { wlCache := rewriteCachedPaths w.wlCache (pathAt r srel) sleaf (pathAt r drel) dleaf
        roots := w.roots
        kernel :=
          { fs := fs, nextIno := w.kernel.nextIno, nextCookie := cookie
            inotify :=
              { generation := generation, queue := queue, lastWd := w.kernel.inotify.lastWd
                watches := w.kernel.inotify.watches } } }
      (table.map (Tracked.move (srel ++ [sleaf]) (drel ++ [dleaf]))) where
  roots := m.roots
  slots := by
    have validS : ∀ name ∈ srel, validName name = true := fun name member =>
      validSrc name (List.mem_append_left _ member)
    have validD : ∀ name ∈ drel, validName name = true := fun name member =>
      validDst name (List.mem_append_left _ member)
    rw [activeSlots_rewriteCachedPaths, ← pathAt_concat rootOk.1 validS, ← pathAt_concat rootOk.1 validD]
    refine (m.slots.map _).trans (.of_eq ?_)
    rw [List.map_map, List.map_map]
    refine List.map_congr_left fun entry member => rewriteSlot_slot rootOk (fun name named => ?_) validDst
      srcShort (fits entry member)
    rcases List.mem_append.mp named with inSrc | inPos
    · exact validSrc name inSrc
    · exact valid entry member name inPos
  watches := by simpa [Function.comp_def, Tracked.key, Tracked.move] using m.watches
  selects := m.selects
  distinct := by simpa [Function.comp_def, Tracked.move] using m.distinct
  fresh := by
    simp only [List.forall_mem_map]
    exact m.fresh
  built := .rewrite _ _ _ _ m.built
  short := short_rewriteCachedPaths m.short _ _ _ _
  rootSelf := by
    simp only [List.forall_mem_map]
    intro entry member away
    refine m.rootSelf entry member fun atRoot => away ?_
    have top : entry.pos = [] := pathAt_inj rootOk.1 (by simpa using valid entry member) atRoot
    rw [Tracked.move, top, movePos_of_outside (by simp)]
    rfl
  rootMoves := by
    simp only [List.forall_mem_map]
    intro entry member atRoot
    refine m.rootMoves entry member ?_
    by_cases below : srel ++ [sleaf] <+: entry.pos
    · rw [Tracked.move, movePos_of_below below] at atRoot
      refine absurd atRoot (pathAt_ne_root rootOk.1 (by simp) fun name named => ?_)
      rcases List.mem_append.mp named with inDst | inRest
      · exact validDst name inDst
      · exact valid entry member name (List.mem_of_mem_drop inRest)
    · rwa [Tracked.move, movePos_of_outside below] at atRoot

end Mirror

end InotifyDtree
