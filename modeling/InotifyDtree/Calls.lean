import InotifyDtree.Mirror
import InotifyDtree.Chunking

set_option autoImplicit false

/- The records of one call of another process below the root, and the program handling
them. Each call queues its records while nothing else is queued; the handler is handed
them as one buffer, which main's loop amounts to whatever the chunking of its `read()`s.
After `mkdir`, `rmdir` or `rename` the cache mirrors the tree again. -/
namespace InotifyDtree

/-! The handler on the records of one call. -/

section Records

variable {cfg : Config} {w : World} {ev : InotifyEvent} {more : List InotifyEvent} {bufSize : Int}
  {firstTry : Bool}

theorem readSlot_of_getElem? {wlCache : List Watch} {j : Nat} {slot : Watch} (hit : wlCache[j]? = some slot) :
    readSlot wlCache (some j) = .ok (j, slot) := by
  have nonneg : (0 : Int) ≤ j := Int.ofNat_nonneg j
  simp [readSlot, hit, nonneg]

/-- A record on a cached watch goes to the dispatch with its slot. -/
theorem processNextInotifyEvent_of_slot {j : Nat} (watched : ev.wd ≠ -1)
    (notIgnored : hasAny ev.mask inIgnored = false) (found : findWatch w.wlCache ev.wd = j) :
    processNextInotifyEvent cfg w (ev :: more) bufSize firstTry =
      dispatchEvent cfg w (ev :: more) bufSize firstTry (some j) ev := by
  have nonneg : (0 : Int) ≤ j := Int.ofNat_nonneg j
  have notMiss : (j : Int) ≠ -1 := by omega
  simp [processNextInotifyEvent, headRecord, watched, notIgnored, findWatchChecked, found, nonneg, notMiss]

/-- A record without a watch descriptor goes to the dispatch without a slot. -/
theorem processNextInotifyEvent_of_unwatched (unwatched : ev.wd = -1) :
    processNextInotifyEvent cfg w (ev :: more) bufSize firstTry =
      dispatchEvent cfg w (ev :: more) bufSize firstTry none ev := by
  simp [processNextInotifyEvent, headRecord, unwatched]

/-- A record whose watch the cache lacks rebuilds the cache, unless `-a` makes it abort. -/
theorem processNextInotifyEvent_of_miss (noAbort : cfg.abortOnCacheProblem = false) (watched : ev.wd ≠ -1)
    (notIgnored : hasAny ev.mask inIgnored = false) (missed : findWatch w.wlCache ev.wd = -1) :
    processNextInotifyEvent cfg w (ev :: more) bufSize firstTry = discardBuffer w := by
  simp [processNextInotifyEvent, headRecord, watched, notIgnored, findWatchChecked, missed, noAbort]

/-- An `IN_IGNORED` record changes nothing. -/
theorem processNextInotifyEvent_ignored (ignored : ev.mask = inIgnored) :
    processNextInotifyEvent cfg w (ev :: more) bufSize firstTry = .ok (w, ev.size) := by
  have selfIgnored : hasAny inIgnored inIgnored = true := by decide
  simp only [processNextInotifyEvent, headRecord, dispatchEvent, ignored, selfIgnored, Bool.not_true,
    Bool.and_false, except_ok_bind]
  rw [if_neg (by decide), if_neg (by decide), if_neg (by decide), if_neg (by decide),
    if_neg (by decide), if_neg (by decide), if_neg (by decide)]
  rfl

variable (slot : Option Int)

theorem dispatchEvent_created (mask : ev.mask = inCreate ||| inIsdir) :
    dispatchEvent cfg w (ev :: more) bufSize firstTry slot ev = directoryCreated w slot ev := by
  rw [dispatchEvent, mask, if_pos (by decide)]

theorem dispatchEvent_deleteSelf (mask : ev.mask = inDeleteSelf) :
    dispatchEvent cfg w (ev :: more) bufSize firstTry slot ev = directoryDeleted w slot ev := by
  rw [dispatchEvent, mask, if_neg (by decide), if_pos (by decide)]

theorem dispatchEvent_movedFrom (mask : ev.mask = inMovedFrom ||| inIsdir) :
    dispatchEvent cfg w (ev :: more) bufSize firstTry slot ev =
      directoryMovedFrom cfg w (ev :: more) bufSize firstTry slot ev := by
  rw [dispatchEvent, mask, if_neg (by decide), if_neg (by decide), if_pos (by decide)]

theorem dispatchEvent_movedTo (mask : ev.mask = inMovedTo ||| inIsdir) :
    dispatchEvent cfg w (ev :: more) bufSize firstTry slot ev = directoryCreated w slot ev := by
  rw [dispatchEvent, mask, if_pos (by decide)]

theorem dispatchEvent_overflow (mask : ev.mask = inQOverflow) :
    dispatchEvent cfg w (ev :: more) bufSize firstTry slot ev = discardBuffer w := by
  rw [dispatchEvent, mask, if_neg (by decide), if_neg (by decide), if_neg (by decide), if_pos (by decide)]

theorem dispatchEvent_moveSelf (mask : ev.mask = inMoveSelf) :
    dispatchEvent cfg w (ev :: more) bufSize firstTry slot ev = rootMoved w slot ev := by
  rw [dispatchEvent, mask, if_neg (by decide), if_neg (by decide), if_neg (by decide),
    if_neg (by decide), if_neg (by decide), if_pos (by decide)]

omit slot in
theorem findWatchChecked_of_found {wlCache : List Watch} {wd : Int} {j : Nat} (found : findWatch wlCache wd = j) :
    findWatchChecked cfg wlCache wd = .ok j := by
  rw [findWatchChecked, found, if_pos (Int.ofNat_nonneg j)]

omit slot in
/-- An `IN_MOVED_FROM` and the `IN_MOVED_TO` with its cookie, both on cached watches and
read whole: the rename inside the trees, which rewrites the cached pathnames. -/
theorem processNextInotifyEvent_renamed {next : InotifyEvent} {jF jT : Nat} {fromSlot toSlot : Watch}
    (watched : ev.wd ≠ -1) (maskFrom : ev.mask = inMovedFrom ||| inIsdir)
    (foundFrom : findWatch w.wlCache ev.wd = jF) (hitFrom : w.wlCache[jF]? = some fromSlot)
    (maskTo : next.mask = inMovedTo ||| inIsdir) (paired : next.cookie = ev.cookie)
    (foundTo : findWatch w.wlCache next.wd = jT) (hitTo : w.wlCache[jT]? = some toSlot) :
    processNextInotifyEvent cfg w (ev :: next :: more) (byteSize (ev :: next :: more)) false =
      .ok ({ w with wlCache := rewriteCachedPaths w.wlCache fromSlot.path ev.name toSlot.path next.name },
        ev.size + next.size) := by
  have selected : hasAny next.mask inMovedTo = true := by rw [maskTo]; decide
  have notMiss : (jT : Int) ≠ -1 := by omega
  rw [processNextInotifyEvent_of_slot watched (by rw [maskFrom]; decide) foundFrom,
    dispatchEvent_movedFrom _ maskFrom]
  simp only [directoryMovedFrom, lookahead_whole, except_ok_bind, List.head?_cons, selected, paired,
    beq_self_eq_true, Bool.and_self, if_true, renamedWithin, findWatchChecked_of_found foundTo, notMiss,
    if_false, readSlot_of_getElem? hitFrom, readSlot_of_getElem? hitTo]
  rfl

omit slot in
/-- An `IN_MOVE_SELF` on a cached watch whose pathname is not a root's changes nothing. -/
theorem processNextInotifyEvent_moveSelf {j : Nat} {slot : Watch} (watched : ev.wd ≠ -1)
    (mask : ev.mask = inMoveSelf) (found : findWatch w.wlCache ev.wd = j) (hit : w.wlCache[j]? = some slot)
    (notRoot : isRootDirPath w.roots slot.path = false) :
    processNextInotifyEvent cfg w (ev :: more) bufSize firstTry = .ok (w, ev.size) := by
  rw [processNextInotifyEvent_of_slot watched (by rw [mask]; decide) found, dispatchEvent_moveSelf _ mask]
  simp only [rootMoved, readSlot_of_getElem? hit, except_ok_bind, notRoot]
  rfl

end Records

/-- The walk of a new, empty directory that no watch is on: one watch, cached in a free
slot. -/
theorem watchSubtree_empty {w : World} {path : Path} {ino : Ino} (short : path.length < pathMax)
    (resolves : w.kernel.fs.lookup path = some (.mk ino []))
    (unwatched : w.kernel.inotify.watches.find? (fun watch => watch.ino == ino) = none)
    (uncached : findWatch w.wlCache (w.kernel.inotify.lastWd + 1) < 0) :
    watchSubtree w path = .ok { w with
      kernel := { w.kernel with inotify := { w.kernel.inotify with
        watches := w.kernel.inotify.watches ++
          [⟨w.kernel.inotify.lastWd + 1, ino, traverseFlags w.roots path ||| inOnlydir⟩],
        lastWd := w.kernel.inotify.lastWd + 1 } }
      wlCache := (addWatchToCache w.wlCache (w.kernel.inotify.lastWd + 1) path).1 } := by
  have walked : nftw w.kernel.fs path = [(path, ino)] := by
    simp [nftw, resolves, Dir.walk, walkEntries]
  simp only [watchSubtree, watchDir, walked, List.foldlM_cons, List.foldlM_nil]
  rw [traverseTree_of_unwatched short resolves unwatched uncached]
  rfl

theorem Inotify.notify_of_watch {inst : Inotify} {ino : Ino} {bits extra cookie : UInt32} {name : Path}
    {watch : KWatch} (found : inst.watches.find? (fun watch => watch.ino == ino) = some watch)
    (selected : hasAny watch.mask bits = true) :
    inst.notify ino bits extra cookie name = inst.enqueue (mkEvent watch.wd (bits ||| extra) cookie name) := by
  simp [Inotify.notify, found, selected]

/-- A record that differs in its mask from the last one queued is appended. -/
theorem Inotify.enqueue_append {inst : Inotify} {ev : InotifyEvent}
    (differ : ∀ last ∈ inst.queue.getLast?, last.mask ≠ ev.mask) :
    inst.enqueue ev = { inst with queue := inst.queue ++ [ev] } := by
  unfold Inotify.enqueue
  split
  · next last found => simp [differ last found]
  · rfl

theorem Inotify.enqueue_of_nil {inst : Inotify} (empty : inst.queue = []) (ev : InotifyEvent) :
    inst.enqueue ev = { inst with queue := [ev] } := by
  rw [Inotify.enqueue_append (by simp [empty]), empty, List.nil_append]

theorem Inotify.notify_append {inst : Inotify} {ino : Ino} {bits extra cookie : UInt32} {name : Path}
    {watch : KWatch} (found : inst.watches.find? (fun watch => watch.ino == ino) = some watch)
    (selected : hasAny watch.mask bits = true) (differ : ∀ last ∈ inst.queue.getLast?, last.mask ≠ bits ||| extra) :
    inst.notify ino bits extra cookie name =
      { inst with queue := inst.queue ++ [mkEvent watch.wd (bits ||| extra) cookie name] } := by
  rw [Inotify.notify_of_watch found selected, Inotify.enqueue_append differ]

theorem Inotify.notify_of_unselected {inst : Inotify} {ino : Ino} {bits extra cookie : UInt32} {name : Path}
    {watch : KWatch} (found : inst.watches.find? (fun watch => watch.ino == ino) = some watch)
    (unselected : hasAny watch.mask bits = false) : inst.notify ino bits extra cookie name = inst := by
  simp [Inotify.notify, found, unselected]

/-- A report on a watched inode after records of other masks: the watch does not ask for
it, or the record is appended. -/
theorem Inotify.notify_cases {inst : Inotify} (queue : List InotifyEvent) {ino : Ino} {bits extra : UInt32}
    (cookie : UInt32) (name : Path) {watch : KWatch}
    (found : inst.watches.find? (fun watch => watch.ino == ino) = some watch)
    (differ : ∀ last ∈ queue.getLast?, last.mask ≠ bits ||| extra) :
    { inst with queue := queue }.notify ino bits extra cookie name = { inst with queue := queue } ∨
      { inst with queue := queue }.notify ino bits extra cookie name =
        { inst with queue := queue ++ [mkEvent watch.wd (bits ||| extra) cookie name] } := by
  cases selected : hasAny watch.mask bits
  · exact .inl (Inotify.notify_of_unselected found selected)
  · exact .inr (Inotify.notify_append found selected differ)

/-- The deletion of a watched directory, on an empty queue: `IN_DELETE_SELF`, then
`IN_IGNORED` as the watch goes. -/
theorem Inotify.deleteSelf_of_watch {inst : Inotify} {ino : Ino} {watch : KWatch}
    (found : inst.watches.find? (fun watch => watch.ino == ino) = some watch)
    (selected : hasAny watch.mask inDeleteSelf = true)
    (differ : ∀ last ∈ inst.queue.getLast?, last.mask ≠ inDeleteSelf ||| 0) :
    inst.deleteSelf ino = { inst with
      queue := inst.queue ++ [mkEvent watch.wd (inDeleteSelf ||| 0) 0 [], mkEvent watch.wd inIgnored 0 []]
      watches := inst.watches.filter fun other => other.ino != ino } := by
  have ignored : inDeleteSelf ||| 0 ≠ inIgnored := by decide
  simp only [Inotify.deleteSelf, found, Inotify.notify_of_watch found selected,
    @Inotify.enqueue_append _ (mkEvent watch.wd (inDeleteSelf ||| 0) 0 []) differ]
  rw [Inotify.enqueue_append (by simpa [mkEvent] using ignored)]
  simp

/-! One call below the root, its records handed over as one buffer. -/

/-- The records the kernel queues for the calls: a name of at most `NAME_MAX` bytes. -/
theorem size_mkEvent_le (wd : Int) (mask cookie : UInt32) {name : Path} (short : name.length ≤ nameMax) :
    (mkEvent wd mask cookie name).size ≤ eventHeaderSize + nameMax + 1 := by
  simp only [mkEvent, InotifyEvent.size, nameLen, eventHeaderSize, nameMax] at short ⊢
  split <;> omega

/-- A record the handler consumes alone moves the stream on past it. -/
theorem wholeStream_one {cfg : Config} {w w' : World} {ev : InotifyEvent} {more : List InotifyEvent}
    (sized : ev.size ≤ eventHeaderSize + nameMax + 1)
    (handled : processNextInotifyEvent cfg w (ev :: more) (byteSize (ev :: more)) false = .ok (w', ev.size)) :
    wholeStream cfg w (ev :: more) = wholeStream cfg w' more := by
  have kept : (ev.size : Int) ≠ inotifyReadBufLen := by
    simp only [inotifyReadBufLen, eventHeaderSize, nameMax] at sized ⊢
    omega
  exact wholeStream_advanced handled kept (by simp [dropBytes_zero])

theorem wholeStream_ignored {cfg : Config} {w : World} {wd : Int} {more : List InotifyEvent} :
    wholeStream cfg w (mkEvent wd inIgnored 0 [] :: more) = wholeStream cfg w more :=
  wholeStream_one (size_mkEvent_le _ _ _ (by decide)) (processNextInotifyEvent_ignored rfl)

/-- Two records the handler consumes together move the stream on past both. -/
theorem wholeStream_pair {cfg : Config} {w w' : World} {ev next : InotifyEvent} {more : List InotifyEvent}
    (sized : ev.size ≤ eventHeaderSize + nameMax + 1) (nextSized : next.size ≤ eventHeaderSize + nameMax + 1)
    (handled : processNextInotifyEvent cfg w (ev :: next :: more) (byteSize (ev :: next :: more)) false =
      .ok (w', ev.size + next.size)) :
    wholeStream cfg w (ev :: next :: more) = wholeStream cfg w' more := by
  have kept : (ev.size : Int) + next.size ≠ inotifyReadBufLen := by
    simp only [inotifyReadBufLen, eventHeaderSize, nameMax] at sized nextSized ⊢
    omega
  refine wholeStream_advanced handled kept ?_
  rw [show ((ev.size : Int) + next.size).toNat - ev.size = next.size + 0 by omega, dropBytes_cons_size,
    dropBytes_zero]

/-- The kernel once every record queued on the instance has been read. -/
def Kernel.drained (k : Kernel) : Kernel := { k with inotify := { k.inotify with queue := [] } }

/-- Records that only say that a watch is gone: the handler passes over each of them. -/
def Ignorable (records : List InotifyEvent) : Prop := ∀ ev ∈ records, ev = mkEvent ev.wd inIgnored 0 []

theorem ignorable_nil : Ignorable [] := fun _ member => nomatch member

/-- `w'` is `w` after the handler ran: the same tree, inode counter and roots, and nothing
queued but records that a watch is gone (those of its own `inotify_rm_watch()` calls). -/
structure Handled (w w' : World) : Prop where
  fs : w'.kernel.fs = w.kernel.fs
  nextIno : w'.kernel.nextIno = w.kernel.nextIno
  ignorable : Ignorable w'.kernel.inotify.queue
  roots : w'.roots = w.roots

/-- The records of one call, read and handled: records the kernel can write, after which
the cache mirrors the tree and only records that a watch is gone are queued. -/
def Settles (cfg : Config) (r : Path) (w : World) (records : List InotifyEvent) : Prop :=
  KernelSized records ∧
    ∃ w' table', wholeStream cfg w records = .ok w' ∧ Mirror r w' table' ∧ Handled w w'

theorem KernelSized.append {front back : List InotifyEvent} (sizedFront : KernelSized front)
    (sizedBack : KernelSized back) : KernelSized (front ++ back) := fun ev member =>
  (List.mem_append.mp member).elim (sizedFront ev) (sizedBack ev)

/-- One record that the handler consumes alone, after which the cache mirrors the tree. -/
theorem Settles.of_one {cfg : Config} {r : Path} {w w' : World} {table' : List Tracked} {ev : InotifyEvent}
    (sized : ev.size ≤ eventHeaderSize + nameMax + 1)
    (handled : processNextInotifyEvent cfg w [ev] (byteSize [ev]) false = .ok (w', ev.size))
    (m' : Mirror r w' table') (after : Handled w w') : Settles cfg r w [ev] :=
  ⟨by simpa [KernelSized] using sized, w', table', (wholeStream_one sized handled).trans (wholeStream_nil _ _), m',
    after⟩

section Calls

variable {r : Path} {w : World} {table : List Tracked}

/-- The pathname the handler builds for `leaf` in the directory at `rel` below `r`, when it
is shorter than `PATH_MAX`. -/
theorem snprintf_pathAt (rootOk : RootName r) {rel : List Path} (validRel : ∀ name ∈ rel, validName name = true)
    {leaf : Path} (fits : (pathAt r (rel ++ [leaf])).length < pathMax) :
    snprintf (pathMax + nameMax) (pathAt r rel ++ '/' :: leaf) = pathAt r (rel ++ [leaf]) := by
  rw [← pathAt_concat rootOk.1 validRel]
  exact snprintf_of_lt (by omega)

/-- A record that a directory appeared as `leaf` in the tracked directory `e`, whose
pathname is shorter than `PATH_MAX`: `directoryCreated` walks that pathname unless a slot
holds it already, whatever the kernel and whatever follows. -/
theorem Mirror.appeared_walk (m : Mirror r w table) (cfg : Config) (rootOk : RootName r) {e : Tracked}
    (member : e ∈ table) {mask : UInt32} (created : mask = inCreate ||| inIsdir ∨ mask = inMovedTo ||| inIsdir)
    (cookie : UInt32) {leaf : Path} (fits : (pathAt r (e.pos ++ [leaf])).length < pathMax) (k : Kernel)
    (more : List InotifyEvent) :
    processNextInotifyEvent cfg { w with kernel := k } (mkEvent e.wd mask cookie leaf :: more)
        (byteSize (mkEvent e.wd mask cookie leaf :: more)) false =
      if pathnameInCache w.wlCache (pathAt r (e.pos ++ [leaf])) then
        .ok ({ w with kernel := k }, ((mkEvent e.wd mask cookie leaf).size : Int))
      else watchSubtree { w with kernel := k } (pathAt r (e.pos ++ [leaf])) >>= fun w' =>
        pure (w', ((mkEvent e.wd mask cookie leaf).size : Int)) := by
  obtain ⟨j, found, hit⟩ := m.slotOf member
  have positive := (m.fresh e member).1
  have dispatched : ∀ slot, dispatchEvent cfg { w with kernel := k } (mkEvent e.wd mask cookie leaf :: more)
      (byteSize (mkEvent e.wd mask cookie leaf :: more)) false slot (mkEvent e.wd mask cookie leaf) =
        directoryCreated { w with kernel := k } slot (mkEvent e.wd mask cookie leaf) := by
    rcases created with rfl | rfl
    · exact fun slot => dispatchEvent_created slot rfl
    · exact fun slot => dispatchEvent_movedTo slot rfl
  rw [processNextInotifyEvent_of_slot (by simp [mkEvent]; omega)
    (by rcases created with rfl | rfl <;> simp only [mkEvent] <;> decide) found, dispatched]
  simp only [directoryCreated, readSlot_of_getElem? hit, except_ok_bind, Tracked.slot, mkEvent,
    snprintf_pathAt rootOk (m.valid member) fits]
  split <;> rfl

/-- A record that a directory appeared as `leaf` in the tracked directory `e`, alone in
what was read, where no slot holds its pathname: `directoryCreated` walks that pathname,
whatever the kernel. -/
theorem Mirror.appeared (m : Mirror r w table) (cfg : Config) (rootOk : RootName r) {e : Tracked}
    (member : e ∈ table) {mask : UInt32} (created : mask = inCreate ||| inIsdir ∨ mask = inMovedTo ||| inIsdir)
    (cookie : UInt32) {leaf : Path} (validLeaf : validName leaf = true)
    (fits : (pathAt r (e.pos ++ [leaf])).length < pathMax) (absent : ∀ entry ∈ table, entry.pos ≠ e.pos ++ [leaf])
    (k : Kernel) :
    processNextInotifyEvent cfg { w with kernel := k } [mkEvent e.wd mask cookie leaf]
        (byteSize [mkEvent e.wd mask cookie leaf]) false =
      watchSubtree { w with kernel := k } (pathAt r (e.pos ++ [leaf])) >>= fun w' =>
        pure (w', ((mkEvent e.wd mask cookie leaf).size : Int)) := by
  have validNew : ∀ name ∈ e.pos ++ [leaf], validName name = true := by
    simpa [List.mem_append, or_imp, forall_and] using ⟨m.valid member, validLeaf⟩
  rw [m.appeared_walk cfg rootOk member created cookie fits k [], m.not_cached rootOk validNew absent]
  rfl

/-- A slot holds the pathname of every directory of the table. -/
theorem Cached.cached (m : Cached r w table) {entry : Tracked} (member : entry ∈ table) :
    pathnameInCache w.wlCache (pathAt r entry.pos) = true := by
  have wf := m.built.wellFormed
  have active : entry.slot r ∈ activeSlots w.wlCache := m.slots.symm.subset (List.mem_map_of_mem _ member)
  rcases pathnameToCacheSlot_refines wf (pathAt r entry.pos) with ⟨-, absent⟩ | ⟨j, wd, found, -, -⟩
  · exact absurd ((cacheMap_eq_some wf).mpr active) (absent entry.wd)
  · simp [pathnameInCache, found, Int.ofNat_nonneg]

/-- The records of the deletion of a tracked directory below `r`, `IN_DELETE_SELF` and then
`IN_IGNORED`: the handler clears the directory's slot and passes over the second, whatever
the kernel. -/
theorem Cached.deleted (m : Cached r w table) (cfg : Config) (rootOk : RootName r) {gone : Tracked}
    (member : gone ∈ table) (nonempty : gone.pos ≠ []) (valid : ∀ name ∈ gone.pos, validName name = true) :
    KernelSized [mkEvent gone.wd (inDeleteSelf ||| 0) 0 [], mkEvent gone.wd inIgnored 0 []] ∧
      ∃ j : Nat, w.wlCache[j]? = some (gone.slot r) ∧ ∀ k : Kernel,
        wholeStream cfg { w with kernel := k } [mkEvent gone.wd (inDeleteSelf ||| 0) 0 [], mkEvent gone.wd inIgnored 0 []] =
          .ok { w with kernel := k, wlCache := markCacheSlotEmpty w.wlCache j } := by
  obtain ⟨j, found, hit⟩ := m.slotOf member
  have positive := (m.fresh gone member).1
  have sized := @size_mkEvent_le gone.wd (inDeleteSelf ||| 0) 0 [] (by decide)
  refine ⟨by simpa [KernelSized] using ⟨sized, @size_mkEvent_le gone.wd inIgnored 0 [] (by decide)⟩, j, hit,
    fun k => (wholeStream_one sized ?_).trans (wholeStream_ignored.trans (wholeStream_nil _ _))⟩
  rw [processNextInotifyEvent_of_slot (by simp [mkEvent]; omega) (by simp only [mkEvent]; decide) found,
    dispatchEvent_deleteSelf _ (by simp only [mkEvent]; decide)]
  simp only [directoryDeleted, readSlot_of_getElem? hit, except_ok_bind, Tracked.slot,
    m.not_root rootOk nonempty valid]
  rfl

/-- A report that the directory `e` tracked below `r` moved, on the inode of a watch with its
descriptor, after records of other masks: the watch does not ask for it, or its
`IN_MOVE_SELF` is queued and the handler passes over it, whatever the kernel. -/
theorem Cached.moveSelf_passed (m : Cached r w table) (cfg : Config) (rootOk : RootName r) {e : Tracked}
    (member : e ∈ table) (nonempty : e.pos ≠ []) (valid : ∀ name ∈ e.pos, validName name = true)
    {inst : Inotify} {ino : Ino} {watch : KWatch}
    (found : inst.watches.find? (fun watch => watch.ino == ino) = some watch) (wd : watch.wd = e.wd)
    (queue : List InotifyEvent) (differ : ∀ last ∈ queue.getLast?, last.mask ≠ inMoveSelf ||| 0)
    (notDeleted : ∀ last ∈ queue.getLast?, last.mask ≠ inDeleteSelf ||| 0) :
    ∃ ms : List InotifyEvent,
      { inst with queue := queue }.notify ino inMoveSelf 0 0 [] = { inst with queue := queue ++ ms } ∧
      KernelSized ms ∧ (∀ last ∈ (queue ++ ms).getLast?, last.mask ≠ inDeleteSelf ||| 0) ∧
      ∀ (k : Kernel) (more : List InotifyEvent),
        wholeStream cfg { w with kernel := k } (ms ++ more) = wholeStream cfg { w with kernel := k } more := by
  rcases Inotify.notify_cases queue 0 [] found differ with same | appended
  · exact ⟨[], by rw [same, List.append_nil], by simp [KernelSized], by rwa [List.append_nil],
      fun k more => rfl⟩
  · obtain ⟨j, foundSlot, hit⟩ := m.slotOf member
    have positive := (m.fresh e member).1
    have sized := @size_mkEvent_le e.wd (inMoveSelf ||| 0) 0 [] (by decide)
    rw [wd] at appended
    refine ⟨[mkEvent e.wd (inMoveSelf ||| 0) 0 []], appended, by simpa [KernelSized] using sized,
      by simp only [List.getLast?_concat, Option.mem_def, Option.some.injEq, forall_eq', mkEvent]; decide,
      fun k more => wholeStream_one sized ?_⟩
    exact processNextInotifyEvent_moveSelf (by simp [mkEvent]; omega) (by simp only [mkEvent]; decide) foundSlot hit
      (m.not_root rootOk nonempty valid)

/-- `mkdir` of `r/rel/leaf`: its `IN_CREATE` on the parent's watch walks the new directory,
which gets a watch and a slot under its pathname. -/
theorem Mirror.mkdir (cfg : Config) (rootOk : RootName r) (m : Mirror r w table)
    (quiet : w.kernel.inotify.queue = []) {p : Path} {k : Kernel} (made : w.kernel.mkdir p = some k)
    {rel : List Path} {leaf : Path} (placed : canonical p = canonical r ++ (rel ++ [leaf]))
    (short : ShortTree k.fs r) :
    Settles cfg r { w with kernel := k.drained } k.inotify.queue := by
  obtain ⟨rootDir, atRoot, wf, placedTable⟩ := m.rootDir
  simp only [Kernel.mkdir, Option.bind_eq_bind, Option.bind_eq_some, Option.pure_def,
    Option.some.injEq] at made
  obtain ⟨⟨fs', parent, name⟩, created, rfl⟩ := made
  obtain ⟨named, validLeaf, ⟨parentDir, atParent, rfl⟩, absent, rootDir', atRoot', atNew, grown⟩ :=
    Fs.mkdir_positions atRoot placed created
  subst name
  obtain ⟨eP, inTable, rfl, inoP⟩ :=
    m.entry_of_position atRoot (mem_positions_of_find? rel rootDir parentDir atParent)
  obtain ⟨watch, onParent, wdP, selects⟩ := m.watchOn inTable
  rw [inoP] at onParent
  have fits : (pathAt r (eP.pos ++ [leaf])).length < pathMax :=
    short.position atRoot' (grown.symm.subset (List.mem_append_right _ (List.mem_singleton_self _)))
  have validNew : ∀ name ∈ eP.pos ++ [leaf], validName name = true := by
    simpa [List.mem_append, or_imp, forall_and] using ⟨m.valid inTable, validLeaf⟩
  -- the one record, on the parent's watch
  have queued : (w.kernel.inotify.notify parentDir.ino inCreate inIsdir 0 leaf) =
      { w.kernel.inotify with queue := [mkEvent eP.wd (inCreate ||| inIsdir) 0 leaf] } := by
    rw [Inotify.notify_of_watch onParent selects.1, Inotify.enqueue_of_nil quiet, wdP]
  simp only [queued]
  -- the new directory is not tracked yet, so the handler walks it: one watch, one slot
  have untracked : ∀ entry ∈ table, entry.pos ≠ eP.pos ++ [leaf] := fun entry member same => by
    have placedEntry : (entry.pos, entry.ino) ∈ rootDir.positions :=
      placedTable.symm.subset (List.mem_map_of_mem Tracked.place member)
    rw [same] at placedEntry
    obtain ⟨found, hit, -⟩ := find?_of_mem_positions _ rootDir entry.ino wf placedEntry
    rw [absent] at hit
    cases hit
  have resolves : fs'.lookup (pathAt r (eP.pos ++ [leaf])) = some (.mk w.kernel.nextIno []) := by
    rw [Fs.lookup, canonical_pathAt r validNew, Dir.find?_append, atRoot', Option.some_bind, atNew]
  refine Settles.of_one (size_mkEvent_le _ _ _ (validName_spec validLeaf).2.2.2) ?_
    (m.created atRoot' (grown.trans (placedTable.append_right _)) fits w.kernel.nextCookie
      w.kernel.inotify.generation []) ⟨rfl, rfl, ignorable_nil, rfl⟩
  rw [m.appeared cfg rootOk inTable (.inl rfl) 0 validLeaf fits untracked,
    @watchSubtree_empty _ _ w.kernel.nextIno fits ?_ ?_ ?_]
  rotate_left
  · exact resolves
  · exact m.unwatched_next
  · exact m.findWatch_next
  · rfl

/-- `rmdir` of `r/rel/leaf`: its `IN_DELETE_SELF` clears the directory's slot, and the
`IN_IGNORED` after it changes nothing. -/
theorem Mirror.rmdir (cfg : Config) (rootOk : RootName r) (m : Mirror r w table)
    (quiet : w.kernel.inotify.queue = []) {p : Path} {k : Kernel} (removed : w.kernel.rmdir p = some k)
    {rel : List Path} {leaf : Path} (placed : canonical p = canonical r ++ (rel ++ [leaf])) :
    Settles cfg r { w with kernel := k.drained } k.inotify.queue := by
  obtain ⟨rootDir, atRoot, -, placedTable⟩ := m.rootDir
  simp only [Kernel.rmdir, Option.bind_eq_bind, Option.bind_eq_some, Option.pure_def,
    Option.some.injEq] at removed
  obtain ⟨⟨fs', ino⟩, gotten, rfl⟩ := removed
  obtain ⟨rootDir', atRoot', shrunk⟩ := Fs.rmdir_positions atRoot placed gotten
  obtain ⟨gone, member, posG, inoG⟩ :=
    m.entry_of_position atRoot (shrunk.symm.subset (List.mem_append_right _ (List.mem_singleton_self _)))
  subst inoG
  obtain ⟨watch, onGone, wdG, selects⟩ := m.watchOn member
  obtain ⟨sized, j, hit, deleted⟩ := m.deleted cfg rootOk member (by simp [posG]) (m.valid member)
  simp only [Inotify.deleteSelf_of_watch onGone selects.2.2.2 (by simp [quiet]), quiet, List.nil_append, wdG]
  have kept : (rootDir'.positions ++ [gone.place]).Perm (table.map Tracked.place) := by
    rw [Tracked.place, posG]
    exact shrunk.symm.trans placedTable
  exact ⟨sized, _, _, deleted _, ⟨m.removed member hit fs' w.kernel.nextCookie w.kernel.inotify.generation [],
    rootDir', atRoot', perm_map_erase member kept⟩, rfl, rfl, ignorable_nil, rfl⟩

/-- `rename` of `r/srel/sleaf` to `r/drel/dleaf`: its `IN_MOVED_FROM` and `IN_MOVED_TO`,
handled together, rewrite the cached pathnames of the moved subtree; its `IN_MOVE_SELF`
changes nothing; and the deletion of a directory it replaced clears that directory's
slot. -/
theorem Mirror.rename (cfg : Config) (rootOk : RootName r) (m : Mirror r w table)
    (quiet : w.kernel.inotify.queue = []) {src dst : Path} {k : Kernel} (renamed : w.kernel.rename src dst = some k)
    {srel drel : List Path} {sleaf dleaf : Path}
    (fromPlaced : canonical src = canonical r ++ (srel ++ [sleaf]))
    (toPlaced : canonical dst = canonical r ++ (drel ++ [dleaf])) (short : ShortTree k.fs r) :
    Settles cfg r { w with kernel := k.drained } k.inotify.queue := by
  obtain ⟨rootDir, atRoot, -, placedTable⟩ := m.rootDir
  simp only [Kernel.rename, Option.bind_eq_bind, Option.bind_eq_some, Option.pure_def,
    Option.some.injEq] at renamed
  obtain ⟨⟨fs', rn⟩, gotten, rfl⟩ := renamed
  obtain ⟨validLeaf, notBelow, fromDir, toDir, moved, atFrom, atTo, atMoved, rfl, rootDir', rest, atRoot',
    split, outside, joined⟩ := Fs.rename_positions atRoot fromPlaced toPlaced gotten
  obtain ⟨eF, inF, posF, inoF⟩ := m.entry_of_position atRoot (mem_positions_of_find? _ _ _ atFrom)
  obtain ⟨eT, inT, posT, inoT⟩ := m.entry_of_position atRoot (mem_positions_of_find? _ _ _ atTo)
  subst posF posT
  obtain ⟨eM, inM, posM, inoM⟩ := m.entry_of_position atRoot (mem_positions_of_find? _ _ _ atMoved)
  obtain ⟨wF, onF, wdF, selF⟩ := m.watchOn inF
  obtain ⟨wT, onT, wdT, selT⟩ := m.watchOn inT
  obtain ⟨wM, onM, wdM, -⟩ := m.watchOn inM
  rw [inoF] at onF
  rw [inoT] at onT
  rw [inoM] at onM
  obtain ⟨jF, foundF, hitF⟩ := m.slotOf inF
  obtain ⟨jT, foundT, hitT⟩ := m.slotOf inT
  have validSrc : ∀ name ∈ eF.pos ++ [sleaf], validName name = true := posM ▸ m.valid inM
  have validDst : ∀ name ∈ eT.pos ++ [dleaf], validName name = true := by
    simpa [List.mem_append, or_imp, forall_and] using ⟨m.valid inT, validLeaf⟩
  -- the table's places after the rename, the replaced directory among them
  have movedPlaces : ((table.map (Tracked.move (eF.pos ++ [sleaf]) (eT.pos ++ [dleaf]))).map Tracked.place).Perm
      (rootDir'.positions ++
        ((rootDir.find? (eT.pos ++ [dleaf])).map fun old => (eT.pos ++ [dleaf], old.ino)).toList) := by
    rw [map_place_move]
    exact (perm_map_move (placedTable.symm.trans split) outside).trans joined.symm
  have srcShort : (pathAt r (eF.pos ++ [sleaf])).length < pathMax := by
    obtain ⟨j, -, hit⟩ := m.slotOf inM
    simpa [Tracked.slot, posM] using m.short _ (List.getElem?_mem hit)
  have fits : ∀ entry ∈ table,
      (pathAt r (movePos (eF.pos ++ [sleaf]) (eT.pos ++ [dleaf]) entry.pos)).length < pathMax := by
    intro entry member
    by_cases below : eF.pos ++ [sleaf] <+: entry.pos
    · rcases List.mem_append.mp (movedPlaces.subset (List.mem_map_of_mem _ (List.mem_map_of_mem _ member)))
        with inTree | replaced
      · exact short.position atRoot' inTree
      · cases atOld : rootDir.find? (eT.pos ++ [dleaf]) with
        | none => simp [atOld] at replaced
        | some old =>
          simp only [atOld, Option.map_some', Option.toList_some, List.mem_singleton, Tracked.place,
            Tracked.move, Prod.mk.injEq] at replaced
          obtain ⟨eO, inO, posO, inoO⟩ := m.entry_of_position atRoot (mem_positions_of_find? _ _ _ atOld)
          have same := List.inj_on_of_nodup_map m.distinct.2 member inO (replaced.2.trans inoO.symm)
          rw [same, posO] at below
          exact absurd below notBelow
    · rw [movePos_of_outside below]
      obtain ⟨j, -, hit⟩ := m.slotOf member
      exact m.short _ (List.getElem?_mem hit)
  -- the cache after the rewrite, with the kernel's watches as they were
  have rewritten := fun queue => m.moved rootOk (fun entry member => m.valid member) validSrc validDst
    srcShort fits fs' (w.kernel.nextCookie + 1) w.kernel.inotify.generation queue
  set MF := mkEvent eF.wd (inMovedFrom ||| inIsdir) (w.kernel.nextCookie + 1) sleaf with defMF
  set MT := mkEvent eT.wd (inMovedTo ||| inIsdir) (w.kernel.nextCookie + 1) dleaf with defMT
  set RW := rewriteCachedPaths w.wlCache (pathAt r eF.pos) sleaf (pathAt r eT.pos) dleaf with defRW
  -- the pair, handled together
  have positiveF := (m.fresh eF inF).1
  have sizedF := size_mkEvent_le eF.wd (inMovedFrom ||| inIsdir) (w.kernel.nextCookie + 1)
    (validName_spec (validSrc sleaf (by simp))).2.2.2
  have sizedT := size_mkEvent_le eT.wd (inMovedTo ||| inIsdir) (w.kernel.nextCookie + 1)
    (validName_spec validLeaf).2.2.2
  have pairStep : ∀ (k' : Kernel) (more : List InotifyEvent),
      wholeStream cfg { w with kernel := k' } (MF :: MT :: more) =
        wholeStream cfg { w with kernel := k', wlCache := RW } more := fun k' more =>
    wholeStream_pair sizedF sizedT
      (@processNextInotifyEvent_renamed cfg { w with kernel := k' } MF more MT jF jT (eF.slot r) (eT.slot r)
        (by simp [defMF, mkEvent]; omega) rfl foundF hitF rfl rfl foundT hitT)
  have paired : (w.kernel.inotify.notify fromDir.ino inMovedFrom inIsdir (w.kernel.nextCookie + 1) sleaf).notify
      toDir.ino inMovedTo inIsdir (w.kernel.nextCookie + 1) dleaf = { w.kernel.inotify with queue := [MF, MT] } := by
    rw [Inotify.notify_of_watch onF selF.2.1, Inotify.enqueue_of_nil quiet, Inotify.notify_append ?_ selT.2.2.1 ?_,
      wdF, wdT]
    · rfl
    · exact onT
    · simp [mkEvent]
      decide
  -- the moved directory's own record, which its watch may not ask for
  have movedPos : movePos (eF.pos ++ [sleaf]) (eT.pos ++ [dleaf]) eM.pos = eT.pos ++ [dleaf] := by
    rw [posM, movePos_of_below (List.prefix_refl _), List.drop_length, List.append_nil]
  have sizedPair : KernelSized [MF, MT] := by simpa [KernelSized] using ⟨sizedF, sizedT⟩
  have lastMT : ∀ last ∈ ([MF, MT] : List InotifyEvent).getLast?, last.mask = inMovedTo ||| inIsdir := by
    simp [defMT, mkEvent]
  obtain ⟨ms, reported, sizedMs, lastOk, skipped⟩ := (rewritten []).moveSelf_passed cfg rootOk
    (List.mem_map_of_mem _ inM) (by rw [Tracked.move, movedPos]; simp) (by rw [Tracked.move, movedPos]; exact validDst)
    onM wdM [MF, MT] (fun last member => by rw [lastMT last member]; decide)
    (fun last member => by rw [lastMT last member]; decide)
  have passes : ∀ (k' : Kernel) (ds : List InotifyEvent),
      wholeStream cfg { w with kernel := k' } ([MF, MT] ++ ms ++ ds) =
        wholeStream cfg { w with kernel := k', wlCache := RW } ds := fun k' ds => by
    rw [List.append_assoc]
    exact (pairStep k' _).trans (skipped k' ds)
  dsimp only [Kernel.drained]
  rw [paired, reported]
  cases atOld : rootDir.find? (eT.pos ++ [dleaf]) with
  | none =>
    -- no directory replaced: the rewritten cache mirrors the new tree
    rw [← List.append_nil ([MF, MT] ++ ms)]
    refine ⟨(sizedPair.append sizedMs).append (by simp [KernelSized]), _, _, (passes _ []).trans (wholeStream_nil _ _),
      ⟨rewritten [], rootDir', atRoot', ?_⟩, rfl, rfl, ignorable_nil, rfl⟩
    simpa [atOld] using movedPlaces.symm
  | some old =>
    -- the replaced directory's watch goes: its slot is cleared
    obtain ⟨eO, inO, posO, inoO⟩ := m.entry_of_position atRoot (mem_positions_of_find? _ _ _ atOld)
    obtain ⟨wO, onO, wdO, selO⟩ := m.watchOn inO
    rw [inoO] at onO
    have moveO : eO.move (eF.pos ++ [sleaf]) (eT.pos ++ [dleaf]) = eO := by
      rw [Tracked.move, movePos_of_outside (posO ▸ notBelow)]
    have memO : eO ∈ table.map (Tracked.move (eF.pos ++ [sleaf]) (eT.pos ++ [dleaf])) :=
      List.mem_map.mpr ⟨eO, inO, moveO⟩
    obtain ⟨sizedO, jO, hitO, deleted⟩ := (rewritten []).deleted cfg rootOk memO (by simp [posO]) (m.valid inO)
    simp only [Option.map_some']
    rw [Inotify.deleteSelf_of_watch ?_ selO.2.2.2 ?_, wdO, ← inoO]
    rotate_left
    · exact onO
    · exact lastOk
    exact ⟨(sizedPair.append sizedMs).append sizedO, _, _, (passes _ _).trans (deleted _),
      ⟨(rewritten []).removed memO hitO fs' (w.kernel.nextCookie + 1) w.kernel.inotify.generation [],
        rootDir', atRoot', perm_map_erase memO (by simpa [atOld, Tracked.place, posO, inoO] using movedPlaces.symm)⟩,
      rfl, rfl, ignorable_nil, rfl⟩

end Calls

end InotifyDtree
