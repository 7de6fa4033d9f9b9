import InotifyDtree.Boundary

set_option autoImplicit false

/- Renames across the boundary of the tree below a root. A directory moved out reports
only its `IN_MOVED_FROM`: with no `IN_MOVED_TO` after it the handler zaps the moved
subtree, and each `inotify_rm_watch()` queues an `IN_IGNORED` that the next read passes
over. A directory moved in reports only its `IN_MOVED_TO`, which the handler takes as a
new directory and walks, unless its pathname is cached already: the pathname of an empty
directory it replaces still is, until that directory's `IN_DELETE_SELF`, which comes after,
and then the moved-in subtree is never watched. -/
namespace InotifyDtree

/-! The kernel's side of `zapSubtree`. -/

/-- `inotify_rm_watch()` queues its `IN_IGNORED` whatever was queued before it. -/
theorem Inotify.enqueue_ignored (inst : Inotify) (wd : Int) :
    inst.enqueue (mkEvent wd inIgnored 0 []) = { inst with queue := inst.queue ++ [mkEvent wd inIgnored 0 []] } := by
  unfold Inotify.enqueue
  split
  · next last found =>
    by_cases ignored : hasAny last.mask inIgnored = true
    · simp [ignored]
    · have differ : last.mask ≠ inIgnored := fun same => ignored (by rw [same]; decide)
      simp [mkEvent, differ]
  · rfl

/-- The slots that the scan of `zapSubtree(pn)` selects. -/
def zapSelected (pn : Path) (wlCache : List Watch) : List Watch :=
  (activeSlots wlCache).filter fun slot => inSubtree pn slot.path

/-- When each removal succeeds, the scan takes away the watches of the selected slots and
queues one `IN_IGNORED` for each, in slot order. -/
theorem zapSlots_kernel_of_held (pn : Path) :
    ∀ (wlCache : List Watch) (k : Kernel) (cnt : Int),
      ((activeSlots wlCache).map Watch.wd).Nodup → WatchesHeld k wlCache pn →
      (zapSlots pn wlCache k cnt).2.1 = { k with inotify := { k.inotify with
        queue := k.inotify.queue ++ (zapSelected pn wlCache).map fun slot => mkEvent slot.wd inIgnored 0 []
        watches := k.inotify.watches.filter fun watch =>
          !(zapSelected pn wlCache).any fun slot => slot.wd == watch.wd } }
  | [], k, _, _, _ => by simp [zapSlots, zapSelected]
  | slot :: rest, k, cnt, distinct, held => by
    by_cases active : 0 ≤ slot.wd
    · have front : activeSlots (slot :: rest) = slot :: activeSlots rest := by simp [active]
      rw [front] at distinct
      obtain ⟨fresh, distinctRest⟩ := List.nodup_cons.mp distinct
      by_cases selected : inSubtree pn slot.path
      · have current := held slot (front ▸ List.mem_cons_self _ _) selected
        obtain ⟨k', removed, others⟩ := Kernel.inotifyRmWatch_of_held current
        have heldRest : WatchesHeld k' rest pn := fun other member below => by
          have differs : other.wd ≠ slot.wd := fun same =>
            fresh (same ▸ List.mem_map_of_mem Watch.wd member)
          rw [others _ differs]
          exact held other (front ▸ List.mem_cons_of_mem _ member) below
        have after := zapSlots_kernel_of_held pn rest k' (cnt + 1) distinctRest heldRest
        rw [zapSlots_cons_selected active selected removed, after]
        rw [Kernel.inotifyRmWatch, if_pos current, Option.some.injEq] at removed
        subst removed
        simp only [zapSelected, front, List.filter_cons, selected, if_true, List.map_cons, List.any_cons,
          Inotify.enqueue_ignored, List.append_assoc, List.singleton_append, List.filter_filter]
        congr 3
        funext watch
        by_cases same : watch.wd = slot.wd
        · simp [same]
        · rw [bne_iff_ne.mpr same, beq_false_of_ne (Ne.symm same)]
          simp
      · have after := zapSlots_kernel_of_held pn rest k cnt distinctRest
          fun other member => held other (front ▸ List.mem_cons_of_mem _ member)
        rw [zapSlots_cons_skipped (fun both => selected both.2), after]
        simp [zapSelected, front, List.filter_cons, selected]
    · have front : activeSlots (slot :: rest) = activeSlots rest := by simp [active]
      rw [front] at distinct
      have after := zapSlots_kernel_of_held pn rest k cnt distinct fun other member => held other (front ▸ member)
      rw [zapSlots_cons_skipped (fun both => active both.1), after]
      simp [zapSelected, front]

/-! The table after `zapSubtree`. -/

section Zapped

variable {r : Path} {w : World} {table : List Tracked}

/-- On pathnames below the root, the scan of `zapSubtree` selects the positions at or below
the zapped one. -/
theorem inSubtree_pathAt (rootOk : RootName r) {front back : List Path}
    (valid : ∀ name ∈ front ++ back, validName name = true) :
    inSubtree (pathAt r front) (pathAt r back) = front.isPrefixOf back := by
  have validBack : ∀ name ∈ back, validName name = true := fun name named =>
    valid name (List.mem_append_right _ named)
  rw [inSubtree_eq_atOrBelow _ _ (noNul_pathAt rootOk validBack), Bool.eq_iff_iff, atOrBelow_pathAt rootOk.1 valid,
    List.isPrefixOf_iff_prefix]

/-- Every active slot has its watch, so each removal of the scan succeeds. -/
theorem Cached.watchesHeld (m : Cached r w table) (pn : Path) : WatchesHeld w.kernel w.wlCache pn :=
  fun slot active _ => by
    obtain ⟨entry, member, rfl⟩ := List.mem_map.mp (m.slots.subset active)
    obtain ⟨watch, held, keyed⟩ := List.mem_map.mp (m.watches.symm.subset (List.mem_map_of_mem Tracked.key member))
    exact List.any_eq_true.mpr ⟨watch, held, beq_iff_eq.mpr (congrArg Prod.fst keyed)⟩

/-- The scan of `zapSubtree` at `pos` selects the slot of an entry exactly when the entry
is at or below `pos`. -/
theorem Cached.zapSelected_any (m : Cached r w table) (rootOk : RootName r)
    (valid : ∀ entry ∈ table, ∀ name ∈ entry.pos, validName name = true) {pos : List Path}
    (validPos : ∀ name ∈ pos, validName name = true) {entry : Tracked} (member : entry ∈ table) :
    ((zapSelected (pathAt r pos) w.wlCache).any fun slot => slot.wd == entry.wd) = pos.isPrefixOf entry.pos := by
  have selects : ∀ e ∈ table, inSubtree (pathAt r pos) (pathAt r e.pos) = pos.isPrefixOf e.pos := fun e held =>
    inSubtree_pathAt rootOk fun name named => (List.mem_append.mp named).elim (validPos name) (valid e held name)
  rw [Bool.eq_iff_iff, List.any_eq_true]
  constructor
  · rintro ⟨slot, chosen, same⟩
    obtain ⟨active, under⟩ := List.mem_filter.mp chosen
    obtain ⟨e, held, rfl⟩ := List.mem_map.mp (m.slots.subset active)
    obtain rfl : e = entry := List.inj_on_of_nodup_map m.distinct.1 held member (beq_iff_eq.mp same)
    rwa [← selects e held]
  · intro prefixed
    refine ⟨entry.slot r, List.mem_filter.mpr ⟨m.slots.symm.subset (List.mem_map_of_mem _ member), ?_⟩,
      beq_self_eq_true _⟩
    rwa [Tracked.slot, selects entry member]

/-- `zapSubtree` of the directory at `pos`: the table keeps the entries outside the zapped
subtree, and the kernel the watches of their slots. -/
theorem Cached.zapped (m : Cached r w table) (rootOk : RootName r)
    (valid : ∀ entry ∈ table, ∀ name ∈ entry.pos, validName name = true) {pos : List Path}
    (validPos : ∀ name ∈ pos, validName name = true) :
    Cached r
      { w with
        wlCache := (zapSlots (pathAt r pos) w.wlCache w.kernel 0).1
        kernel := (zapSlots (pathAt r pos) w.wlCache w.kernel 0).2.1 }
      (table.filter fun entry => !pos.isPrefixOf entry.pos) where
  roots := m.roots
  slots := by
    have selects : ∀ e ∈ table, inSubtree (pathAt r pos) (pathAt r e.pos) = pos.isPrefixOf e.pos := fun e held =>
      inSubtree_pathAt rootOk fun name named => (List.mem_append.mp named).elim (validPos name) (valid e held name)
    rw [(zapSlots_of_held _ _ _ _ m.built.wellFormed.distinct (m.watchesHeld _)).1]
    refine (m.slots.filter _).trans (.of_eq ?_)
    rw [List.filter_map]
    exact congrArg _ (List.filter_congr fun e held => by simp [Tracked.slot, selects e held])
  watches := by
    rw [zapSlots_kernel_of_held _ _ _ _ m.built.wellFormed.distinct (m.watchesHeld _)]
    rw [← List.filter_congr fun entry member => congrArg (!·) (m.zapSelected_any rootOk valid validPos member)]
    simpa [List.filter_map, Function.comp_def, KWatch.key, Tracked.key] using m.watches.filter
      fun key : Int × Ino => !(zapSelected (pathAt r pos) w.wlCache).any fun slot => slot.wd == key.1
  selects := by
    rw [zapSlots_kernel_of_held _ _ _ _ m.built.wellFormed.distinct (m.watchesHeld _)]
    exact fun watch held => m.selects watch (List.mem_of_mem_filter held)
  distinct := ⟨m.distinct.1.sublist ((List.filter_sublist _).map _),
    m.distinct.2.sublist ((List.filter_sublist _).map _)⟩
  fresh := by
    rw [zapSlots_kernel_of_held _ _ _ _ m.built.wellFormed.distinct (m.watchesHeld _)]
    exact fun entry kept => m.fresh entry (List.mem_of_mem_filter kept)
  built := .zap _ _ m.built
  short := short_of_cleared (cleared_zapSlots _ _ _ _) m.short
  rootSelf := by
    rw [zapSlots_kernel_of_held _ _ _ _ m.built.wellFormed.distinct (m.watchesHeld _)]
    exact fun entry kept away watch held =>
      m.rootSelf entry (List.mem_of_mem_filter kept) away watch (List.mem_of_mem_filter held)
  rootMoves := by
    rw [zapSlots_kernel_of_held _ _ _ _ m.built.wellFormed.distinct (m.watchesHeld _)]
    exact fun entry kept atRoot watch held =>
      m.rootMoves entry (List.mem_of_mem_filter kept) atRoot watch (List.mem_of_mem_filter held)

end Zapped

/-! A directory moved out of the tree. -/

/-- An `IN_MOVED_FROM` alone in what was read, on a cached watch: the directory left the
trees, and `zapSubtree` takes away its subtree. -/
theorem processNextInotifyEvent_movedOut {cfg : Config} {w : World} {ev : InotifyEvent} {j : Nat} {slot : Watch}
    (watched : ev.wd ≠ -1) (mask : ev.mask = inMovedFrom ||| inIsdir) (found : findWatch w.wlCache ev.wd = j)
    (hit : w.wlCache[j]? = some slot) {fullPath : Path}
    (joined : snprintf (pathMax + nameMax) (slot.path ++ '/' :: ev.name) = fullPath)
    (counted : (zapSubtree w fullPath).2 ≠ -1) :
    processNextInotifyEvent cfg w [ev] (byteSize [ev]) false = .ok ((zapSubtree w fullPath).1, ev.size) := by
  rw [processNextInotifyEvent_of_slot watched (by rw [mask]; decide) found, dispatchEvent_movedFrom _ mask]
  simp only [directoryMovedFrom, lookahead_whole, except_ok_bind, List.head?_nil, Bool.false_eq_true,
    if_false, movedOut, readSlot_of_getElem? hit, joined]
  rw [if_neg counted]
  rfl

section Out

variable {r : Path} {w : World} {table : List Tracked}

/-- The directory at `r/names` in the kernel's tree is the one at `names` in the tree at `r`. -/
theorem find?_under {fs : Fs} {rootDir : Dir} (looked : fs.root.find? (canonical r) = some rootDir)
    (names : List Path) : fs.root.find? (canonical r ++ names) = rootDir.find? names := by
  rw [Dir.find?_append, looked, Option.some_bind]

/-- A subtree at `r/rel` moved to a place apart from `r`, any directory it replaces there
apart from `r` too: the tree at `r` is the table's less the subtree's places. -/
theorem Mirror.subtree_moved_out (m : Mirror r w table) {fs' : Fs} {rest replaced : List (List Path × Ino)}
    {moved : Dir} {rel dst : List Path} (nonempty : rel ≠ [])
    (atMoved : w.kernel.fs.root.find? (canonical r ++ rel) = some moved)
    (was : w.kernel.fs.root.positions.Perm (rest ++ moved.positions.map (below (canonical r ++ rel))))
    (now : (fs'.root.positions ++ replaced).Perm (rest ++ moved.positions.map (below dst)))
    (replacedOutside : ∀ entry ∈ replaced, ¬ canonical r <+: entry.1)
    (dstOutside : ¬ canonical r <+: dst) (dstNotAbove : ¬ dst <+: canonical r) :
    ∃ rootDir', fs'.lookup r = some rootDir' ∧
      rootDir'.positions.Perm ((table.filter fun entry => !rel.isPrefixOf entry.pos).map Tracked.place) := by
  obtain ⟨rootDir, atRoot, wf, placedTable⟩ := m.rootDir
  rw [find?_under atRoot] at atMoved
  have goneBelow : (replaced ++ moved.positions.map (below (canonical r ++ rel))).filter
      (fun entry => (canonical r).isPrefixOf entry.1) = (moved.positions.map (below rel)).map (below (canonical r)) := by
    rw [List.filter_append, List.filter_eq_nil_iff.mpr fun entry member prefixed =>
      replacedOutside entry member (List.isPrefixOf_iff_prefix.mp prefixed), List.nil_append, filter_below_inside]
  obtain ⟨rootDir', atRoot', shrunk⟩ := m.subtree_after (fun entry member same => by
      rcases List.mem_append.mp member with inReplaced | inMoved
      · exact replacedOutside entry inReplaced (same ▸ List.prefix_refl _)
      · obtain ⟨e, -, rfl⟩ := List.mem_map.mp inMoved
        exact nonempty (show rel = [] ∧ e.1 = [] by simpa [below] using congrArg List.length same).1)
      (perm_exchange was now) goneBelow
    ((filter_below_apart dstOutside dstNotAbove _).trans List.map_nil.symm)
  -- the table's places split into those below `rel`, the moved subtree's, and the others
  have movedPlaces : ((table.filter fun entry => rel.isPrefixOf entry.pos).map Tracked.place).Perm
      (moved.positions.map (below rel)) := by
    rw [← Dir.positions_under _ rootDir moved wf atMoved]
    simpa [List.filter_map, Function.comp_def, Tracked.place] using
      placedTable.symm.filter fun entry => rel.isPrefixOf entry.1
  have split := List.filter_append_perm (fun entry : Tracked => !rel.isPrefixOf entry.pos) table
  simp only [Bool.not_not] at split
  refine ⟨rootDir', atRoot', (List.perm_append_right_iff (moved.positions.map (below rel))).mp (shrunk.trans ?_)⟩
  rw [List.append_nil]
  refine List.Perm.trans ?_ (movedPlaces.append_left _)
  rw [← List.map_append]
  exact (split.map _).symm

/-- `rename` of `r/srel/sleaf` to a place apart from `r`: the one record queued is the
`IN_MOVED_FROM` on the source's parent (the destination's parent and a directory it replaces
have no watch, and the moved directory's watch does not ask for `IN_MOVE_SELF`). With no
`IN_MOVED_TO` after it the handler zaps the moved subtree, whose watches go with their
`IN_IGNORED` records, and the cache mirrors the tree left below `r`. -/
theorem Mirror.rename_out (m : Mirror r w table) (cfg : Config) (rootOk : RootName r) (fresh : w.kernel.Fresh)
    (quiet : w.kernel.inotify.queue = []) {src dst : Path} {k : Kernel} (renamed : w.kernel.rename src dst = some k)
    {srel : List Path} {sleaf : Path} (fromPlaced : canonical src = canonical r ++ (srel ++ [sleaf]))
    (dstOutside : ¬ canonical r <+: canonical dst) (dstNotAbove : ¬ canonical dst <+: canonical r) :
    Settles cfg r { w with kernel := k.drained } k.inotify.queue := by
  obtain ⟨rootDir, atRoot, -⟩ := m.rootDir
  obtain ⟨srel0, sleaf0, drel, dleaf, fromDir, toDir, moved, fs', rest, fromPlaced0, toPlaced, -, -, atFrom,
    atTo, atMoved, before, -, after, rfl⟩ := Kernel.rename_cases renamed
  obtain ⟨rfl, rfl⟩ : srel0 = canonical r ++ srel ∧ sleaf = sleaf0 := by
    simpa [eq_comm] using List.append_inj' (fromPlaced0.symm.trans (fromPlaced.trans (List.append_assoc _ _ _).symm)) rfl
  rw [toPlaced] at dstOutside dstNotAbove
  rw [List.append_assoc] at atMoved before
  rw [find?_under atRoot] at atFrom
  obtain ⟨eF, inF, rfl, inoF⟩ := m.entry_of_position atRoot (mem_positions_of_find? _ _ _ atFrom)
  obtain ⟨eM, inM, posM, inoM⟩ := m.entry_of_position atRoot
    (mem_positions_of_find? _ _ _ ((find?_under atRoot _).symm.trans atMoved))
  obtain ⟨wF, onF, wdF, selF⟩ := m.watchOn inF
  obtain ⟨wM, onM, -, -⟩ := m.watchOn inM
  rw [inoF] at onF
  rw [inoM] at onM
  have validS : ∀ name ∈ eF.pos ++ [sleaf], validName name = true := posM ▸ m.valid inM
  -- the records: the `IN_MOVED_FROM`, and nothing for the other three inodes
  set MF := mkEvent eF.wd (inMovedFrom ||| inIsdir) (w.kernel.nextCookie + 1) sleaf with defMF
  have fromRecord : w.kernel.inotify.notify fromDir.ino inMovedFrom inIsdir (w.kernel.nextCookie + 1) sleaf =
      { w.kernel.inotify with queue := [MF] } := by
    rw [Inotify.notify_of_watch onF selF.2.1, Inotify.enqueue_of_nil quiet, wdF]
  have toQuiet : ({ w.kernel.inotify with queue := [MF] } : Inotify).watches.find?
      (fun watch => watch.ino == toDir.ino) = none :=
    m.unwatched_outside fresh (mem_positions_of_find? _ _ _ atTo) fun above =>
      dstOutside (above.trans (List.prefix_append _ _))
  have onMoved : wM.ino = eM.ino := by
    have found := List.find?_some onM
    rwa [inoM, ← beq_iff_eq]
  have movedMuted : ({ w.kernel.inotify with queue := [MF] } : Inotify).notify moved.ino inMoveSelf 0 0 [] =
      { w.kernel.inotify with queue := [MF] } :=
    Inotify.notify_of_unselected onM (m.rootSelf eM inM (pathAt_ne_root rootOk.1 (by simp [posM]) (m.valid inM)) wM
      (List.mem_of_find?_eq_some onM) onMoved)
  -- the tree left at `r`: the table's places less those of the moved subtree
  generalize replacedAt : w.kernel.fs.root.find? (drel ++ [dleaf]) = replaced at after ⊢
  obtain ⟨rootDir', atRoot', kept⟩ := m.subtree_moved_out (by simp) atMoved before after
    (by cases replaced <;> simp [dstOutside]) dstOutside dstNotAbove
  -- the handler: the `IN_MOVED_FROM` alone, so `movedOut` zaps the moved subtree
  set K : Kernel := { w.kernel with
    fs := fs', nextCookie := w.kernel.nextCookie + 1
    inotify := { w.kernel.inotify with queue := [MF] } } with defK
  suffices settled : Settles cfg r { w with kernel := K.drained } [MF] by
    simp only [fromRecord, Inotify.notify_of_unwatched toQuiet, movedMuted]
    split
    · next old replacedIno =>
      obtain ⟨dir, atOld, rfl⟩ := Option.map_eq_some'.mp replacedIno
      have oldQuiet : ({ w.kernel.inotify with queue := [MF] } : Inotify).watches.find?
          (fun watch => watch.ino == dir.ino) = none :=
        m.unwatched_outside fresh (mem_positions_of_find? _ _ _ (replacedAt.trans atOld)) dstOutside
      rw [Inotify.deleteSelf_of_unwatched oldQuiet]
      exact settled
    · exact settled
  have cached : Cached r { w with kernel := K.drained } table := m.toCached.rekernel rfl rfl le_rfl
  obtain ⟨jF, foundF, hitF⟩ := m.slotOf inF
  have srcShort : (pathAt r (eF.pos ++ [sleaf])).length < pathMax := by
    obtain ⟨j, -, hit⟩ := m.slotOf inM
    simpa [Tracked.slot, posM] using m.short _ (List.getElem?_mem hit)
  have joined := snprintf_pathAt rootOk (m.valid inF) srcShort
  have held := cached.watchesHeld (pathAt r (eF.pos ++ [sleaf]))
  have counted := (zapSlots_of_held _ _ _ 0 cached.built.wellFormed.distinct held).2
  have kernelAfter := zapSlots_kernel_of_held _ _ _ 0 cached.built.wellFormed.distinct held
  have positive := (m.fresh eF inF).1
  have handled := @processNextInotifyEvent_movedOut cfg { w with kernel := K.drained } MF jF (eF.slot r)
    (by simp [defMF, mkEvent]; omega) rfl foundF hitF _ joined (by simp only [zapSubtree, counted]; omega)
  refine Settles.of_one (size_mkEvent_le _ _ _ (validName_spec (validS sleaf (by simp))).2.2.2) handled
    ⟨cached.zapped rootOk (fun entry member => m.valid member) validS, rootDir', ?_, kept⟩ ⟨?_, ?_, ?_, ?_⟩
  · simpa only [zapSubtree, kernelAfter] using atRoot'
  · simp only [zapSubtree, kernelAfter]
  · simp only [zapSubtree, kernelAfter]
  · simp only [zapSubtree, kernelAfter]
    intro ev queued
    simp only [Kernel.drained, List.nil_append, List.mem_map] at queued
    obtain ⟨slot, -, rfl⟩ := queued
    rfl
  · simp only [zapSubtree, kernelAfter]

end Out

/-! A directory moved into the tree. -/

section In

variable {r : Path} {w : World} {table : List Tracked}

/-- `watchSubtree` of the directory at `r/rel`, whose inodes the table does not hold and
whose pathnames are shorter than `PATH_MAX`: every directory of it gets a watch and a slot,
and nothing else changes but the watches. -/
theorem Cached.subtree_walked (m : Cached r w table) (rel : List Path) {dir : Dir}
    (looked : w.kernel.fs.lookup (pathAt r rel) = some dir)
    (fits : ∀ entry ∈ dir.positions, (pathAt r (rel ++ entry.1)).length < pathMax)
    (older : ∀ entry ∈ dir.positions, entry.2 < w.kernel.nextIno)
    (distinct : (table.map Tracked.ino ++ dir.positions.map Prod.snd).Nodup) :
    ∃ w' table', watchSubtree w (pathAt r rel) = .ok w' ∧ Cached r w' table' ∧
      table'.map Tracked.place = table.map Tracked.place ++ dir.positions.map (below rel) ∧
      w'.kernel.fs = w.kernel.fs ∧ w'.kernel.nextIno = w.kernel.nextIno ∧
      w'.kernel.inotify.queue = w.kernel.inotify.queue := by
  have walkEq : nftw w.kernel.fs (pathAt r rel) = (dir.positions.map (below rel)).map (walkEntry r) := by
    simp only [nftw, looked, Dir.walk_eq_positions]
    simp [Function.comp_def, walkEntry, below, pathAt_append, pathAt]
  obtain ⟨w', table', walked, cached', places, kept⟩ := m.walk (dir.positions.map (below rel))
    (fun entry member => by
      obtain ⟨e, inDir, rfl⟩ := List.mem_map.mp member
      exact ⟨nftw_lookup _ _ _ (walkEq ▸ List.mem_map_of_mem _ member), fits e inDir, older e inDir⟩)
    (by simpa [Function.comp_def, below] using distinct)
  exact ⟨w', table', by rw [watchSubtree, watchDir, walkEq, walked], cached', places, kept⟩

/-- `rename` of a directory apart from `r` to `r/drel/dleaf`, where nothing was: the one
record queued is the `IN_MOVED_TO` on the destination's parent (the source's parent and the
moved directory have no watch). The handler takes it as a new directory and walks it, so
every directory of the moved subtree gets a watch and a slot. -/
theorem Mirror.rename_in (m : Mirror r w table) (cfg : Config) (rootOk : RootName r) (fresh : w.kernel.Fresh)
    (quiet : w.kernel.inotify.queue = []) {src dst : Path} {k : Kernel} (renamed : w.kernel.rename src dst = some k)
    (srcOutside : ¬ canonical r <+: canonical src) (srcNotAbove : ¬ canonical src <+: canonical r)
    {drel : List Path} {dleaf : Path} (toPlaced : canonical dst = canonical r ++ (drel ++ [dleaf]))
    (vacant : w.kernel.fs.lookup dst = none) (short : ShortTree k.fs r) :
    Settles cfg r { w with kernel := k.drained } k.inotify.queue := by
  have freshAfter := fresh.rename renamed
  obtain ⟨rootDir, atRoot, -, placedTable⟩ := m.rootDir
  obtain ⟨srel, sleaf, drel0, dleaf0, fromDir, toDir, moved, fs', rest, fromPlaced, toPlaced0, validLeaf, -,
    atFrom, atTo, atMoved, before, -, after, rfl⟩ := Kernel.rename_cases renamed
  obtain ⟨rfl, rfl⟩ : drel0 = canonical r ++ drel ∧ dleaf = dleaf0 := by
    simpa [eq_comm] using List.append_inj' (toPlaced0.symm.trans (toPlaced.trans (List.append_assoc _ _ _).symm)) rfl
  rw [Fs.lookup, toPlaced0] at vacant
  rw [vacant, Option.map_none', Option.toList_none] at after
  rw [fromPlaced] at srcOutside srcNotAbove
  rw [find?_under atRoot] at atTo
  obtain ⟨eT, inT, rfl, inoT⟩ := m.entry_of_position atRoot (mem_positions_of_find? _ _ _ atTo)
  obtain ⟨wT, onT, wdT, selT⟩ := m.watchOn inT
  rw [inoT] at onT
  have validD : ∀ name ∈ eT.pos ++ [dleaf], validName name = true := by
    simpa [List.mem_append, or_imp, forall_and] using ⟨m.valid inT, validLeaf⟩
  -- the records: the `IN_MOVED_TO`, and nothing for the source's parent or the moved directory
  set MT := mkEvent eT.wd (inMovedTo ||| inIsdir) (w.kernel.nextCookie + 1) dleaf with defMT
  have fromQuiet := m.unwatched_outside fresh (mem_positions_of_find? _ _ _ atFrom)
    fun above => srcOutside (above.trans (List.prefix_append _ _))
  have toRecord : w.kernel.inotify.notify toDir.ino inMovedTo inIsdir (w.kernel.nextCookie + 1) dleaf =
      { w.kernel.inotify with queue := [MT] } := by
    rw [Inotify.notify_of_watch onT selT.2.2.1, Inotify.enqueue_of_nil quiet, wdT]
  have movedQuiet : ({ w.kernel.inotify with queue := [MT] } : Inotify).watches.find?
      (fun watch => watch.ino == moved.ino) = none :=
    m.unwatched_outside fresh (mem_positions_of_find? _ _ _ atMoved) srcOutside
  simp only [Inotify.notify_of_unwatched fromQuiet, toRecord, Inotify.notify_of_unwatched movedQuiet, vacant,
    Option.map_none']
  -- the tree: the moved subtree now at `r/drel/dleaf`, where its directory holds it
  have changed := perm_exchange before after
  rw [List.nil_append] at changed
  obtain ⟨rootDir', atRoot', grown⟩ := m.subtree_after (fun entry member same => by
      obtain ⟨e, -, rfl⟩ := List.mem_map.mp member
      exact srcNotAbove ⟨e.1, same⟩) changed ((filter_below_apart srcOutside srcNotAbove _).trans List.map_nil.symm)
    (by rw [List.append_assoc, filter_below_inside])
  rw [List.append_nil] at grown after
  obtain ⟨dirNew, atNew, newPerm⟩ := find?_moved_to_vacant before after vacant
  -- the walk of the new directory: every directory of the moved subtree is new to the table
  set K : Kernel := { w.kernel with
    fs := fs', nextCookie := w.kernel.nextCookie + 1
    inotify := { w.kernel.inotify with queue := [MT] } } with defK
  have cached : Cached r { w with kernel := K.drained } table := m.toCached.rekernel rfl rfl le_rfl
  have inTree : ∀ entry ∈ dirNew.positions, below (eT.pos ++ [dleaf]) entry ∈ rootDir'.positions :=
    fun entry member => grown.symm.subset (List.mem_append_right _ (List.mem_map_of_mem _ (newPerm.subset member)))
  have inos : ((rootDir.positions ++ moved.positions).map Prod.snd).Perm
      (table.map Tracked.ino ++ dirNew.positions.map Prod.snd) := by
    rw [List.map_append]
    exact List.Perm.append (by simpa [Function.comp_def, Tracked.place] using placedTable.map Prod.snd)
      (newPerm.map Prod.snd).symm
  obtain ⟨w', table', walked, cached', places, fsKept, nextKept, queueKept⟩ := cached.subtree_walked _
    (by rw [Fs.lookup, canonical_pathAt r validD, ← List.append_assoc]; exact atNew)
    (fun entry member => short.position atRoot' (inTree entry member))
    (fun entry member => freshAfter.older (below (canonical r) (below (eT.pos ++ [dleaf]) entry))
      (mem_positions_under atRoot' (inTree entry member)))
    (inos.nodup_iff.mp (fresh.apart atRoot atMoved srcOutside srcNotAbove))
  -- the handler: an `IN_MOVED_TO` of a directory whose pathname is not cached, walked
  have newShort : (pathAt r (eT.pos ++ [dleaf])).length < pathMax := by
    simpa [below] using short.position atRoot' (inTree _ (mem_positions_of_find? [] dirNew dirNew (Dir.find?_nil _)))
  have untracked : ∀ entry ∈ table, entry.pos ≠ eT.pos ++ [dleaf] := fun entry member same => by
    obtain ⟨found, atFound, -⟩ := find?_of_mem_positions _ _ _ w.kernel.fs.wellFormed
      (mem_positions_under atRoot (placedTable.symm.subset (List.mem_map_of_mem Tracked.place member)))
    simp only [below, Tracked.place, same, ← List.append_assoc, vacant] at atFound
    cases atFound
  have handled : processNextInotifyEvent cfg { w with kernel := K.drained } [MT] (byteSize [MT]) false =
      .ok (w', MT.size) := by
    rw [m.appeared cfg rootOk inT (.inr rfl) _ validLeaf newShort untracked, walked]
    rfl
  refine Settles.of_one (size_mkEvent_le _ _ _ (validName_spec validLeaf).2.2.2) handled
    ⟨cached', rootDir', fsKept ▸ atRoot', ?_⟩ ⟨fsKept, nextKept, queueKept ▸ ignorable_nil, watchSubtree_roots walked⟩
  rw [places]
  exact grown.trans ((newPerm.map _).symm.append_left _)

end In

end InotifyDtree
