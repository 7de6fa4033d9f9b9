import InotifyDtree.Calls

set_option autoImplicit false

/- The kernel's whole tree, not only the part below a root: its inodes are distinct and
older than the next one, and each call acts on it as `Kernel.mkdir_cases`,
`Kernel.rmdir_cases` and `Kernel.rename_cases` say. A call on directories that are not at
or below the root reports only on inodes no watch is on, so it queues nothing, and the tree
below the root keeps its positions. -/
namespace InotifyDtree

/-! The kernel's tree as a whole. -/

/-- The kernel's tree has distinct inodes, each older than the next one it hands out. -/
structure Kernel.Fresh (k : Kernel) : Prop where
  distinct : (k.fs.root.positions.map Prod.snd).Nodup
  older : ∀ entry ∈ k.fs.root.positions, entry.2 < k.nextIno

/-- A pathname a call succeeded on names a place with a last name. -/
theorem canonical_split (p : Path) (named : (canonical p).getLast? ≠ none) :
    ∃ rel leaf, canonical p = [] ++ (rel ++ [leaf]) := by
  rcases List.eq_nil_or_concat (canonical p) with empty | ⟨rel, leaf, split⟩
  · simp [empty] at named
  · exact ⟨rel, leaf, by rw [split, List.concat_eq_append, List.nil_append]⟩

/-! What each call does to the kernel, read from the top of the tree. -/

section Inversion

variable {k k' : Kernel}

/-- `mkdir` of `p`: a new empty directory, the next inode, at `rel/leaf` under an existing
parent, reported on the parent's inode. -/
theorem Kernel.mkdir_cases {p : Path} (made : k.mkdir p = some k') :
    ∃ rel leaf parentDir fs', canonical p = rel ++ [leaf] ∧ validName leaf = true ∧
      k.fs.root.find? rel = some parentDir ∧ k.fs.root.find? (rel ++ [leaf]) = none ∧
      fs'.root.positions.Perm (k.fs.root.positions ++ [(rel ++ [leaf], k.nextIno)]) ∧
      k' = { k with
        fs := fs', nextIno := k.nextIno + 1
        inotify := k.inotify.notify parentDir.ino inCreate inIsdir 0 leaf } := by
  simp only [Kernel.mkdir, Option.bind_eq_bind, Option.bind_eq_some, Option.pure_def,
    Option.some.injEq] at made
  obtain ⟨⟨fs', parent, name⟩, created, rfl⟩ := made
  obtain ⟨rel, leaf, placed⟩ := canonical_split p fun none => by simp [Fs.mkdir, none] at created
  obtain ⟨rfl, valid, ⟨parentDir, atParent, rfl⟩, absent, root', atRoot', -, grown⟩ :=
    Fs.mkdir_positions (Dir.find?_nil _) placed created
  rw [Dir.find?_nil, Option.some.injEq] at atRoot'
  subst atRoot'
  exact ⟨rel, _, parentDir, fs', placed.trans (List.nil_append _), valid, atParent, absent, grown, rfl⟩

/-- `rmdir` of `p`: the position of the empty directory at `rel/leaf` goes, and its inode
is reported deleted. -/
theorem Kernel.rmdir_cases {p : Path} (removed : k.rmdir p = some k') :
    ∃ rel leaf gone fs', canonical p = rel ++ [leaf] ∧
      k.fs.root.positions.Perm (fs'.root.positions ++ [(rel ++ [leaf], gone)]) ∧
      k' = { k with fs := fs', inotify := k.inotify.deleteSelf gone } := by
  simp only [Kernel.rmdir, Option.bind_eq_bind, Option.bind_eq_some, Option.pure_def,
    Option.some.injEq] at removed
  obtain ⟨⟨fs', gone⟩, gotten, rfl⟩ := removed
  obtain ⟨rel, leaf, placed⟩ := canonical_split p fun none => by simp [Fs.rmdir, none] at gotten
  obtain ⟨root', atRoot', shrunk⟩ := Fs.rmdir_positions (Dir.find?_nil _) placed gotten
  rw [Dir.find?_nil, Option.some.injEq] at atRoot'
  subst atRoot'
  exact ⟨rel, leaf, gone, fs', placed.trans (List.nil_append _), shrunk, rfl⟩

/-- `rename` of `srel/sleaf` to `drel/dleaf`: the moved subtree's positions leave the
source for the destination, the empty directory there, if any, goes, and the records are
those of `Kernel.rename` on the two parents, the moved directory and the replaced one. -/
theorem Kernel.rename_cases {src dst : Path} (renamed : k.rename src dst = some k') :
    ∃ srel sleaf drel dleaf fromDir toDir moved fs' rest,
      canonical src = srel ++ [sleaf] ∧ canonical dst = drel ++ [dleaf] ∧ validName dleaf = true ∧
      ¬ (srel ++ [sleaf]) <+: (drel ++ [dleaf]) ∧
      k.fs.root.find? srel = some fromDir ∧ k.fs.root.find? drel = some toDir ∧
      k.fs.root.find? (srel ++ [sleaf]) = some moved ∧
      k.fs.root.positions.Perm (rest ++ moved.positions.map (below (srel ++ [sleaf]))) ∧
      (∀ entry ∈ rest, ¬ (srel ++ [sleaf]) <+: entry.1) ∧
      (fs'.root.positions ++
        ((k.fs.root.find? (drel ++ [dleaf])).map fun old => (drel ++ [dleaf], old.ino)).toList).Perm
        (rest ++ moved.positions.map (below (drel ++ [dleaf]))) ∧
      k' = { k with fs := fs', nextCookie := k.nextCookie + 1, inotify :=
        let inst := ((k.inotify.notify fromDir.ino inMovedFrom inIsdir (k.nextCookie + 1) sleaf).notify
          toDir.ino inMovedTo inIsdir (k.nextCookie + 1) dleaf).notify moved.ino inMoveSelf 0 0 []
        match (k.fs.root.find? (drel ++ [dleaf])).map Dir.ino with
        | some old => inst.deleteSelf old
        | none => inst } := by
  simp only [Kernel.rename, Option.bind_eq_bind, Option.bind_eq_some, Option.pure_def,
    Option.some.injEq] at renamed
  obtain ⟨⟨fs', rn⟩, gotten, rfl⟩ := renamed
  obtain ⟨srel, sleaf, fromPlaced⟩ := canonical_split src fun none => by simp [Fs.rename, none] at gotten
  obtain ⟨drel, dleaf, toPlaced⟩ := canonical_split dst fun none => by simp [Fs.rename, none] at gotten
  obtain ⟨valid, notBelow, fromDir, toDir, moved, atFrom, atTo, atMoved, rfl, root', rest, atRoot', before,
    outside, after⟩ := Fs.rename_positions (Dir.find?_nil _) fromPlaced toPlaced gotten
  rw [Dir.find?_nil, Option.some.injEq] at atRoot'
  subst atRoot'
  exact ⟨srel, sleaf, drel, dleaf, fromDir, toDir, moved, fs', rest, fromPlaced.trans (List.nil_append _),
    toPlaced.trans (List.nil_append _), valid, notBelow, atFrom, atTo, atMoved, before, outside, after, rfl⟩

end Inversion

section Fresh

variable {k k' : Kernel}

theorem Kernel.Fresh.mkdir (fresh : k.Fresh) {p : Path} (made : k.mkdir p = some k') : k'.Fresh := by
  obtain ⟨rel, leaf, _, fs', -, -, -, -, grown, rfl⟩ := Kernel.mkdir_cases made
  refine ⟨(grown.map Prod.snd).nodup_iff.mpr ?_, fun entry member => ?_⟩
  · rw [List.map_append, List.nodup_append]
    refine ⟨fresh.distinct, List.nodup_singleton _, fun ino held single => ?_⟩
    obtain ⟨entry, member, rfl⟩ := List.mem_map.mp held
    exact Nat.ne_of_lt (fresh.older entry member) (List.mem_singleton.mp single)
  · rcases List.mem_append.mp (grown.subset member) with old | new
    · exact Nat.lt_succ_of_lt (fresh.older entry old)
    · rw [List.mem_singleton.mp new]
      exact Nat.lt_succ_self _

theorem Kernel.Fresh.rmdir (fresh : k.Fresh) {p : Path} (removed : k.rmdir p = some k') : k'.Fresh := by
  obtain ⟨rel, leaf, gone, fs', -, shrunk, rfl⟩ := Kernel.rmdir_cases removed
  have kept : List.Sublist fs'.root.positions _ := List.sublist_append_left _ [(rel ++ [leaf], gone)]
  exact ⟨((shrunk.map Prod.snd).nodup_iff.mp fresh.distinct).sublist (kept.map _),
    fun entry member => fresh.older entry (shrunk.symm.subset (kept.subset member))⟩

theorem Kernel.Fresh.rename (fresh : k.Fresh) {src dst : Path} (renamed : k.rename src dst = some k') :
    k'.Fresh := by
  obtain ⟨_, _, drel, dleaf, _, _, _, fs', _, -, -, -, -, -, -, -, before, -, after, rfl⟩ :=
    Kernel.rename_cases renamed
  generalize ((k.fs.root.find? (drel ++ [dleaf])).map fun old => (drel ++ [dleaf], old.ino)).toList = replaced
    at after
  have inodes : ((fs'.root.positions ++ replaced).map Prod.snd).Perm (k.fs.root.positions.map Prod.snd) := by
    refine (after.map Prod.snd).trans ?_
    refine List.Perm.trans ?_ (before.map Prod.snd).symm
    simp [Function.comp_def, below]
  have kept := (List.sublist_append_left fs'.root.positions replaced).map Prod.snd
  refine ⟨(inodes.nodup_iff.mpr fresh.distinct).sublist kept, fun entry member => ?_⟩
  obtain ⟨other, held, same⟩ := List.mem_map.mp (inodes.subset (List.mem_map_of_mem Prod.snd
    (List.mem_append_left _ member)))
  exact same ▸ fresh.older other held

theorem Kernel.Fresh.changed (fresh : k.Fresh) (changed : k.Changed k') : k'.Fresh := by
  rcases changed with ⟨p, made⟩ | ⟨p, removed⟩ | ⟨src, dst, renamed⟩
  · exact fresh.mkdir made
  · exact fresh.rmdir removed
  · exact fresh.rename renamed

theorem Kernel.Fresh.drained (fresh : k.Fresh) : k.drained.Fresh := ⟨fresh.distinct, fresh.older⟩

/-- The handler leaves the tree and the inode counter as they were. -/
theorem Kernel.Fresh.handled {w w' : World} (fresh : w.kernel.Fresh) (handled : Handled w w') : w'.kernel.Fresh := by
  obtain ⟨sameFs, sameIno, -⟩ := handled
  exact ⟨sameFs ▸ fresh.distinct, sameFs ▸ sameIno ▸ fresh.older⟩

/-- The directories of a subtree have distinct inodes, older than the next one. -/
theorem Kernel.Fresh.subtree (fresh : k.Fresh) {names : List Path} {sub : Dir}
    (found : k.fs.root.find? names = some sub) :
    (sub.positions.map Prod.snd).Nodup ∧ ∀ entry ∈ sub.positions, entry.2 < k.nextIno := by
  have under := Dir.positions_under names _ sub k.fs.wellFormed found
  have inodes := fresh.distinct.sublist
    ((List.filter_sublist (p := fun e => names.isPrefixOf e.1) k.fs.root.positions).map Prod.snd)
  rw [under] at inodes
  refine ⟨by simpa [Function.comp_def, below] using inodes, fun entry member => ?_⟩
  refine fresh.older (below names entry) (List.mem_of_mem_filter (p := fun e => names.isPrefixOf e.1) ?_)
  rw [under]
  exact List.mem_map_of_mem _ member

/-- The directories of two subtrees apart from each other have distinct inodes. -/
theorem Kernel.Fresh.apart (fresh : k.Fresh) {names names' : List Path} {dir dir' : Dir}
    (found : k.fs.root.find? names = some dir) (found' : k.fs.root.find? names' = some dir')
    (outside : ¬ names <+: names') (notAbove : ¬ names' <+: names) :
    ((dir.positions ++ dir'.positions).map Prod.snd).Nodup := by
  have under := Dir.positions_under names _ dir k.fs.wellFormed found
  have under' := Dir.positions_under names' _ dir' k.fs.wellFormed found'
  have split := List.filter_append_perm (fun entry => names.isPrefixOf entry.1) k.fs.root.positions
  have others : List.Sublist (k.fs.root.positions.filter fun entry => names'.isPrefixOf entry.1)
      (k.fs.root.positions.filter fun entry => !names.isPrefixOf entry.1) :=
    List.monotone_filter_right _ fun entry prefixed' => by
      rw [Bool.not_eq_true', Bool.eq_false_iff]
      intro prefixed
      rcases List.prefix_or_prefix_of_prefix (List.isPrefixOf_iff_prefix.mp prefixed)
        (List.isPrefixOf_iff_prefix.mp prefixed') with above | below
      · exact outside above
      · exact notAbove below
  have distinct := ((split.map Prod.snd).nodup_iff.mpr fresh.distinct).sublist
    (((List.Sublist.refl _).append others).map Prod.snd)
  rw [under, under'] at distinct
  simpa [Function.comp_def, below] using distinct

end Fresh

/-! Calls beside the tree below the root: on directories that are not at or below it, which
no watch is on. -/

theorem Inotify.notify_of_unwatched {inst : Inotify} {ino : Ino}
    (missing : inst.watches.find? (fun watch => watch.ino == ino) = none) (bits extra cookie : UInt32)
    (name : Path) : inst.notify ino bits extra cookie name = inst := by
  simp [Inotify.notify, missing]

theorem Inotify.deleteSelf_of_unwatched {inst : Inotify} {ino : Ino}
    (missing : inst.watches.find? (fun watch => watch.ino == ino) = none) : inst.deleteSelf ino = inst := by
  simp [Inotify.deleteSelf, missing]

/-- Nothing under a place apart from `top` is at or below `top`. -/
theorem not_prefix_append_of_apart {top names : List Path} (outside : ¬ top <+: names)
    (notAbove : ¬ names <+: top) (more : List Path) : ¬ top <+: names ++ more := fun prefixed =>
  (List.prefix_or_prefix_of_prefix prefixed (List.prefix_append names more)).elim outside notAbove

/-- The positions of a subtree placed at `top ++ rel`, seen from `top`. -/
theorem filter_below_inside (top rel : List Path) (positions : List (List Path × Ino)) :
    (positions.map (below (top ++ rel))).filter (fun entry => top.isPrefixOf entry.1) =
      (positions.map (below rel)).map (below top) := by
  rw [List.filter_eq_self.mpr fun entry member => ?_]
  · simp [Function.comp_def, below_below]
  · obtain ⟨e, -, rfl⟩ := List.mem_map.mp member
    simp [below, List.isPrefixOf_iff_prefix, List.append_assoc]

/-- None of the positions of a subtree placed apart from `top` is at or below it. -/
theorem filter_below_apart {top names : List Path} (outside : ¬ top <+: names) (notAbove : ¬ names <+: top)
    (positions : List (List Path × Ino)) :
    (positions.map (below names)).filter (fun entry => top.isPrefixOf entry.1) = [] :=
  List.filter_eq_nil_iff.mpr fun entry member prefixed => by
    obtain ⟨e, -, rfl⟩ := List.mem_map.mp member
    exact not_prefix_append_of_apart outside notAbove e.1 (List.isPrefixOf_iff_prefix.mp prefixed)

/-- Positions that leave the shared `rest` as `gone` and come back as `added`, the new tree
losing `extra` besides: the two trees, each with what the other lacks. -/
theorem perm_exchange {before after rest gone added extra : List (List Path × Ino)}
    (was : before.Perm (rest ++ gone)) (now : (after ++ extra).Perm (rest ++ added)) :
    (after ++ (extra ++ gone)).Perm (before ++ added) := by
  have swapped : (rest ++ added ++ gone).Perm (rest ++ gone ++ added) := by
    simpa only [List.append_assoc] using List.perm_append_comm.append_left rest
  rw [← List.append_assoc]
  exact ((now.append_right gone).trans swapped).trans (was.symm.append_right added)

/-- A directory of a subtree is in the whole tree, under the subtree's place. -/
theorem mem_positions_under {fs : Fs} {names : List Path} {sub : Dir} (found : fs.root.find? names = some sub)
    {entry : List Path × Ino} (member : entry ∈ sub.positions) : below names entry ∈ fs.root.positions := by
  refine List.mem_of_mem_filter (p := fun e => names.isPrefixOf e.1) ?_
  rw [Dir.positions_under _ _ sub fs.wellFormed found]
  exact List.mem_map_of_mem _ member

/-- After a `rename` to a place where nothing was, the directory there holds the moved
subtree. -/
theorem find?_moved_to_vacant {fs fs' : Fs} {rest gone : List (List Path × Ino)} {moved : Dir} {dst : List Path}
    (was : fs.root.positions.Perm (rest ++ gone))
    (now : fs'.root.positions.Perm (rest ++ moved.positions.map (below dst))) (vacant : fs.root.find? dst = none) :
    ∃ dirNew, fs'.root.find? dst = some dirNew ∧ dirNew.positions.Perm moved.positions := by
  have present : (dst, moved.ino) ∈ fs'.root.positions := by
    simpa [below] using now.symm.subset (List.mem_append_right _
      (List.mem_map_of_mem (below dst) (mem_positions_of_find? [] moved moved (Dir.find?_nil _))))
  obtain ⟨dirNew, atNew, -⟩ := find?_of_mem_positions _ fs'.root moved.ino fs'.wellFormed present
  have restOut : rest.filter (fun entry => dst.isPrefixOf entry.1) = [] :=
    List.filter_eq_nil_iff.mpr fun entry member prefixed => by
      obtain ⟨tail, split⟩ := List.isPrefixOf_iff_prefix.mp prefixed
      obtain ⟨found, atFound, -⟩ := find?_of_mem_positions _ _ _ fs.wellFormed
        (was.symm.subset (List.mem_append_left _ member))
      rw [← split, Dir.find?_append, vacant, Option.none_bind] at atFound
      cases atFound
  have movedIn := now.filter fun entry => dst.isPrefixOf entry.1
  rw [Dir.positions_under _ fs'.root dirNew fs'.wellFormed atNew, List.filter_append, restOut, List.nil_append,
    List.filter_eq_self.mpr fun entry member => ?_] at movedIn
  · exact ⟨dirNew, atNew, perm_of_below movedIn⟩
  · obtain ⟨e, -, rfl⟩ := List.mem_map.mp member
    simp [below, List.isPrefixOf_iff_prefix]

section Beside

variable {r : Path} {w : World} {table : List Tracked}

/-- A directory of the tree that is not at or below `r` has no watch. -/
theorem Mirror.unwatched_outside (m : Mirror r w table) (fresh : w.kernel.Fresh) {pos : List Path} {ino : Ino}
    (member : (pos, ino) ∈ w.kernel.fs.root.positions) (outside : ¬ canonical r <+: pos) :
    w.kernel.inotify.watches.find? (fun watch => watch.ino == ino) = none := by
  refine m.unwatched fun named => ?_
  obtain ⟨entry, held, rfl⟩ := List.mem_map.mp named
  obtain ⟨rootDir, looked, placed⟩ := m.tree
  have same := List.inj_on_of_nodup_map fresh.distinct member
    (mem_positions_under looked (placed.symm.subset (List.mem_map_of_mem _ held))) rfl
  exact outside ⟨entry.pos, (congrArg Prod.fst same).symm⟩

/-- After a call whose positions at `r` or below are `lost` fewer and `extra` more, none of
`gone` at `r` itself, the tree at `r` is the table's less `lost`, with `extra`. -/
theorem Mirror.subtree_after (m : Mirror r w table) {fs : Fs} {gone added lost extra : List (List Path × Ino)}
    (kept : ∀ entry ∈ gone, entry.1 ≠ canonical r)
    (changed : (fs.root.positions ++ gone).Perm (w.kernel.fs.root.positions ++ added))
    (goneBelow : gone.filter (fun entry => (canonical r).isPrefixOf entry.1) = lost.map (below (canonical r)))
    (addedBelow : added.filter (fun entry => (canonical r).isPrefixOf entry.1) = extra.map (below (canonical r))) :
    ∃ rootDir, fs.lookup r = some rootDir ∧ (rootDir.positions ++ lost).Perm (table.map Tracked.place ++ extra) := by
  obtain ⟨rootDir, looked, placed⟩ := m.tree
  obtain ⟨rootDir', looked', shifted⟩ := Dir.subtree_perm w.kernel.fs.wellFormed fs.wellFormed looked kept changed
  rw [goneBelow, addedBelow, ← List.map_append, ← List.map_append] at shifted
  exact ⟨rootDir', looked', (perm_of_below shifted).trans (placed.append_right _)⟩

/-- A call that changes positions outside `r` only keeps the tree at `r`. -/
theorem Mirror.subtree_kept (m : Mirror r w table) {fs : Fs} {gone added : List (List Path × Ino)}
    (changed : (fs.root.positions ++ gone).Perm (w.kernel.fs.root.positions ++ added))
    (goneOutside : ∀ entry ∈ gone, ¬ canonical r <+: entry.1)
    (addedOutside : ∀ entry ∈ added, ¬ canonical r <+: entry.1) :
    ∃ rootDir, fs.lookup r = some rootDir ∧ rootDir.positions.Perm (table.map Tracked.place) := by
  have none : ∀ side : List (List Path × Ino), (∀ entry ∈ side, ¬ canonical r <+: entry.1) →
      side.filter (fun entry => (canonical r).isPrefixOf entry.1) = ([] : List (List Path × Ino)).map (below (canonical r)) :=
    fun side outside => List.filter_eq_nil_iff.mpr fun entry member prefixed =>
      outside entry member (List.isPrefixOf_iff_prefix.mp prefixed)
  obtain ⟨rootDir, looked, perm⟩ := m.subtree_after
    (fun entry member same => goneOutside entry member (same ▸ List.prefix_refl _)) changed
    (none gone goneOutside) (none added addedOutside)
  exact ⟨rootDir, looked, by simpa using perm⟩

/-- The table still describes the cache under a kernel with the same watches and
descriptors and no fewer inodes. -/
theorem Cached.rekernel (m : Cached r w table) {k : Kernel} (watches : k.inotify.watches = w.kernel.inotify.watches)
    (lastWd : k.inotify.lastWd = w.kernel.inotify.lastWd) (grown : w.kernel.nextIno ≤ k.nextIno) :
    Cached r { w with kernel := k } table where
  roots := m.roots
  slots := m.slots
  watches := watches ▸ m.watches
  selects := watches ▸ m.selects
  distinct := m.distinct
  fresh := fun entry member => by
    obtain ⟨positive, issued, old⟩ := m.fresh entry member
    exact ⟨positive, lastWd ▸ issued, lt_of_lt_of_le old grown⟩
  built := m.built
  short := m.short
  rootSelf := watches ▸ m.rootSelf
  rootMoves := watches ▸ m.rootMoves

/-- A call that queues nothing and keeps the watches and the tree below `r`: nothing to
handle, and the cache still mirrors the tree. -/
theorem Mirror.settles_quiet (m : Mirror r w table) (cfg : Config) {k : Kernel}
    (watches : k.inotify.watches = w.kernel.inotify.watches) (lastWd : k.inotify.lastWd = w.kernel.inotify.lastWd)
    (grown : w.kernel.nextIno ≤ k.nextIno)
    (tree : ∃ rootDir, k.fs.lookup r = some rootDir ∧ rootDir.positions.Perm (table.map Tracked.place)) :
    Settles cfg r { w with kernel := k.drained } [] :=
  ⟨fun _ member => (nomatch member), _, table, wholeStream_nil _ _,
    ⟨m.rekernel (k := k.drained) watches lastWd grown, tree⟩, rfl, rfl, ignorable_nil, rfl⟩

/-- `mkdir` of a directory not at or below `r`: its parent has no watch, so nothing is
queued, and the tree at `r` keeps its positions. -/
theorem Mirror.mkdir_beside (m : Mirror r w table) (cfg : Config) (fresh : w.kernel.Fresh)
    (quiet : w.kernel.inotify.queue = []) {p : Path} {k : Kernel} (made : w.kernel.mkdir p = some k)
    (outside : ¬ canonical r <+: canonical p) :
    Settles cfg r { w with kernel := k.drained } k.inotify.queue := by
  obtain ⟨rel, leaf, parentDir, fs', placed, -, atParent, -, grown, rfl⟩ := Kernel.mkdir_cases made
  rw [placed] at outside
  have unwatched := m.unwatched_outside fresh (mem_positions_of_find? rel _ parentDir atParent)
    fun above => outside (above.trans (List.prefix_append rel [leaf]))
  have changed : (fs'.root.positions ++ []).Perm (w.kernel.fs.root.positions ++ [(rel ++ [leaf], w.kernel.nextIno)]) := by
    rwa [List.append_nil]
  simp only [Inotify.notify_of_unwatched unwatched, quiet]
  exact m.settles_quiet cfg rfl rfl (Nat.le_succ _) (m.subtree_kept changed (by simp) (by simpa using outside))

/-- `rmdir` of a directory not at or below `r`: it has no watch, so nothing is queued,
and the tree at `r` keeps its positions. -/
theorem Mirror.rmdir_beside (m : Mirror r w table) (cfg : Config) (fresh : w.kernel.Fresh)
    (quiet : w.kernel.inotify.queue = []) {p : Path} {k : Kernel} (removed : w.kernel.rmdir p = some k)
    (outside : ¬ canonical r <+: canonical p) :
    Settles cfg r { w with kernel := k.drained } k.inotify.queue := by
  obtain ⟨rel, leaf, gone, fs', placed, shrunk, rfl⟩ := Kernel.rmdir_cases removed
  rw [placed] at outside
  have unwatched := m.unwatched_outside fresh
    (shrunk.symm.subset (List.mem_append_right _ (List.mem_singleton_self _))) outside
  have changed : (fs'.root.positions ++ [(rel ++ [leaf], gone)]).Perm (w.kernel.fs.root.positions ++ []) := by
    rw [List.append_nil]
    exact shrunk.symm
  simp only [Inotify.deleteSelf_of_unwatched unwatched, quiet]
  exact m.settles_quiet cfg rfl rfl le_rfl (m.subtree_kept changed (by simpa using outside) (by simp))

/-- `rename` between two places apart from `r`: none of the directories it reports on has
a watch, so nothing is queued, and the tree at `r` keeps its positions. -/
theorem Mirror.rename_beside (m : Mirror r w table) (cfg : Config) (fresh : w.kernel.Fresh)
    (quiet : w.kernel.inotify.queue = []) {src dst : Path} {k : Kernel} (renamed : w.kernel.rename src dst = some k)
    (srcOutside : ¬ canonical r <+: canonical src) (srcNotAbove : ¬ canonical src <+: canonical r)
    (dstOutside : ¬ canonical r <+: canonical dst) (dstNotAbove : ¬ canonical dst <+: canonical r) :
    Settles cfg r { w with kernel := k.drained } k.inotify.queue := by
  obtain ⟨srel, sleaf, drel, dleaf, fromDir, toDir, moved, fs', rest, fromPlaced, toPlaced, -, -, atFrom, atTo,
    atMoved, before, -, after, rfl⟩ := Kernel.rename_cases renamed
  rw [fromPlaced] at srcOutside srcNotAbove
  rw [toPlaced] at dstOutside dstNotAbove
  have fromQuiet := m.unwatched_outside fresh (mem_positions_of_find? _ _ _ atFrom)
    fun above => srcOutside (above.trans (List.prefix_append _ _))
  have toQuiet := m.unwatched_outside fresh (mem_positions_of_find? _ _ _ atTo)
    fun above => dstOutside (above.trans (List.prefix_append _ _))
  have movedQuiet := m.unwatched_outside fresh (mem_positions_of_find? _ _ _ atMoved) srcOutside
  generalize replacedAt : w.kernel.fs.root.find? (drel ++ [dleaf]) = replaced at after
  have tree := m.subtree_kept (perm_exchange before after)
    (by
      simp only [List.mem_append, List.mem_map]
      rintro entry (replacedHere | ⟨e, -, rfl⟩)
      · cases replaced <;> simp_all
      · exact not_prefix_append_of_apart srcOutside srcNotAbove e.1)
    (by
      simp only [List.mem_map]
      rintro entry ⟨e, -, rfl⟩
      exact not_prefix_append_of_apart dstOutside dstNotAbove e.1)
  cases replaced with
  | none =>
    simp only [Inotify.notify_of_unwatched fromQuiet, Inotify.notify_of_unwatched toQuiet,
      Inotify.notify_of_unwatched movedQuiet, replacedAt, Option.map_none', quiet]
    exact m.settles_quiet cfg rfl rfl le_rfl tree
  | some old =>
    have oldQuiet := m.unwatched_outside fresh (mem_positions_of_find? _ _ _ replacedAt) dstOutside
    simp only [Inotify.notify_of_unwatched fromQuiet, Inotify.notify_of_unwatched toQuiet,
      Inotify.notify_of_unwatched movedQuiet, replacedAt, Option.map_some',
      Inotify.deleteSelf_of_unwatched oldQuiet, quiet]
    exact m.settles_quiet cfg rfl rfl le_rfl tree

end Beside

/-! Calls made while records that a watch is gone are still queued. -/

section Requeue

variable {pending : List InotifyEvent} (ignorable : Ignorable pending)
include ignorable

end Requeue

end InotifyDtree
