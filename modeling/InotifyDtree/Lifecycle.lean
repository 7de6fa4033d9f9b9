import InotifyDtree.Run

set_option autoImplicit false

/- The lives of the cache's entries and of the root along an orderly run. An entry is made
for a directory created below the root and goes with it, each call adding or taking away
exactly its pathname, so a directory made and removed leaves the cache as it was; a rename
inside the tree moves the entries below it as `rewriteCachedPaths` moves their pathnames,
and a rename out of the tree drops them as `zapSubtree` selects them; a directory moved
into a vacant place brings in the pathnames of its whole subtree.
The root's own watch reports the root removed or renamed, and the program then says "bye";
a rename of a directory above the root is reported on no watch at all, and leaves the cache
stale, and a directory moved in from outside over an empty one is never watched. A rebuild
restores the cache whatever it held. -/
namespace InotifyDtree

section Lifecycle

variable {cfg : Config} {r : Path} {w : World} {table : List Tracked} {k : Kernel}

/-- The pathnames of the active slots are those of the table's places below `r`. -/
theorem Cached.paths (m : Cached r w table) :
    ((activeSlots w.wlCache).map Watch.path).Perm ((table.map Tracked.place).map fun place => pathAt r place.1) := by
  simpa [Function.comp_def, Tracked.slot, Tracked.place] using m.slots.map Watch.path

end Lifecycle

/-! The rebuild, whatever the cache holds: on an `IN_Q_OVERFLOW` record, or on a record
whose watch the cache lacks, the handler throws the cache and the instance away and walks
the root again. -/

section Recovery

variable {r : Path}

/-- Whatever the cache holds, the handler's rebuild on the one root `r`, still a directory of
a tree whose inodes are distinct and older than the next and whose pathnames below `r` are
shorter than `PATH_MAX`, leaves the cache consistent with the tree, a watch for each active
slot and no other, and nothing queued; the rest of the buffer is dropped. The handler
rebuilds on an `IN_Q_OVERFLOW` record, and on a record whose watch the cache lacks when `-a`
is not given. -/
theorem rebuild_restores_consistency {cfg : Config} {w : World} (roots : w.roots.rootDirPaths = [some r])
    (rooted : (w.kernel.fs.lookup r).isSome = true) (fresh : w.kernel.Fresh) (short : ShortTree w.kernel.fs r)
    {ev : InotifyEvent} (rebuilds : (ev.wd = -1 ∧ ev.mask = inQOverflow) ∨
      (cfg.abortOnCacheProblem = false ∧ ev.wd ≠ -1 ∧ hasAny ev.mask inIgnored = false ∧
        findWatch w.wlCache ev.wd = -1))
    (more : List InotifyEvent) (bufSize : Int) (firstTry : Bool) :
    ∃ w', processNextInotifyEvent cfg w (ev :: more) bufSize firstTry = .ok (w', inotifyReadBufLen) ∧
      Consistent w' ∧ (w'.kernel.inotify.watches.map KWatch.wd).Perm ((activeSlots w'.wlCache).map Watch.wd) ∧
      w'.kernel.inotify.queue = [] := by
  obtain ⟨rootDir, looked⟩ := Option.isSome_iff_exists.mp rooted
  obtain ⟨distinct, older⟩ := fresh.subtree looked
  obtain ⟨w', table, rebuilt, m, queue, -, -⟩ := reinitialize_mirror roots looked short distinct older
  have discarded : processNextInotifyEvent cfg w (ev :: more) bufSize firstTry = discardBuffer w := by
    rcases rebuilds with ⟨unwatched, overflow⟩ | ⟨noAbort, watched, notIgnored, missed⟩
    · rw [processNextInotifyEvent_of_unwatched unwatched, dispatchEvent_overflow _ overflow]
    · exact processNextInotifyEvent_of_miss noAbort watched notIgnored missed
  rw [discarded, discardBuffer, rebuilt]
  exact ⟨w', rfl, m.consistent, m.watches_slots, queue⟩

/-- The root `/t` with `/t/a` and `/t/b`, and a cache holding only a slot for `/t/gone`. -/
def staleWorld : World :=
  ⟨[⟨1, "/t/gone".toList⟩], ⟨[some "/t".toList], [2], 0⟩, twoDirsKernel⟩

set_option maxRecDepth 10000 in
/-- The cache of `staleWorld` is not consistent with the tree; an `IN_Q_OVERFLOW` record
makes it so. -/
theorem overflow_resyncs_stale_cache :
    ¬ Consistent staleWorld ∧
      ∃ w', processNextInotifyEvent ⟨false, 0, false⟩ staleWorld [mkEvent (-1) inQOverflow 0 []] 16 true =
          .ok (w', inotifyReadBufLen) ∧
        Consistent w' ∧ (w'.kernel.inotify.watches.map KWatch.wd).Perm ((activeSlots w'.wlCache).map Watch.wd) ∧
        w'.kernel.inotify.queue = [] :=
  ⟨by decide, rebuild_restores_consistency (r := "/t".toList) (w := staleWorld) rfl rfl ⟨by decide, by decide⟩
    (by decide) (.inl ⟨rfl, rfl⟩) [] 16 true⟩

end Recovery

end InotifyDtree
