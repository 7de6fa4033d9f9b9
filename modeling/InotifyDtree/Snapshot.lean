import InotifyDtree.CacheMap
import InotifyDtree.System

set_option autoImplicit false

/- `reinitialize` against a tree that does not change during the call. The cache it
leaves is the snapshot of the walks from the roots that have not been zapped: one slot
per directory, under the pathname at which the walks first reach it, holding a watch
of the new instance, with the descriptors handed out in walk order. A pathname of
`PATH_MAX` characters or more makes `inotify_add_watch` fail with `ENAMETOOLONG`, and
the program exits instead. -/
namespace InotifyDtree

/-- The slots a fresh cache holds after adding `dirs` in order, the first with
descriptor `n`. -/
def numberedSlots : Nat → List (Path × Ino) → List Watch
  | _, [] => []
  | n, (p, _) :: rest => ⟨n, p⟩ :: numberedSlots (n + 1) rest

/-- The descriptors and inodes of the watches a fresh instance holds after `dirs`. -/
def numberedWatches : Nat → List (Path × Ino) → List (Int × Ino)
  | _, [] => []
  | n, (_, ino) :: rest => (n, ino) :: numberedWatches (n + 1) rest

theorem numberedSlots_append (n : Nat) (dirs : List (Path × Ino)) (p : Path) (ino : Ino) :
    numberedSlots n (dirs ++ [(p, ino)]) = numberedSlots n dirs ++ [⟨(n + dirs.length : Nat), p⟩] := by
  induction dirs generalizing n with
  | nil => simp [numberedSlots]
  | cons dir rest ih =>
    have shifted : n + 1 + rest.length = n + (rest.length + 1) := by omega
    rw [List.cons_append, numberedSlots, numberedSlots, ih, List.length_cons, shifted, List.cons_append]

theorem numberedWatches_append (n : Nat) (dirs : List (Path × Ino)) (p : Path) (ino : Ino) :
    numberedWatches n (dirs ++ [(p, ino)]) =
      numberedWatches n dirs ++ [(((n + dirs.length : Nat) : Int), ino)] := by
  induction dirs generalizing n with
  | nil => simp [numberedWatches]
  | cons dir rest ih =>
    have shifted : n + 1 + rest.length = n + (rest.length + 1) := by omega
    rw [List.cons_append, numberedWatches, numberedWatches, ih, List.length_cons, shifted, List.cons_append]

theorem numberedSlots_wd (n : Nat) (dirs : List (Path × Ino)) :
    (numberedSlots n dirs).map Watch.wd = (numberedWatches n dirs).map Prod.fst := by
  induction dirs generalizing n with
  | nil => rfl
  | cons dir rest ih => simp [numberedSlots, numberedWatches, ih]

theorem numberedWatches_ino (n : Nat) (dirs : List (Path × Ino)) :
    (numberedWatches n dirs).map Prod.snd = dirs.map Prod.snd := by
  induction dirs generalizing n with
  | nil => rfl
  | cons dir rest ih => simp [numberedWatches, ih]

/-- The descriptors of the numbered slots run from `n` to `n + length - 1`. -/
theorem numberedSlots_wd_bounds (n : Nat) (dirs : List (Path × Ino)) :
    ∀ slot ∈ numberedSlots n dirs, (n : Int) ≤ slot.wd ∧ slot.wd < n + dirs.length := by
  induction dirs generalizing n with
  | nil => simp [numberedSlots]
  | cons dir rest ih =>
    intro slot member
    simp only [numberedSlots, List.mem_cons] at member
    rcases member with rfl | later
    · simp only [List.length_cons]
      omega
    · have bounds := ih (n + 1) slot later
      simp only [List.length_cons]
      omega

theorem numberedSlots_wd_nodup (n : Nat) (dirs : List (Path × Ino)) :
    ((numberedSlots n dirs).map Watch.wd).Nodup := by
  induction dirs generalizing n with
  | nil => exact List.nodup_nil
  | cons dir rest ih =>
    refine List.nodup_cons.mpr ⟨fun member => ?_, ih (n + 1)⟩
    obtain ⟨slot, later, same⟩ := List.mem_map.mp member
    have bounds := numberedSlots_wd_bounds (n + 1) rest slot later
    simp only at same
    omega

theorem activeSlots_numbered (dirs : List (Path × Ino)) (m : Nat) :
    activeSlots (numberedSlots 1 dirs ++ List.replicate m emptySlot) = numberedSlots 1 dirs := by
  rw [activeSlots_append, activeSlots_eq_nil fun _ => List.eq_of_mem_replicate, List.append_nil]
  exact List.filter_eq_self.mpr fun slot member => by
    have bounds := numberedSlots_wd_bounds 1 dirs slot member
    simp only [decide_eq_true_eq]
    omega

/-- Reading the numbered slots through the numbered watches gives back the
directories. -/
theorem numberedSlots_slotDir :
    ∀ (n : Nat) (dirs : List (Path × Ino)) (watches : List KWatch),
      watches.map (fun watch => (watch.wd, watch.ino)) = numberedWatches n dirs →
      (numberedSlots n dirs).map (fun slot =>
        (watches.find? (fun watch => watch.wd == slot.wd)).map fun watch => (slot.path, watch.ino)) =
        dirs.map some
  | _, [], _, _ => rfl
  | n, (p, ino) :: rest, watches, numbered => by
    obtain ⟨kw, others, rfl⟩ : ∃ kw others, watches = kw :: others := by
      cases watches with
      | nil => cases numbered
      | cons kw others => exact ⟨kw, others, rfl⟩
    simp only [List.map_cons, numberedWatches, List.cons.injEq, Prod.mk.injEq] at numbered
    obtain ⟨⟨wd, sameIno⟩, numberedRest⟩ := numbered
    have skip : ∀ slot ∈ numberedSlots (n + 1) rest,
        ((kw :: others).find? (fun watch => watch.wd == slot.wd)).map (fun watch => (slot.path, watch.ino)) =
          (others.find? (fun watch => watch.wd == slot.wd)).map fun watch => (slot.path, watch.ino) := by
      intro slot member
      have bounds := numberedSlots_wd_bounds (n + 1) rest slot member
      have differs : (kw.wd == slot.wd) = false := by
        simp only [beq_eq_false_iff_ne, wd]
        omega
      rw [List.find?_cons_of_neg _ (by simp [differs])]
    have head : (kw :: others).find? (fun watch => watch.wd == (n : Int)) = some kw :=
      List.find?_cons_of_pos _ (by simp [wd])
    simp only [numberedSlots, List.map_cons, head, Option.map_some', sameIno, List.map_congr_left skip,
      numberedSlots_slotDir (n + 1) rest others numberedRest]

@[simp] theorem length_numberedSlots (n : Nat) (dirs : List (Path × Ino)) :
    (numberedSlots n dirs).length = dirs.length := by
  induction dirs generalizing n with
  | nil => rfl
  | cons dir rest ih => simp [numberedSlots, ih]

/-- The cache and the new instance after the walks have reached `dirs`, each directory
once: numbered slots then free ones, one numbered watch per directory. -/
structure Built (dirs : List (Path × Ino)) (w : World) : Prop where
  watches : w.kernel.inotify.watches.map (fun watch => (watch.wd, watch.ino)) = numberedWatches 1 dirs
  slots : ∃ m, w.wlCache = numberedSlots 1 dirs ++ List.replicate m emptySlot
  lastWd : w.kernel.inotify.lastWd = dirs.length
  distinct : (dirs.map Prod.snd).Nodup

section Numbered

variable (dirs : List (Path × Ino)) (m : Nat)

/-- The next descriptor has no slot yet. -/
theorem findWatch_numbered_fresh :
    findWatch (numberedSlots 1 dirs ++ List.replicate m emptySlot) ((dirs.length : Int) + 1) = -1 := by
  rcases scanSlots_cases (fun slot => slot.wd == (dirs.length : Int) + 1)
      (numberedSlots 1 dirs ++ List.replicate m emptySlot) with ⟨miss, -⟩ | ⟨j, within, -, holds⟩
  · exact miss
  · have member := List.getElem_mem within
    simp only [beq_iff_eq] at holds
    rcases List.mem_append.mp member with numbered | blank
    · have bounds := numberedSlots_wd_bounds 1 dirs _ numbered
      omega
    · rw [List.eq_of_mem_replicate blank] at holds
      simp [emptySlot] at holds
      omega

/-- A descriptor of the new instance has its slot. -/
theorem findWatch_numbered_of_mem {wd : Int} (member : wd ∈ (numberedWatches 1 dirs).map Prod.fst) :
    0 ≤ findWatch (numberedSlots 1 dirs ++ List.replicate m emptySlot) wd := by
  rcases scanSlots_cases (fun slot => slot.wd == wd)
      (numberedSlots 1 dirs ++ List.replicate m emptySlot) with ⟨-, absent⟩ | ⟨j, -, hit, -⟩
  · rw [← numberedSlots_wd] at member
    obtain ⟨slot, present, rfl⟩ := List.mem_map.mp member
    simpa using absent slot (List.mem_append_left _ present)
  · have found : findWatch (numberedSlots 1 dirs ++ List.replicate m emptySlot) wd = j := hit
    rw [found]
    exact Int.ofNat_nonneg j

/-- Adding the next directory fills the first free slot, growing the array when there is
none. -/
theorem addWatchToCache_numbered (p : Path) (ino : Ino) (short : p.length < pathMax) :
    ∃ m', (addWatchToCache (numberedSlots 1 dirs ++ List.replicate m emptySlot)
        ((dirs.length : Int) + 1) p).1 =
      numberedSlots 1 (dirs ++ [(p, ino)]) ++ List.replicate m' emptySlot := by
  have noFree : (numberedSlots 1 dirs).findIdx? (fun slot => slot.wd == -1) = none :=
    List.findIdx?_eq_none_iff.mpr fun slot member => by
      have bounds := numberedSlots_wd_bounds 1 dirs slot member
      simp only [beq_eq_false_iff_ne]
      omega
  have added : (⟨(dirs.length : Int) + 1, strncpy pathMax p⟩ : Watch) =
      ⟨((1 + dirs.length : Nat) : Int), p⟩ := by
    rw [strncpy_of_lt short, Watch.mk.injEq]
    exact ⟨by omega, rfl⟩
  rw [addWatchToCache_fst, numberedSlots_append]
  unfold findEmptyCacheSlot
  rw [List.findIdx?_append, noFree, List.findIdx?_replicate, Option.none_or]
  cases m with
  | zero =>
    refine ⟨allocIncr - 1, ?_⟩
    simp only [Nat.lt_irrefl, false_and, if_false, Option.map_none', List.replicate_zero,
      List.append_nil]
    rw [List.set_append_right _ _ (by simp), length_numberedSlots, Nat.sub_self, added,
      List.append_assoc]
    rfl
  | succ m =>
    refine ⟨m, ?_⟩
    simp only [Nat.zero_lt_succ, true_and, emptySlot, beq_self_eq_true, if_true, Option.map_some',
      Nat.zero_add, length_numberedSlots]
    rw [List.set_append_right _ _ (by simp), length_numberedSlots, Nat.sub_self]
    rw [show (⟨(dirs.length : Int) + 1, strncpy pathMax p⟩ : Watch) = ⟨((1 + dirs.length : Nat) : Int), p⟩
      from added, List.append_assoc]
    rfl

end Numbered

/-- The new instance before the walks: no watch, an empty cache. -/
theorem built_fresh (w : World) :
    Built [] { w with kernel := w.kernel.inotifyInit, wlCache := [] } :=
  ⟨rfl, ⟨0, rfl⟩, rfl, List.nodup_nil⟩

/-- One callback of the walk, on a directory that resolves, at a pathname shorter than
`PATH_MAX`: a directory reached before keeps its descriptor and its slot (only its
watch's mask is set again), a new one gets the next descriptor and the next slot. -/
theorem traverseTree_built {dirs : List (Path × Ino)} {w : World} (built : Built dirs w)
    {p : Path} {dir : Dir} (resolves : w.kernel.fs.lookup p = some dir) (short : p.length < pathMax) :
    ∃ w', traverseTree w p = .ok w' ∧
      Built (if dir.ino ∈ dirs.map Prod.snd then dirs else dirs ++ [(p, dir.ino)]) w' ∧
      w'.roots = w.roots ∧ w'.kernel.fs = w.kernel.fs ∧
      w'.kernel.inotify.generation = w.kernel.inotify.generation := by
  obtain ⟨m, layout⟩ := built.slots
  have inos : w.kernel.inotify.watches.map KWatch.ino = dirs.map Prod.snd := by
    rw [← numberedWatches_ino 1 dirs, ← built.watches, List.map_map]
    rfl
  by_cases seen : dir.ino ∈ dirs.map Prod.snd
  · rw [if_pos seen]
    obtain ⟨watch, found⟩ : ∃ watch,
        w.kernel.inotify.watches.find? (fun watch => watch.ino == dir.ino) = some watch := by
      rw [← inos] at seen
      obtain ⟨watch, member, same⟩ := List.mem_map.mp seen
      exact Option.isSome_iff_exists.mp (List.find?_isSome.mpr ⟨watch, member, by simp [same]⟩)
    have cached : 0 ≤ findWatch w.wlCache watch.wd := by
      rw [layout]
      apply findWatch_numbered_of_mem
      rw [← built.watches, List.map_map]
      exact List.mem_map_of_mem _ (List.mem_of_find?_eq_some found)
    simp only [traverseTree, Kernel.inotifyAddWatch_of_watched short resolves found, cached, if_true]
    refine ⟨_, rfl, ⟨?_, ⟨m, layout⟩, built.lastWd, built.distinct⟩, rfl, rfl, rfl⟩
    rw [← built.watches, List.map_map]
    exact List.map_congr_left fun other _ => by
      simp only [Function.comp]
      split <;> rfl
  · rw [if_neg seen]
    have missing : w.kernel.inotify.watches.find? (fun watch => watch.ino == dir.ino) = none :=
      List.find?_eq_none.mpr fun watch member same => seen (by
        rw [← inos]
        exact List.mem_map.mpr ⟨watch, member, by simpa using same⟩)
    have fresh : findWatch w.wlCache (w.kernel.inotify.lastWd + 1) = -1 := by
      rw [layout, built.lastWd]
      exact findWatch_numbered_fresh dirs m
    obtain ⟨m', added⟩ := addWatchToCache_numbered dirs m p dir.ino short
    simp only [traverseTree, Kernel.inotifyAddWatch_of_unwatched short resolves missing, fresh,
      if_neg (by decide : ¬(0 : Int) ≤ -1)]
    refine ⟨_, rfl, ⟨?_, ⟨m', ?_⟩, ?_, ?_⟩, rfl, rfl, rfl⟩
    · rw [List.map_append, built.watches, numberedWatches_append, built.lastWd]
      simp only [List.map_cons, List.map_nil, List.append_cancel_left_eq, List.cons.injEq,
        Prod.mk.injEq, and_true]
      omega
    · rw [layout, built.lastWd]
      exact added
    · simp [built.lastWd]
    · rw [List.map_append, List.nodup_append]
      exact ⟨built.distinct, List.nodup_singleton _, by simpa using seen⟩

/-- The callbacks of a walk over `entries`, each resolving at a pathname shorter than
`PATH_MAX`, add the directories not reached before, in order. -/
theorem foldTraverse_built :
    ∀ (entries dirs : List (Path × Ino)) (w : World), Built dirs w →
      (∀ entry ∈ entries, (∃ dir, w.kernel.fs.lookup entry.1 = some dir ∧ dir.ino = entry.2) ∧
        entry.1.length < pathMax) →
      ∃ w', entries.foldlM (fun w entry => traverseTree w entry.1) w = .ok w' ∧
        Built (dirs ++ firstPerIno (dirs.map Prod.snd) entries) w' ∧
        w'.roots = w.roots ∧ w'.kernel.fs = w.kernel.fs ∧
        w'.kernel.inotify.generation = w.kernel.inotify.generation
  | [], dirs, w, built, _ => ⟨w, rfl, by simpa [firstPerIno] using built, rfl, rfl, rfl⟩
  | (p, ino) :: rest, dirs, w, built, valid => by
    obtain ⟨⟨dir, resolves, rfl⟩, short⟩ := valid (p, ino) (List.mem_cons_self _ _)
    obtain ⟨w₁, stepped, built₁, roots₁, fs₁, generation₁⟩ := traverseTree_built built resolves short
    obtain ⟨w', folded, built', roots', fs', generation'⟩ := foldTraverse_built rest _ w₁ built₁
      (fun other member => fs₁ ▸ valid other (List.mem_cons_of_mem _ member))
    refine ⟨w', by rw [List.foldlM_cons, stepped]; exact folded, ?_, roots'.trans roots₁,
      fs'.trans fs₁, generation'.trans generation₁⟩
    by_cases seen : dir.ino ∈ dirs.map Prod.snd
    · rw [if_pos seen] at built'
      rwa [firstPerIno, if_pos seen]
    · rw [if_neg seen] at built'
      rw [firstPerIno, if_neg seen]
      have reordered : firstPerIno ((dirs ++ [(p, dir.ino)]).map Prod.snd) rest =
          firstPerIno (dir.ino :: dirs.map Prod.snd) rest :=
        firstPerIno_congr (fun ino => by simp [or_comm]) rest
      rw [reordered, List.append_assoc, List.singleton_append] at built'
      exact built'

/-- The loop of `reinitialize` over the root list, each walk's pathnames shorter than
`PATH_MAX`: the directories of the walks of the roots not zapped, each once. -/
theorem foldRoots_built :
    ∀ (rootDirPaths : List (Option Path)) (dirs : List (Path × Ino)) (w : World), Built dirs w →
      (∀ root ∈ rootDirPaths.filterMap id, ∀ entry ∈ nftw w.kernel.fs root, entry.1.length < pathMax) →
      ∃ w', rootDirPaths.foldlM (fun w root =>
          match root with
          | some p => watchSubtree w p
          | none => pure w) w = .ok w' ∧
        Built (dirs ++ firstPerIno (dirs.map Prod.snd)
          ((rootDirPaths.filterMap id).flatMap (nftw w.kernel.fs))) w' ∧
        w'.roots = w.roots ∧ w'.kernel.fs = w.kernel.fs ∧
        w'.kernel.inotify.generation = w.kernel.inotify.generation
  | [], dirs, w, built, _ => ⟨w, rfl, by simpa [firstPerIno] using built, rfl, rfl, rfl⟩
  | none :: rest, dirs, w, built, short => by
    simpa using foldRoots_built rest dirs w built (fun root member => short root (by simpa using member))
  | some root :: rest, dirs, w, built, short => by
    obtain ⟨w₁, walked, built₁, roots₁, fs₁, generation₁⟩ := foldTraverse_built (nftw w.kernel.fs root)
      dirs w built fun entry member => ⟨nftw_lookup _ _ entry member, short root (by simp) entry member⟩
    obtain ⟨w', folded, built', roots', fs', generation'⟩ := foldRoots_built rest _ w₁ built₁
      (fun other member => fs₁ ▸ short other (by simp [member]))
    have subtree : watchSubtree w root = .ok w₁ := walked
    refine ⟨w', by rw [List.foldlM_cons]; simp only [subtree, except_ok_bind]; exact folded,
      ?_, roots'.trans roots₁, fs'.trans fs₁, generation'.trans generation₁⟩
    have kept : (some root :: rest).filterMap id = root :: rest.filterMap id := rfl
    rw [fs₁, List.append_assoc, List.map_append] at built'
    rw [kept, List.flatMap_cons, firstPerIno_append]
    exact built'

/-- The cache built over `dirs` holds their numbered slots as its active ones. -/
theorem Built.active {dirs : List (Path × Ino)} {w : World} (built : Built dirs w) :
    activeSlots w.wlCache = numberedSlots 1 dirs := by
  obtain ⟨m, layout⟩ := built.slots
  rw [layout, activeSlots_numbered]

/-- `reinitialize`, when every pathname the walks of the roots not zapped reach is shorter
than `PATH_MAX`: the cache and the new instance are built over the monitored directories,
and the roots and the tree are kept. -/
theorem reinitialize_built (w : World)
    (short : ∀ root ∈ w.roots.rootDirPaths.filterMap id, ∀ entry ∈ nftw w.kernel.fs root,
      entry.1.length < pathMax) :
    ∃ w', reinitialize w = .ok w' ∧ Built (monitoredDirs w) w' ∧ w'.roots = w.roots ∧
      w'.kernel.fs = w.kernel.fs ∧ w'.kernel.inotify.generation = w.kernel.inotify.generation + 1 :=
  foldRoots_built w.roots.rootDirPaths [] _ (built_fresh w) short

/-- `reinitialize`, when every pathname the walks of the roots not zapped reach is
shorter than `PATH_MAX`: whatever the cache held before, the active slots read through
the new instance's watches are the monitored directories, each once, in walk order,
under the pathname at which the walks first reach it; the descriptors are distinct, the
instance is new, the roots and the tree are kept. -/
theorem reinitialize_builds_snapshot (w : World)
    (short : ∀ root ∈ w.roots.rootDirPaths.filterMap id, ∀ entry ∈ nftw w.kernel.fs root,
      entry.1.length < pathMax) :
    ∃ w', reinitialize w = .ok w' ∧
      (activeSlots w'.wlCache).map (slotDir w'.kernel) = (monitoredDirs w).map some ∧
      ((monitoredDirs w).map Prod.snd).Nodup ∧
      ((activeSlots w'.wlCache).map Watch.wd).Nodup ∧
      w'.kernel.inotify.generation = w.kernel.inotify.generation + 1 ∧
      w'.roots = w.roots ∧ w'.kernel.fs = w.kernel.fs := by
  obtain ⟨w', folded, built, roots, fs, generation⟩ := reinitialize_built w short
  refine ⟨w', folded, ?_, built.distinct, ?_, generation, roots, fs⟩
  · rw [built.active]
    exact numberedSlots_slotDir 1 _ _ built.watches
  · rw [built.active]
    exact numberedSlots_wd_nodup 1 _

theorem reinitialize_builds_snapshot_on_sample :
    ∃ w', reinitialize sampleWorld = .ok w' ∧
      (activeSlots w'.wlCache).map (slotDir w'.kernel) = (monitoredDirs sampleWorld).map some ∧
      ((monitoredDirs sampleWorld).map Prod.snd).Nodup ∧
      ((activeSlots w'.wlCache).map Watch.wd).Nodup ∧
      w'.kernel.inotify.generation = sampleWorld.kernel.inotify.generation + 1 ∧
      w'.roots = sampleWorld.roots ∧ w'.kernel.fs = sampleWorld.kernel.fs :=
  reinitialize_builds_snapshot sampleWorld (by decide)

/-- A second rebuild with no change to the tree in between leaves the cache as the first
did, whatever the first left: the same active slots, pathnames and descriptors alike, and
watches with the same descriptors on the same inodes. -/
theorem reinitialize_twice_same (w : World)
    (short : ∀ root ∈ w.roots.rootDirPaths.filterMap id, ∀ entry ∈ nftw w.kernel.fs root,
      entry.1.length < pathMax) :
    ∃ w₁ w₂, reinitialize w = .ok w₁ ∧ reinitialize w₁ = .ok w₂ ∧
      activeSlots w₂.wlCache = activeSlots w₁.wlCache ∧
      w₂.kernel.inotify.watches.map (fun watch => (watch.wd, watch.ino)) =
        w₁.kernel.inotify.watches.map (fun watch => (watch.wd, watch.ino)) := by
  obtain ⟨w₁, first, built₁, roots₁, fs₁, -⟩ := reinitialize_built w short
  have unchanged : monitoredDirs w₁ = monitoredDirs w := by
    simp only [monitoredDirs, roots₁, fs₁]
  obtain ⟨w₂, second, built₂, -⟩ := reinitialize_built w₁ (by rw [roots₁, fs₁]; exact short)
  rw [unchanged] at built₂
  exact ⟨w₁, w₂, first, second, built₂.active.trans built₁.active.symm, built₂.watches.trans built₁.watches.symm⟩

theorem reinitialize_twice_same_on_sample :
    ∃ w₁ w₂, reinitialize sampleWorld = .ok w₁ ∧ reinitialize w₁ = .ok w₂ ∧
      activeSlots w₂.wlCache = activeSlots w₁.wlCache ∧
      w₂.kernel.inotify.watches.map (fun watch => (watch.wd, watch.ino)) =
        w₁.kernel.inotify.watches.map (fun watch => (watch.wd, watch.ino)) :=
  reinitialize_twice_same sampleWorld (by decide)

/-- A walk of a root not zapped that reaches a pathname of `PATH_MAX` characters or more
stops `reinitialize`: `inotify_add_watch` fails with `ENAMETOOLONG` and the program
exits. -/
theorem reinitialize_exits_of_long (w : World) {root : Path} (kept : some root ∈ w.roots.rootDirPaths)
    {entry : Path × Ino} (reached : entry ∈ nftw w.kernel.fs root) (long : pathMax ≤ entry.1.length) :
    reinitialize w = .error (.exit exitFailure "inotify_add_watch") := by
  cases reinitialized : reinitialize w with
  | error e => rw [reinitialize_error reinitialized]
  | ok w' =>
    unfold reinitialize at reinitialized
    dsimp only at reinitialized
    obtain ⟨v, v', sameFs, walked⟩ := foldlM_ok_mem (fun v : World => v.kernel.fs = w.kernel.fs) _
      (fun v root v' same stepped => by
        cases root with
        | some p => exact (watchSubtree_kernel stepped).1.trans same
        | none => exact Except.ok.inj stepped ▸ same)
      _ { w with kernel := w.kernel.inotifyInit, wlCache := [] } _ rfl reinitialized _ kept
    obtain ⟨u, u', _, added⟩ := foldlM_ok_mem (fun _ : World => True)
      (fun u (entry : Path × Ino) => traverseTree u entry.1) (fun _ _ _ _ _ => trivial)
      _ _ _ trivial (show watchSubtree v root = .ok v' from walked) entry (sameFs ▸ reached)
    rw [traverseTree_of_long u long] at added
    cases added

/-- A chain of `depth` directories, each the only entry of the one before, all named
`name`, with inodes counting up from `ino`. -/
def chainDir (name : Path) (ino : Ino) : Nat → Dir
  | 0 => .mk ino []
  | depth + 1 => .mk ino [(name, chainDir name (ino + 1) depth)]

theorem chainDir_wellFormed {name : Path} (valid : validName name = true) (ino : Ino) :
    ∀ depth, (chainDir name ino depth).wellFormed = true
  | 0 => rfl
  | depth + 1 => by
    simp [chainDir, Dir.wellFormed, entriesWellFormed, valid, chainDir_wellFormed valid (ino + 1) depth]

/-- The walk of a chain reached at a pathname not ending in '/' goes down to a pathname
of `depth` more components. -/
theorem walk_chainDir_deepest {name : Path} (nonempty : name ≠ []) (noSlash : '/' ∉ name) :
    ∀ (depth : Nat) (ino : Ino) (p : Path), p.getLast? ≠ some '/' →
      ∃ entry ∈ (chainDir name ino depth).walk p, entry.1.length = p.length + depth * (name.length + 1)
  | 0, ino, p, _ => ⟨(p, ino), by simp [chainDir, Dir.walk], by simp⟩
  | depth + 1, ino, p, noTrailing => by
    have child : childPath p name = p ++ '/' :: name := if_neg noTrailing
    have lastChar : (p ++ '/' :: name).getLast? ≠ some '/' := by
      obtain ⟨a, rest, rfl⟩ := List.exists_cons_of_ne_nil nonempty
      rw [List.getLast?_append_of_ne_nil _ (List.cons_ne_nil _ _), List.getLast?_cons_cons]
      exact fun last => noSlash (List.mem_of_getLast?_eq_some last)
    obtain ⟨entry, member, deep⟩ := walk_chainDir_deepest nonempty noSlash depth (ino + 1) _ lastChar
    refine ⟨entry, ?_, ?_⟩
    · simp only [chainDir, Dir.walk, walkEntries, child, List.append_nil]
      exact List.mem_cons_of_mem _ member
    · rw [deep, Nat.succ_mul, List.length_append, List.length_cons]
      omega

theorem validName_longName : validName (List.replicate 255 'a') = true := by
  set_option maxRecDepth 10000 in decide

/-- The root `/t` over a chain of 16 directories named with 255 characters: the deepest
pathname has 2 + 16 * 256 = 4098 characters. -/
def deepTreeWorld : World :=
  ⟨[], ⟨[some "/t".toList], [2], 0⟩,
    ⟨⟨.mk 1 [("t".toList, chainDir (List.replicate 255 'a') 2 16)], by
      rw [Dir.wellFormed, entriesWellFormed, entriesWellFormed, chainDir_wellFormed validName_longName]
      rfl⟩, 20, 0, ⟨0, [], 0, []⟩⟩⟩

theorem reinitialize_exits_on_deep_tree :
    reinitialize deepTreeWorld = .error (.exit exitFailure "inotify_add_watch") := by
  have resolves : nftw deepTreeWorld.kernel.fs "/t".toList =
      (chainDir (List.replicate 255 'a') 2 16).walk "/t".toList := rfl
  obtain ⟨entry, member, deep⟩ := @walk_chainDir_deepest (List.replicate 255 'a')
    (List.ne_nil_of_length_pos (by rw [List.length_replicate]; decide))
    (fun slash => absurd (List.eq_of_mem_replicate slash) (by decide)) 16 2 "/t".toList (by decide)
  exact reinitialize_exits_of_long deepTreeWorld (List.mem_singleton_self _) (resolves ▸ member)
    (by rw [deep, List.length_replicate]; decide)

/-! The rebuild after a failed lookup. -/

end InotifyDtree
