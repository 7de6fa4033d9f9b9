import Mathlib.Data.List.Nodup
import InotifyDtree.Engine

set_option autoImplicit false

/- The slot array as a finite map from watch descriptor to pathname. `cacheMap` reads
the map off the array; each store operation is shown to act on it as the matching map
operation, for arrays that keep the invariant `SlotsWellFormed`. -/
namespace InotifyDtree

/-- The map the array stands for: a descriptor to the pathname of its slot. -/
def cacheMap (wlCache : List Watch) (wd : Int) : Option Path :=
  if 0 ≤ wd then (wlCache.find? fun slot => slot.wd == wd).map Watch.path else none

/-- Free slots are exactly the ones `markCacheSlotEmpty` leaves, and no two active slots
hold the same descriptor. -/
structure SlotsWellFormed (wlCache : List Watch) : Prop where
  free : ∀ slot ∈ wlCache, slot.wd < 0 → slot = emptySlot
  distinct : ((activeSlots wlCache).map Watch.wd).Nodup

/-- Every pathname in the array is a C string shorter than `PATH_MAX`. -/
def ShortPaths (wlCache : List Watch) : Prop :=
  ∀ slot ∈ wlCache, slot.path.length < pathMax ∧ '\x00' ∉ slot.path

instance (wlCache : List Watch) : Decidable (SlotsWellFormed wlCache) :=
  decidable_of_iff ((∀ slot ∈ wlCache, slot.wd < 0 → slot = emptySlot) ∧
      ((activeSlots wlCache).map Watch.wd).Nodup)
    ⟨fun ⟨free, distinct⟩ => ⟨free, distinct⟩, fun wf => ⟨wf.free, wf.distinct⟩⟩

instance (wlCache : List Watch) : Decidable (ShortPaths wlCache) :=
  inferInstanceAs (Decidable (∀ slot ∈ wlCache, _))

/-- Every slot array the program builds: from the empty array by the store operations,
`addWatchToCache` only for a nonnegative descriptor that `findWatch` misses (as in
`traverseTree`). -/
inductive SlotReach : List Watch → Prop where
  | freeCache : SlotReach []
  | add {wlCache : List Watch} {wd : Int} (pathname : Path) : SlotReach wlCache → 0 ≤ wd →
      findWatch wlCache wd < 0 → SlotReach (addWatchToCache wlCache wd pathname).1
  | mark {wlCache : List Watch} (slot : Nat) : SlotReach wlCache →
      SlotReach (markCacheSlotEmpty wlCache slot)
  | rewrite {wlCache : List Watch} (oldPathPrefix oldName newPathPrefix newName : Path) :
      SlotReach wlCache →
      SlotReach (rewriteCachedPaths wlCache oldPathPrefix oldName newPathPrefix newName)
  | zap {wlCache : List Watch} (pn : Path) (k : Kernel) : SlotReach wlCache →
      SlotReach (zapSlots pn wlCache k 0).1

theorem mem_activeSlots {wlCache : List Watch} {slot : Watch} :
    slot ∈ activeSlots wlCache ↔ slot ∈ wlCache ∧ 0 ≤ slot.wd := by
  simp [activeSlots]

section WellFormed

variable {wlCache : List Watch} (wf : SlotsWellFormed wlCache)
include wf

/-- Two active slots with one descriptor are the same slot. -/
theorem SlotsWellFormed.eq_of_wd {a b : Watch} (ha : a ∈ activeSlots wlCache)
    (hb : b ∈ activeSlots wlCache) (same : a.wd = b.wd) : a = b :=
  List.inj_on_of_nodup_map wf.distinct ha hb same

theorem cacheMap_eq_some {wd : Int} {p : Path} :
    cacheMap wlCache wd = some p ↔ ⟨wd, p⟩ ∈ activeSlots wlCache := by
  unfold cacheMap
  split
  · rename_i nonneg
    constructor
    · intro found
      obtain ⟨slot, hit, rfl⟩ := Option.map_eq_some'.mp found
      have holds : slot.wd = wd := by simpa using List.find?_some hit
      exact mem_activeSlots.mpr ⟨holds ▸ List.mem_of_find?_eq_some hit, nonneg⟩
    · intro member
      obtain ⟨inCache, -⟩ := mem_activeSlots.mp member
      cases hit : wlCache.find? (fun slot => slot.wd == wd) with
      | none => exact absurd (List.find?_eq_none.mp hit _ inCache) (by simp)
      | some slot =>
        have holds : slot.wd = wd := by simpa using List.find?_some hit
        have active : slot ∈ activeSlots wlCache :=
          mem_activeSlots.mpr ⟨List.mem_of_find?_eq_some hit, holds ▸ nonneg⟩
        simp [wf.eq_of_wd active member holds]
  · rename_i negative
    simp only [reduceCtorEq, false_iff]
    exact fun member => negative (mem_activeSlots.mp member).2

/-- `findWatch(wd)` returns a slot holding `wd` exactly when `wd` is a key. -/
theorem findWatch_refines {wd : Int} (nonneg : 0 ≤ wd) :
    (findWatch wlCache wd = -1 ∧ cacheMap wlCache wd = none) ∨
      ∃ (j : Nat) (p : Path), findWatch wlCache wd = j ∧ wlCache[j]? = some ⟨wd, p⟩ ∧
        cacheMap wlCache wd = some p := by
  rcases scanSlots_cases (fun slot => slot.wd == wd) wlCache with ⟨miss, absent⟩ | ⟨j, within, hit, holds⟩
  · refine .inl ⟨miss, Option.eq_none_iff_forall_not_mem.mpr fun p member => ?_⟩
    have active := (cacheMap_eq_some wf).mp member
    simpa using absent _ (mem_activeSlots.mp active).1
  · have slotWd : wlCache[j].wd = wd := by simpa using holds
    have member : ⟨wd, wlCache[j].path⟩ ∈ activeSlots wlCache :=
      mem_activeSlots.mpr ⟨slotWd ▸ List.getElem_mem within, nonneg⟩
    exact .inr ⟨j, wlCache[j].path, hit, by rw [List.getElem?_eq_getElem within, ← slotWd],
      (cacheMap_eq_some wf).mpr member⟩

/-- `pathnameToCacheSlot(p)` returns a slot holding `p` exactly when `p` is a value. -/
theorem pathnameToCacheSlot_refines (p : Path) :
    (pathnameToCacheSlot wlCache p = -1 ∧ ∀ wd, cacheMap wlCache wd ≠ some p) ∨
      ∃ (j : Nat) (wd : Int), pathnameToCacheSlot wlCache p = j ∧ wlCache[j]? = some ⟨wd, p⟩ ∧
        cacheMap wlCache wd = some p := by
  rcases scanSlots_cases (fun slot => 0 ≤ slot.wd && slot.path == p) wlCache with
    ⟨miss, absent⟩ | ⟨j, within, hit, holds⟩
  · refine .inl ⟨miss, fun wd member => ?_⟩
    have active := mem_activeSlots.mp ((cacheMap_eq_some wf).mp member)
    simpa [active.2] using absent _ active.1
  · simp only [Bool.and_eq_true, decide_eq_true_eq, beq_iff_eq] at holds
    have member : ⟨wlCache[j].wd, p⟩ ∈ activeSlots wlCache :=
      mem_activeSlots.mpr ⟨holds.2 ▸ List.getElem_mem within, holds.1⟩
    exact .inr ⟨j, wlCache[j].wd, hit, by rw [List.getElem?_eq_getElem within, ← holds.2],
      (cacheMap_eq_some wf).mpr member⟩

/-- The slot `findEmptyCacheSlot` returns is free, and the array it returns is the old
one followed by free slots (none, or the `allocIncr` it appends). -/
theorem findEmptyCacheSlot_spec :
    (findEmptyCacheSlot wlCache).1[(findEmptyCacheSlot wlCache).2]? = some emptySlot ∧
      ∃ extra, (findEmptyCacheSlot wlCache).1 = wlCache ++ extra ∧ ∀ slot ∈ extra, slot = emptySlot := by
  unfold findEmptyCacheSlot
  split
  · rename_i j found
    obtain ⟨within, holds, -⟩ := List.findIdx?_eq_some_iff_getElem.mp found
    have empty := wf.free _ (List.getElem_mem within) (by simp at holds; omega)
    exact ⟨by rw [List.getElem?_eq_getElem within, empty], [], by simp, by simp⟩
  · refine ⟨?_, _, rfl, fun _ => List.eq_of_mem_replicate⟩
    rw [List.getElem?_append_right (Nat.le_refl _), Nat.sub_self, List.getElem?_replicate]
    rfl

end WellFormed

/-- A well-formed array whose active slots are the graph of `F` stands for `F`. -/
theorem cacheMap_congr {other : List Watch} (wf : SlotsWellFormed other)
    {F : Int → Option Path} (spec : ∀ wd p, ⟨wd, p⟩ ∈ activeSlots other ↔ F wd = some p) :
    cacheMap other = F := by
  funext wd
  apply Option.ext
  intro p
  rw [Option.mem_def, Option.mem_def, cacheMap_eq_some wf, spec]

theorem activeSlots_append (front back : List Watch) :
    activeSlots (front ++ back) = activeSlots front ++ activeSlots back :=
  List.filter_append front back

/-- The active slots around index `j`. -/
theorem activeSlots_set {wlCache : List Watch} {j : Nat} (within : j < wlCache.length) (a : Watch) :
    activeSlots (wlCache.set j a) =
      activeSlots (wlCache.take j) ++ activeSlots [a] ++ activeSlots (wlCache.drop (j + 1)) := by
  rw [List.set_eq_take_cons_drop a within, ← List.singleton_append, activeSlots_append,
    activeSlots_append, List.append_assoc]

theorem activeSlots_split {wlCache : List Watch} {j : Nat} (within : j < wlCache.length) :
    activeSlots wlCache = activeSlots (wlCache.take j) ++ activeSlots [wlCache[j]] ++
      activeSlots (wlCache.drop (j + 1)) := by
  conv_lhs => rw [← List.take_append_drop j wlCache, List.drop_eq_getElem_cons within]
  rw [← List.singleton_append, activeSlots_append, activeSlots_append, List.append_assoc]

@[simp] theorem activeSlots_nil : activeSlots [] = [] := rfl

@[simp] theorem activeSlots_cons (a : Watch) (rest : List Watch) :
    activeSlots (a :: rest) = if 0 ≤ a.wd then a :: activeSlots rest else activeSlots rest := by
  simp [activeSlots, List.filter_cons]

@[simp] theorem activeSlots_singleton (a : Watch) :
    activeSlots [a] = if 0 ≤ a.wd then [a] else [] := by
  simp [activeSlots, List.filter_cons]

@[simp] theorem activeSlots_emptySlot : activeSlots [emptySlot] = [] := by
  simp [emptySlot]

/-- `after` is `before` with some slots cleared, as `markCacheSlotEmpty` and
`zapSubtree` leave it. -/
def Cleared (after before : List Watch) : Prop :=
  List.Forall₂ (fun a b => a = b ∨ a = emptySlot) after before

theorem Cleared.refl (wlCache : List Watch) : Cleared wlCache wlCache :=
  List.forall₂_same.mpr fun _ _ => .inl rfl

theorem Cleared.activeSlots_sublist {after before : List Watch} (cleared : Cleared after before) :
    List.Sublist (activeSlots after) (activeSlots before) := by
  induction cleared with
  | nil => exact List.Sublist.slnil
  | @cons a b after before step _ ih =>
    have dropped : List.Sublist (activeSlots after) (activeSlots (b :: before)) := by
      rw [activeSlots_cons]
      split
      · exact ih.cons b
      · exact ih
    rcases step with rfl | rfl
    · simp only [activeSlots_cons]
      split
      · exact ih.cons₂ a
      · exact ih
    · exact dropped

theorem Cleared.mem {after before : List Watch} (cleared : Cleared after before) {slot : Watch}
    (member : slot ∈ after) : slot ∈ before ∨ slot = emptySlot := by
  induction cleared with
  | nil => cases member
  | @cons a b after before step _ ih =>
    rcases List.mem_cons.mp member with rfl | later
    · rcases step with rfl | rfl
      · exact .inl (List.mem_cons_self _ _)
      · exact .inr rfl
    · rcases ih later with old | empty
      · exact .inl (List.mem_cons_of_mem _ old)
      · exact .inr empty

theorem Cleared.wellFormed {after before : List Watch} (wf : SlotsWellFormed before)
    (cleared : Cleared after before) : SlotsWellFormed after where
  free slot member negative := (cleared.mem member).elim (wf.free slot · negative) id
  distinct := wf.distinct.sublist (cleared.activeSlots_sublist.map Watch.wd)

theorem cleared_markCacheSlotEmpty (wlCache : List Watch) (slot : Nat) :
    Cleared (markCacheSlotEmpty wlCache slot) wlCache := by
  induction wlCache generalizing slot with
  | nil => exact List.Forall₂.nil
  | cons head rest ih =>
    cases slot with
    | zero => exact List.Forall₂.cons (.inr rfl) (Cleared.refl rest)
    | succ slot => exact List.Forall₂.cons (.inl rfl) (ih slot)

theorem cleared_zapSlots (pn : Path) (wlCache : List Watch) (k : Kernel) (cnt : Int) :
    Cleared (zapSlots pn wlCache k cnt).1 wlCache := by
  induction wlCache generalizing k cnt with
  | nil => exact List.Forall₂.nil
  | cons slot rest ih =>
    simp only [zapSlots]
    split
    · split
      · exact Cleared.refl _
      · exact List.Forall₂.cons (.inr rfl) (ih _ _)
    · exact List.Forall₂.cons (.inl rfl) (ih _ _)

theorem activeSlots_eq_nil {extra : List Watch} (blank : ∀ slot ∈ extra, slot = emptySlot) :
    activeSlots extra = [] :=
  List.filter_eq_nil_iff.mpr fun slot member => by simp [blank slot member, emptySlot]

theorem addWatchToCache_fst (wlCache : List Watch) (wd : Int) (pathname : Path) :
    (addWatchToCache wlCache wd pathname).1 =
      (findEmptyCacheSlot wlCache).1.set (findEmptyCacheSlot wlCache).2
        ⟨wd, strncpy pathMax pathname⟩ :=
  rfl

section Add

variable {wlCache : List Watch} (wf : SlotsWellFormed wlCache) {wd : Int} (nonneg : 0 ≤ wd)
  (pathname : Path)
include wf nonneg

/-- Adding fills one free slot: the active slots gain exactly the new entry. -/
theorem activeSlots_addWatchToCache :
    (activeSlots (addWatchToCache wlCache wd pathname).1).Perm
      (⟨wd, strncpy pathMax pathname⟩ :: activeSlots wlCache) := by
  obtain ⟨hit, extra, grown, blank⟩ := findEmptyCacheSlot_spec wf
  obtain ⟨within, empty⟩ := List.getElem?_eq_some_iff.mp hit
  have old : activeSlots (findEmptyCacheSlot wlCache).1 = activeSlots wlCache := by
    rw [grown, activeSlots_append, activeSlots_eq_nil blank, List.append_nil]
  rw [addWatchToCache_fst, activeSlots_set within, ← old, activeSlots_split within, empty]
  simp [nonneg, emptySlot]

theorem SlotsWellFormed.addWatchToCache (absent : cacheMap wlCache wd = none) :
    SlotsWellFormed (addWatchToCache wlCache wd pathname).1 where
  free slot member negative := by
    obtain ⟨-, extra, grown, blank⟩ := findEmptyCacheSlot_spec wf
    rw [addWatchToCache_fst] at member
    rcases List.mem_or_eq_of_mem_set member with inGrown | rfl
    · rw [grown, List.mem_append] at inGrown
      exact inGrown.elim (wf.free slot · negative) (blank slot)
    · exact absurd nonneg (not_le.mpr negative)
  distinct := by
    rw [((activeSlots_addWatchToCache wf nonneg pathname).map Watch.wd).nodup_iff]
    refine List.nodup_cons.mpr ⟨fun member => ?_, wf.distinct⟩
    obtain ⟨slot, active, same⟩ := List.mem_map.mp member
    have present : cacheMap wlCache slot.wd = some slot.path := (cacheMap_eq_some wf).mpr active
    simp [same, absent] at present

omit nonneg in
/-- Adding never overwrites an active slot, also when the array grows. -/
theorem addWatchToCache_keeps_active {i : Nat} {slot : Watch} (hit : wlCache[i]? = some slot)
    (active : 0 ≤ slot.wd) : (addWatchToCache wlCache wd pathname).1[i]? = some slot := by
  obtain ⟨free, extra, grown, -⟩ := findEmptyCacheSlot_spec wf
  have kept : (findEmptyCacheSlot wlCache).1[i]? = some slot := by
    rw [grown, List.getElem?_append_left (List.getElem?_eq_some_iff.mp hit).1, hit]
  have other : (findEmptyCacheSlot wlCache).2 ≠ i := by
    rintro rfl
    rw [free, Option.some.injEq] at kept
    exact absurd active (by simp [← kept, emptySlot])
  rw [addWatchToCache_fst, List.getElem?_set_ne other, kept]

/-- For a key-absent descriptor, adding extends the map with `wd ↦ pathname`. -/
theorem cacheMap_addWatchToCache (absent : cacheMap wlCache wd = none)
    (short : pathname.length < pathMax) :
    cacheMap (addWatchToCache wlCache wd pathname).1 =
      Function.update (cacheMap wlCache) wd (some pathname) := by
  refine cacheMap_congr (wf.addWatchToCache nonneg pathname absent) fun w v => ?_
  rw [(activeSlots_addWatchToCache wf nonneg pathname).mem_iff, List.mem_cons,
    ← cacheMap_eq_some wf, strncpy_of_lt short]
  by_cases same : w = wd
  · subst same
    simp [absent, eq_comm]
  · simp [same]

end Add

/-- Clearing the slot of an active entry erases that descriptor from the map. -/
theorem cacheMap_markCacheSlotEmpty {wlCache : List Watch} (wf : SlotsWellFormed wlCache)
    {j : Nat} {wd : Int} {p : Path} (hit : wlCache[j]? = some ⟨wd, p⟩) (nonneg : 0 ≤ wd) :
    cacheMap (markCacheSlotEmpty wlCache j) = Function.update (cacheMap wlCache) wd none := by
  obtain ⟨within, slot⟩ := List.getElem?_eq_some_iff.mp hit
  have around := activeSlots_split within
  rw [slot, activeSlots_singleton, if_pos nonneg, List.append_assoc, List.singleton_append]
    at around
  have fresh : wd ∉ (activeSlots (wlCache.take j) ++ activeSlots (wlCache.drop (j + 1))).map
      Watch.wd := by
    have distinct := wf.distinct
    rw [around, List.map_append, List.map_cons, List.nodup_middle, ← List.map_append] at distinct
    exact (List.nodup_cons.mp distinct).1
  refine cacheMap_congr ((cleared_markCacheSlotEmpty wlCache j).wellFormed wf) fun w v => ?_
  rw [markCacheSlotEmpty, activeSlots_set within, activeSlots_emptySlot, List.append_nil]
  by_cases same : w = wd
  · subst same
    simpa using fun member => fresh (List.mem_map_of_mem Watch.wd member)
  · rw [Function.update_noteq same, cacheMap_eq_some wf, around]
    simp [same]

/-- `path` names the directory `dir` or one below it: it equals `dir`, or begins with `dir`
followed by '/'. -/
def atOrBelow (dir path : Path) : Bool :=
  path == dir || (dir ++ ['/']).isPrefixOf path

/-- The value a rename of `old` to `new` should leave in place of `path`. -/
def renamePath (old new path : Path) : Path :=
  if atOrBelow old path then new ++ path.drop old.length else path

/-- On C strings, the `strncmp` test of `rewriteCachedPaths` and `zapSubtree` selects
exactly the paths at or below `pre`. -/
theorem inSubtree_eq_atOrBelow (pre path : Path) (noNul : '\x00' ∉ path) :
    inSubtree pre path = atOrBelow pre path := by
  rw [Bool.eq_iff_iff]
  by_cases prefixed : pre <+: path
  · obtain ⟨rest, rfl⟩ := prefixed
    cases rest with
    | nil => simp [inSubtree, atOrBelow, cstrAt]
    | cons c rest =>
      have notNul : c ≠ '\x00' := fun isNul => noNul (by simp [isNul])
      have item : cstrAt (pre ++ c :: rest) pre.length = c := by
        simp [cstrAt, List.getElem_append_right]
      simp [inSubtree, atOrBelow, item, notNul]
      exact eq_comm
  · have notBelow : ¬ (pre ++ ['/']) <+: path :=
      fun below => prefixed ((List.prefix_append pre ['/']).trans below)
    have notEq : path ≠ pre := fun same => prefixed (same ▸ List.prefix_refl path)
    simp [inSubtree, atOrBelow, prefixed, notBelow, notEq]

theorem rewriteSlot_emptySlot {fullPath : Path} (nonempty : fullPath ≠ []) (newPrefix : Path) :
    rewriteSlot fullPath newPrefix emptySlot = emptySlot := by
  obtain ⟨c, rest, rfl⟩ := List.exists_cons_of_ne_nil nonempty
  rfl

theorem activeSlots_rewriteCachedPaths (wlCache : List Watch)
    (oldPathPrefix oldName newPathPrefix newName : Path) :
    activeSlots (rewriteCachedPaths wlCache oldPathPrefix oldName newPathPrefix newName) =
      (activeSlots wlCache).map (rewriteSlot (snprintf pathMax (oldPathPrefix ++ '/' :: oldName))
        (snprintf pathMax (newPathPrefix ++ '/' :: newName))) := by
  simp only [rewriteCachedPaths, activeSlots, List.filter_map]
  congr 2
  funext slot
  simp

theorem SlotsWellFormed.rewriteCachedPaths {wlCache : List Watch} (wf : SlotsWellFormed wlCache)
    (oldPathPrefix oldName newPathPrefix newName : Path) :
    SlotsWellFormed (rewriteCachedPaths wlCache oldPathPrefix oldName newPathPrefix newName) where
  free slot member negative := by
    obtain ⟨old, inCache, rfl⟩ := List.mem_map.mp member
    have nonempty : snprintf pathMax (oldPathPrefix ++ '/' :: oldName) ≠ [] := by
      simp [snprintf, pathMax]
    rw [wf.free old inCache (by simpa using negative)]
    exact rewriteSlot_emptySlot nonempty _
  distinct := by
    rw [activeSlots_rewriteCachedPaths, List.map_map]
    have keeps : Watch.wd ∘ rewriteSlot (snprintf pathMax (oldPathPrefix ++ '/' :: oldName))
        (snprintf pathMax (newPathPrefix ++ '/' :: newName)) = Watch.wd :=
      funext (rewriteSlot_wd _ _)
    rw [keeps]
    exact wf.distinct

/-- With both prefixes and the rewritten value shorter than `PATH_MAX`, the loop body
renames a C string exactly as `renamePath` says. -/
theorem rewriteSlot_eq_renamePath {old new : Path} (oldShort : old.length < pathMax)
    {slot : Watch} (noNul : '\x00' ∉ slot.path)
    (fits : atOrBelow old slot.path → (new ++ slot.path.drop old.length).length < pathMax) :
    rewriteSlot (snprintf pathMax old) (snprintf pathMax new) slot =
      ⟨slot.wd, renamePath old new slot.path⟩ := by
  rw [snprintf_of_lt oldShort, rewriteSlot, inSubtree_eq_atOrBelow _ _ noNul, renamePath]
  split
  · next below =>
    have total := fits below
    have newShort : new.length < pathMax :=
      lt_of_le_of_lt (List.sublist_append_left _ _).length_le total
    rw [rewrittenPath, snprintf_of_lt newShort, snprintf_of_lt total, strncpy_of_lt total]
  · rfl

/-- Whatever it is given, `rewriteCachedPaths` stores a value shorter than `PATH_MAX`. -/
theorem length_rewrittenPath_lt (fullPath newPrefix path : Path) :
    (rewrittenPath fullPath newPrefix path).length < pathMax :=
  calc (rewrittenPath fullPath newPrefix path).length
      ≤ (snprintf pathMax (newPrefix ++ path.drop fullPath.length)).length :=
        List.length_take_le' _ _
    _ < pathMax := length_snprintf_lt _ _ (by decide)

/-- `rewriteCachedPaths` renames every value at or below `P1/n1` and keeps every key. -/
theorem cacheMap_rewriteCachedPaths {wlCache : List Watch} (wf : SlotsWellFormed wlCache)
    (short : ShortPaths wlCache) (oldPathPrefix oldName newPathPrefix newName : Path)
    (oldShort : (oldPathPrefix ++ '/' :: oldName).length < pathMax)
    (fits : ∀ slot ∈ activeSlots wlCache, atOrBelow (oldPathPrefix ++ '/' :: oldName) slot.path →
      (newPathPrefix ++ '/' :: newName ++
        slot.path.drop (oldPathPrefix ++ '/' :: oldName).length).length < pathMax) :
    cacheMap (rewriteCachedPaths wlCache oldPathPrefix oldName newPathPrefix newName) =
      fun wd => (cacheMap wlCache wd).map
        (renamePath (oldPathPrefix ++ '/' :: oldName) (newPathPrefix ++ '/' :: newName)) := by
  have renamed : ∀ slot ∈ activeSlots wlCache,
      rewriteSlot (snprintf pathMax (oldPathPrefix ++ '/' :: oldName))
        (snprintf pathMax (newPathPrefix ++ '/' :: newName)) slot =
      ⟨slot.wd, renamePath (oldPathPrefix ++ '/' :: oldName) (newPathPrefix ++ '/' :: newName)
        slot.path⟩ := fun slot active =>
    rewriteSlot_eq_renamePath oldShort (short slot (mem_activeSlots.mp active).1).2
      (fits slot active)
  refine cacheMap_congr (wf.rewriteCachedPaths _ _ _ _) fun wd v => ?_
  rw [activeSlots_rewriteCachedPaths, List.mem_map, Option.map_eq_some']
  constructor
  · rintro ⟨slot, active, hit⟩
    rw [renamed slot active, Watch.mk.injEq] at hit
    obtain ⟨rfl, rfl⟩ := hit
    exact ⟨slot.path, (cacheMap_eq_some wf).mpr active, rfl⟩
  · rintro ⟨p, hit, rfl⟩
    have active := (cacheMap_eq_some wf).mp hit
    exact ⟨_, active, renamed _ active⟩

/-- Every active slot that the scan of `zapSubtree` selects has a current watch, so each
of its `inotify_rm_watch()` calls succeeds. -/
def WatchesHeld (k : Kernel) (wlCache : List Watch) (pn : Path) : Prop :=
  ∀ slot ∈ activeSlots wlCache, inSubtree pn slot.path →
    k.inotify.watches.any (fun watch => watch.wd == slot.wd)

theorem zapSlots_cons_selected {pn : Path} {slot : Watch} {rest : List Watch} {k k' : Kernel}
    {cnt : Int} (active : 0 ≤ slot.wd) (selected : inSubtree pn slot.path)
    (removed : k.inotifyRmWatch slot.wd = some k') :
    zapSlots pn (slot :: rest) k cnt =
      (emptySlot :: (zapSlots pn rest k' (cnt + 1)).1, (zapSlots pn rest k' (cnt + 1)).2) := by
  simp [zapSlots, active, selected, removed]

theorem zapSlots_cons_skipped {pn : Path} {slot : Watch} {rest : List Watch} {k : Kernel}
    {cnt : Int} (skipped : ¬(0 ≤ slot.wd ∧ inSubtree pn slot.path)) :
    zapSlots pn (slot :: rest) k cnt =
      (slot :: (zapSlots pn rest k cnt).1, (zapSlots pn rest k cnt).2) := by
  simp only [zapSlots, Bool.and_eq_true, decide_eq_true_eq, skipped, if_false]

/-- When every removal succeeds, the scan clears exactly the selected active slots and
counts them. -/
theorem zapSlots_of_held (pn : Path) :
    ∀ (wlCache : List Watch) (k : Kernel) (cnt : Int),
      ((activeSlots wlCache).map Watch.wd).Nodup → WatchesHeld k wlCache pn →
      activeSlots (zapSlots pn wlCache k cnt).1 =
          (activeSlots wlCache).filter (fun slot => !inSubtree pn slot.path) ∧
        (zapSlots pn wlCache k cnt).2.2 =
          cnt + ((activeSlots wlCache).filter fun slot => inSubtree pn slot.path).length
  | [], _, _, _, _ => by simp [zapSlots]
  | slot :: rest, k, cnt, distinct, held => by
    by_cases active : 0 ≤ slot.wd
    · have front : activeSlots (slot :: rest) = slot :: activeSlots rest := by simp [active]
      rw [front] at distinct
      obtain ⟨fresh, distinctRest⟩ := List.nodup_cons.mp distinct
      by_cases selected : inSubtree pn slot.path
      · obtain ⟨k', removed, others⟩ := Kernel.inotifyRmWatch_of_held
          (held slot (front ▸ List.mem_cons_self _ _) selected)
        have heldRest : WatchesHeld k' rest pn := fun other member below => by
          have differs : other.wd ≠ slot.wd := fun same =>
            fresh (same ▸ List.mem_map_of_mem Watch.wd member)
          rw [others _ differs]
          exact held other (front ▸ List.mem_cons_of_mem _ member) below
        obtain ⟨cleared, counted⟩ := zapSlots_of_held pn rest k' (cnt + 1) distinctRest heldRest
        rw [zapSlots_cons_selected active selected removed, front]
        simp [emptySlot, cleared, counted, List.filter_cons, selected]
        omega
      · obtain ⟨cleared, counted⟩ := zapSlots_of_held pn rest k cnt distinctRest
          fun other member => held other (front ▸ List.mem_cons_of_mem _ member)
        rw [zapSlots_cons_skipped (fun both => selected both.2), front]
        simp [active, cleared, counted, List.filter_cons, selected]
    · have front : activeSlots (slot :: rest) = activeSlots rest := by simp [active]
      rw [front] at distinct
      obtain ⟨cleared, counted⟩ := zapSlots_of_held pn rest k cnt distinct
        fun other member => held other (front ▸ member)
      rw [zapSlots_cons_skipped (fun both => active both.1), front]
      simp [active, cleared, counted]

/-- `zapSubtree(p)`, when every `inotify_rm_watch()` succeeds, erases exactly the keys
whose values are `p` or lie below it, and returns how many. -/
theorem cacheMap_zapSubtree {w : World} (wf : SlotsWellFormed w.wlCache)
    (short : ShortPaths w.wlCache) (p : Path) (held : WatchesHeld w.kernel w.wlCache p) :
    cacheMap (zapSubtree w p).1.wlCache =
        (fun wd => (cacheMap w.wlCache wd).filter fun v => !atOrBelow p v) ∧
      (zapSubtree w p).2 = ((activeSlots w.wlCache).filter fun slot => atOrBelow p slot.path).length := by
  have atOrBelow_eq : ∀ slot ∈ activeSlots w.wlCache, inSubtree p slot.path = atOrBelow p slot.path :=
    fun slot active => inSubtree_eq_atOrBelow _ _ (short slot (mem_activeSlots.mp active).1).2
  obtain ⟨cleared, counted⟩ := zapSlots_of_held p w.wlCache w.kernel 0 wf.distinct held
  constructor
  · refine cacheMap_congr ((cleared_zapSlots p w.wlCache w.kernel 0).wellFormed wf) fun wd v => ?_
    rw [cleared, List.filter_congr fun slot active => by rw [atOrBelow_eq slot active],
      List.mem_filter, ← cacheMap_eq_some wf, Option.filter_eq_some]
    simp [and_comm]
  · rw [zapSubtree_snd, counted, List.filter_congr atOrBelow_eq]
    simp

/-- The store operations keep the invariant: every array the program builds is well
formed. -/
theorem SlotReach.wellFormed {wlCache : List Watch} (reach : SlotReach wlCache) :
    SlotsWellFormed wlCache := by
  induction reach with
  | freeCache => exact ⟨by simp, by simp [activeSlots]⟩
  | @add wlCache wd pathname _ nonneg missed wf =>
    have absent : cacheMap wlCache wd = none := by
      rcases findWatch_refines wf nonneg with ⟨-, absent⟩ | ⟨j, p, hit, -, -⟩
      · exact absent
      · omega
    exact wf.addWatchToCache nonneg pathname absent
  | mark slot _ wf => exact (cleared_markCacheSlotEmpty _ slot).wellFormed wf
  | rewrite _ _ _ _ _ wf => exact wf.rewriteCachedPaths _ _ _ _
  | zap pn k _ wf => exact (cleared_zapSlots pn _ k 0).wellFormed wf

/-- The slot array refines the map `cacheMap`: reachable arrays are well formed, and on a
well-formed array of C strings shorter than `PATH_MAX` each store operation acts as the
matching map operation, provided the pathnames it is given and the values
`rewriteCachedPaths` builds are also shorter than `PATH_MAX`. -/
theorem slotArray_refines_map :
    (∀ wlCache, SlotReach wlCache → SlotsWellFormed wlCache) ∧
    ∀ wlCache, SlotsWellFormed wlCache → ShortPaths wlCache →
      (∀ wd, 0 ≤ wd →
        (findWatch wlCache wd = -1 ∧ cacheMap wlCache wd = none) ∨
          ∃ (j : Nat) (p : Path), findWatch wlCache wd = j ∧ wlCache[j]? = some ⟨wd, p⟩ ∧
            cacheMap wlCache wd = some p) ∧
      (∀ p, (pathnameToCacheSlot wlCache p = -1 ∧ ∀ wd, cacheMap wlCache wd ≠ some p) ∨
        ∃ (j : Nat) (wd : Int), pathnameToCacheSlot wlCache p = j ∧
          wlCache[j]? = some ⟨wd, p⟩ ∧ cacheMap wlCache wd = some p) ∧
      (∀ wd pathname, 0 ≤ wd → cacheMap wlCache wd = none → pathname.length < pathMax →
        cacheMap (addWatchToCache wlCache wd pathname).1 =
            Function.update (cacheMap wlCache) wd (some pathname) ∧
          ∀ (i : Nat) (slot : Watch), wlCache[i]? = some slot → 0 ≤ slot.wd →
            (addWatchToCache wlCache wd pathname).1[i]? = some slot) ∧
      (∀ j wd p, wlCache[j]? = some ⟨wd, p⟩ → 0 ≤ wd →
        cacheMap (markCacheSlotEmpty wlCache j) = Function.update (cacheMap wlCache) wd none) ∧
      (∀ oldPathPrefix oldName newPathPrefix newName,
        (oldPathPrefix ++ '/' :: oldName).length < pathMax →
        (∀ slot ∈ activeSlots wlCache, atOrBelow (oldPathPrefix ++ '/' :: oldName) slot.path →
          (newPathPrefix ++ '/' :: newName ++
            slot.path.drop (oldPathPrefix ++ '/' :: oldName).length).length < pathMax) →
        cacheMap (rewriteCachedPaths wlCache oldPathPrefix oldName newPathPrefix newName) =
          fun wd => (cacheMap wlCache wd).map
            (renamePath (oldPathPrefix ++ '/' :: oldName) (newPathPrefix ++ '/' :: newName))) ∧
      (∀ (roots : Roots) (k : Kernel) (p : Path), WatchesHeld k wlCache p →
        cacheMap (zapSubtree ⟨wlCache, roots, k⟩ p).1.wlCache =
            (fun wd => (cacheMap wlCache wd).filter fun v => !atOrBelow p v) ∧
          (zapSubtree ⟨wlCache, roots, k⟩ p).2 =
            ((activeSlots wlCache).filter fun slot => atOrBelow p slot.path).length) :=
  ⟨fun _ reach => reach.wellFormed, fun _ wf short =>
    ⟨fun _ nonneg => findWatch_refines wf nonneg,
      pathnameToCacheSlot_refines wf,
      fun _ pathname nonneg absent fits =>
        ⟨cacheMap_addWatchToCache wf nonneg pathname absent fits,
          fun _ _ hit active => addWatchToCache_keeps_active wf pathname hit active⟩,
      fun _ _ _ hit nonneg => cacheMap_markCacheSlotEmpty wf hit nonneg,
      cacheMap_rewriteCachedPaths wf short,
      fun _ _ p held => cacheMap_zapSubtree (w := ⟨_, _, _⟩) wf short p held⟩⟩

/-- A small array with a hole: the root `/t`, a freed slot, and `/t/a`. -/
def sampleSlots : List Watch := [⟨1, "/t".toList⟩, emptySlot, ⟨3, "/t/a".toList⟩]

theorem slotArray_refines_map_on_sample :
    SlotsWellFormed sampleSlots ∧ ShortPaths sampleSlots ∧
      cacheMap (addWatchToCache sampleSlots 2 "/t/b".toList).1 =
        Function.update (cacheMap sampleSlots) 2 (some "/t/b".toList) :=
  have wf : SlotsWellFormed sampleSlots := by decide
  have short : ShortPaths sampleSlots := by decide
  ⟨wf, short, ((slotArray_refines_map.2 sampleSlots wf short).2.2.1 2 _ (by decide) (by decide)
    (by decide)).1⟩

/-- A rename of `/a` to a pathname of `PATH_MAX` characters, on a reachable array: the
rewritten value is cut to `PATH_MAX - 1` characters, not the value the map operation
prescribes. -/
theorem rewriteCachedPaths_truncates :
    SlotReach (addWatchToCache [] 1 ['/', 'a']).1 ∧ ShortPaths (addWatchToCache [] 1 ['/', 'a']).1 ∧
      cacheMap (rewriteCachedPaths (addWatchToCache [] 1 ['/', 'a']).1 [] ['a']
          ('/' :: List.replicate 4093 'x') ['b']) 1 ≠
        (cacheMap (addWatchToCache [] 1 ['/', 'a']).1 1).map
          (renamePath ['/', 'a'] ('/' :: List.replicate 4093 'x' ++ ['/', 'b'])) := by
  have shape : (addWatchToCache [] 1 ['/', 'a']).1 = ⟨1, ['/', 'a']⟩ :: List.replicate 199 emptySlot :=
    rfl
  have short : ShortPaths (addWatchToCache [] 1 ['/', 'a']).1 := fun slot member => by
    rw [shape] at member
    rcases List.mem_cons.mp member with rfl | blank
    · decide
    · rw [List.eq_of_mem_replicate blank]
      decide
  refine ⟨.add _ .freeCache (by decide) (by decide), short, fun same => ?_⟩
  have fullPath : snprintf pathMax ([] ++ ['/', 'a']) = ['/', 'a'] := snprintf_of_lt (by decide)
  have rewritten : rewriteCachedPaths (addWatchToCache [] 1 ['/', 'a']).1 [] ['a'] ('/' :: List.replicate 4093 'x') ['b'] =
      ⟨1, rewrittenPath ['/', 'a'] (snprintf pathMax ('/' :: List.replicate 4093 'x' ++ ['/', 'b']))
        ['/', 'a']⟩ :: (List.replicate 199 emptySlot).map (rewriteSlot ['/', 'a']
          (snprintf pathMax ('/' :: List.replicate 4093 'x' ++ ['/', 'b']))) := by
    show List.map (rewriteSlot (snprintf pathMax ([] ++ ['/', 'a'])) _) _ = _
    rw [fullPath, shape, List.map_cons, rewriteSlot, if_pos (by decide)]
  rw [rewritten, shape] at same
  have values : rewrittenPath ['/', 'a'] (snprintf pathMax ('/' :: List.replicate 4093 'x' ++ ['/', 'b']))
      ['/', 'a'] = renamePath ['/', 'a'] ('/' :: List.replicate 4093 'x' ++ ['/', 'b']) ['/', 'a'] :=
    Option.some.inj same
  have tooLong := length_rewrittenPath_lt ['/', 'a']
    (snprintf pathMax ('/' :: List.replicate 4093 'x' ++ ['/', 'b'])) ['/', 'a']
  rw [values, renamePath, if_pos (by decide), List.drop_length, List.append_nil, List.length_append,
    List.length_cons, List.length_replicate] at tooLong
  exact absurd tooLong (by decide)

end InotifyDtree
