import InotifyDtree.Engine

set_option autoImplicit false

/- `processNextInotifyEvent`: one record (or one `IN_MOVED_FROM`/`IN_MOVED_TO` pair)
taken from the front of the unread part of the buffer. `buf` holds the records from the
current one on and `bufSize` is the number of unread bytes. The result is the number of
bytes consumed, -1 to ask for another `read()`, or `inotifyReadBufLen` when the cache
was rebuilt and the rest of the buffer must be dropped. -/
namespace InotifyDtree

/-- `(struct inotify_event *) buf`: a record must start there. -/
def headRecord : List InotifyEvent → Except Stop InotifyEvent
  | ev :: _ => .ok ev
  | [] => .error .badRecord

/-- `wlCache[slot]` for a slot variable that holds `some` value once assigned:
`badSlot` for an unassigned variable and for an index outside the array. -/
def readSlot (wlCache : List Watch) : Option Int → Except Stop (Nat × Watch)
  | some slot =>
    match wlCache[slot.toNat]? with
    | some watch => if 0 ≤ slot then .ok (slot.toNat, watch) else .error .badSlot
    | none => .error .badSlot
  | none => .error .badSlot

/-- Rebuild the cache and drop the rest of the buffer. -/
def discardBuffer (w : World) : Except Stop (World × Int) := do
  let w ← reinitialize w
  pure (w, inotifyReadBufLen)

/-- `IN_CREATE` or `IN_MOVED_TO` of a directory: walk it unless its pathname is cached. -/
def directoryCreated (w : World) (evCacheSlot : Option Int) (ev : InotifyEvent) :
    Except Stop (World × Int) := do
  let (_, parent) ← readSlot w.wlCache evCacheSlot
  let fullPath := snprintf (pathMax + nameMax) (parent.path ++ '/' :: ev.name)
  let w ← if pathnameInCache w.wlCache fullPath then pure w else watchSubtree w fullPath
  pure (w, ev.size)

def directoryDeleted (w : World) (evCacheSlot : Option Int) (ev : InotifyEvent) :
    Except Stop (World × Int) := do
  let (slot, watch) ← readSlot w.wlCache evCacheSlot
  let roots ← if isRootDirPath w.roots watch.path then zapRootDirPath w.roots watch.path
    else pure w.roots
  pure ({ w with roots := roots, wlCache := markCacheSlotEmpty w.wlCache slot }, ev.size)

/-- An `IN_MOVED_FROM` with no matching `IN_MOVED_TO`: the directory left the trees. -/
def movedOut (w : World) (evCacheSlot : Option Int) (ev : InotifyEvent) :
    Except Stop (World × Int) := do
  let (_, parent) ← readSlot w.wlCache evCacheSlot
  let fullPath := snprintf (pathMax + nameMax) (parent.path ++ '/' :: ev.name)
  let (w, cnt) := zapSubtree w fullPath
  if cnt = -1 then discardBuffer w else pure (w, ev.size)

/-- An `IN_MOVED_FROM` followed by the `IN_MOVED_TO` with its cookie: a rename inside the
trees, which consumes both records. -/
def renamedWithin (cfg : Config) (w : World) (evCacheSlot : Option Int) (ev nextEv : InotifyEvent) :
    Except Stop (World × Int) := do
  let nextEvCacheSlot ← findWatchChecked cfg w.wlCache nextEv.wd
  if nextEvCacheSlot = -1 then discardBuffer w
  else
    let (_, oldDir) ← readSlot w.wlCache evCacheSlot
    let (_, newDir) ← readSlot w.wlCache (some nextEvCacheSlot)
    let wlCache := rewriteCachedPaths w.wlCache oldDir.path ev.name newDir.path nextEv.name
    pure ({ w with wlCache := wlCache }, ev.size + nextEv.size)

/-- The record after `ev`, read only when `buf + evLen < buf + bufSize`. -/
def lookahead (buf : List InotifyEvent) (evLen bufSize : Int) : Except Stop (Option InotifyEvent) :=
  if evLen < bufSize then
    match buf with
    | _ :: nextEv :: _ => .ok (some nextEv)
    | _ => .error .badRecord
  else .ok none

def directoryMovedFrom (cfg : Config) (w : World) (buf : List InotifyEvent) (bufSize : Int)
    (firstTry : Bool) (evCacheSlot : Option Int) (ev : InotifyEvent) :
    Except Stop (World × Int) := do
  match ← lookahead buf ev.size bufSize with
  | some nextEv =>
    if hasAny nextEv.mask inMovedTo && nextEv.cookie == ev.cookie then
      renamedWithin cfg w evCacheSlot ev nextEv
    else movedOut w evCacheSlot ev
  | none => if firstTry then pure (w, -1) else movedOut w evCacheSlot ev

def rootMoved (w : World) (evCacheSlot : Option Int) (ev : InotifyEvent) :
    Except Stop (World × Int) := do
  let (_, watch) ← readSlot w.wlCache evCacheSlot
  if isRootDirPath w.roots watch.path then
    let roots ← zapRootDirPath w.roots watch.path
    let (w, cnt) := zapSubtree { w with roots := roots } watch.path
    if cnt = -1 then discardBuffer w else pure (w, ev.size)
  else pure (w, ev.size)

/-- The dispatch on the mask, once `evCacheSlot` has been looked up (or left unset). -/
def dispatchEvent (cfg : Config) (w : World) (buf : List InotifyEvent) (bufSize : Int)
    (firstTry : Bool) (evCacheSlot : Option Int) (ev : InotifyEvent) :
    Except Stop (World × Int) :=
  if hasAny ev.mask inIsdir && hasAny ev.mask (inCreate ||| inMovedTo) then
    directoryCreated w evCacheSlot ev
  else if hasAny ev.mask inDeleteSelf then
    directoryDeleted w evCacheSlot ev
  else if ev.mask &&& (inMovedFrom ||| inIsdir) == inMovedFrom ||| inIsdir then
    directoryMovedFrom cfg w buf bufSize firstTry evCacheSlot ev
  else if hasAny ev.mask inQOverflow then
    discardBuffer w
  else if hasAny ev.mask inUnmount then do
    let (slot, _) ← readSlot w.wlCache evCacheSlot
    pure ({ w with wlCache := markCacheSlotEmpty w.wlCache slot }, ev.size)
  else if hasAny ev.mask inMoveSelf then
    rootMoved w evCacheSlot ev
  else pure (w, ev.size)

/-- The slot is looked up only for records with a watch descriptor that are not
`IN_IGNORED`; a miss rebuilds the cache. -/
def processNextInotifyEvent (cfg : Config) (w : World) (buf : List InotifyEvent)
    (bufSize : Int) (firstTry : Bool) : Except Stop (World × Int) := do
  let ev ← headRecord buf
  if ev.wd != -1 && !hasAny ev.mask inIgnored then
    let evCacheSlot ← findWatchChecked cfg w.wlCache ev.wd
    if evCacheSlot = -1 then discardBuffer w
    else dispatchEvent cfg w buf bufSize firstTry (some evCacheSlot) ev
  else dispatchEvent cfg w buf bufSize firstTry none ev

end InotifyDtree

/- How the handler can stop. A branch stops only through the primitives it calls: the
walks (`inotify_add_watch`), `zapRootDirPath` on a root (after the last one, "bye"),
`findWatchChecked` (the abort under `-a`), `lookahead` (a record that is not there),
and `readSlot`, which every branch calls only with an index a successful
`findWatchChecked` returned in the same call. Slot-index safety is the case
`P e := e ≠ badSlot`. -/
namespace InotifyDtree

/-- The branch the dispatch on the mask takes; only `IN_MOVED_FROM` of a directory reads
the buffer. -/
theorem dispatchEvent_cases (cfg : Config) (w : World) (buf : List InotifyEvent) (bufSize : Int)
    (firstTry : Bool) (evCacheSlot : Option Int) (ev : InotifyEvent) :
    dispatchEvent cfg w buf bufSize firstTry evCacheSlot ev = directoryCreated w evCacheSlot ev ∨
      dispatchEvent cfg w buf bufSize firstTry evCacheSlot ev = directoryDeleted w evCacheSlot ev ∨
      dispatchEvent cfg w buf bufSize firstTry evCacheSlot ev =
        directoryMovedFrom cfg w buf bufSize firstTry evCacheSlot ev ∨
      dispatchEvent cfg w buf bufSize firstTry evCacheSlot ev = discardBuffer w ∨
      dispatchEvent cfg w buf bufSize firstTry evCacheSlot ev = (do
        let (slot, _) ← readSlot w.wlCache evCacheSlot
        pure ({ w with wlCache := markCacheSlotEmpty w.wlCache slot }, (ev.size : Int))) ∨
      dispatchEvent cfg w buf bufSize firstTry evCacheSlot ev = rootMoved w evCacheSlot ev ∨
      dispatchEvent cfg w buf bufSize firstTry evCacheSlot ev = pure (w, (ev.size : Int)) := by
  unfold dispatchEvent
  split
  · exact .inl rfl
  split
  · exact .inr (.inl rfl)
  split
  · exact .inr (.inr (.inl rfl))
  split
  · exact .inr (.inr (.inr (.inl rfl)))
  split
  · exact .inr (.inr (.inr (.inr (.inl rfl))))
  split
  · exact .inr (.inr (.inr (.inr (.inr (.inl rfl)))))
  · exact .inr (.inr (.inr (.inr (.inr (.inr rfl)))))

/-- Every way `x` stops satisfies `P`. -/
def Stops {α : Type} (P : Stop → Prop) (x : Except Stop α) : Prop := ∀ e, x = .error e → P e

theorem Stops.bind {α β : Type} {P : Stop → Prop} {x : Except Stop α} {f : α → Except Stop β}
    (first : Stops P x) (rest : ∀ a, x = .ok a → Stops P (f a)) : Stops P (x >>= f) := by
  cases x with
  | error e => exact fun _ stopped => by cases stopped; exact first e rfl
  | ok a => exact rest a rfl

theorem Stops.of_ok {α : Type} {P : Stop → Prop} {a : α} : Stops P (.ok a) :=
  fun _ stopped => by cases stopped

/-- What the primitives the handler calls may stop with, as far as `P` goes: a walk's
`inotify_add_watch` failing, the last root zapped, and what `createStopFileAndAbort`
reaches on a cache miss under `-a`. -/
structure StopsAllowed (P : Stop → Prop) (cfg : Config) : Prop where
  walk : P (.exit exitFailure "inotify_add_watch")
  bye : P (.exit exitSuccess "No more root paths left to monitor; bye!")
  abort : cfg.abortOnCacheProblem = true → P (createStopFileAndAbort cfg)

/-- `zapRootDirPath` on a pathname `isRootDirPath` accepts stops only after zapping the
last root. -/
theorem zapRootDirPath_error {roots : Roots} {path : Path} {e : Stop}
    (isRoot : isRootDirPath roots path = true) (stopped : zapRootDirPath roots path = .error e) :
    e = .exit exitSuccess "No more root paths left to monitor; bye!" := by
  obtain ⟨j, found⟩ := Option.isSome_iff_exists.mp isRoot
  simp only [zapRootDirPath, found] at stopped
  split at stopped
  · cases stopped
    rfl
  · cases stopped

/-- A slot number returned by a successful `findWatch` indexes a slot holding `wd`. -/
theorem readSlot_findWatch (wlCache : List Watch) (wd : Int) (found : 0 ≤ findWatch wlCache wd) :
    ∃ j watch, readSlot wlCache (some (findWatch wlCache wd)) = .ok (j, watch) ∧ watch.wd = wd := by
  rcases scanSlots_cases (fun slot => slot.wd == wd) wlCache with ⟨miss, -⟩ | ⟨j, within, hit, holds⟩
  · exact absurd (show findWatch wlCache wd = -1 from miss) (by omega)
  · have slot : findWatch wlCache wd = j := hit
    have nonneg : (0 : Int) ≤ j := Int.ofNat_nonneg j
    refine ⟨j, wlCache[j], ?_, by simpa using holds⟩
    simp [readSlot, slot, List.getElem?_eq_getElem within, nonneg]

/-- A slot number `findWatchChecked` returns, other than -1, indexes a slot holding
`wd`. -/
theorem findWatchChecked_slot {cfg : Config} {wlCache : List Watch} {wd slot : Int}
    (checked : findWatchChecked cfg wlCache wd = .ok slot) (hit : slot ≠ -1) :
    ∃ j watch, readSlot wlCache (some slot) = .ok (j, watch) ∧ watch.wd = wd := by
  rcases findWatchChecked_cases cfg wlCache wd with
    ⟨-, -, aborted⟩ | ⟨-, -, missed⟩ | ⟨found, accepted⟩
  · rw [aborted] at checked
    cases checked
  · rw [missed] at checked
    cases checked
    exact absurd rfl hit
  · rw [accepted] at checked
    cases checked
    exact readSlot_findWatch wlCache wd found

section Stopping

variable (P : Stop → Prop) (cfg : Config) (allowed : StopsAllowed P cfg) (w : World)
  (evCacheSlot : Option Int) (ev : InotifyEvent) {j : Nat} {watch : Watch}
include allowed

theorem discardBuffer_stops : Stops P (discardBuffer w) :=
  Stops.bind (fun _ stopped => reinitialize_error stopped ▸ allowed.walk) fun _ _ => Stops.of_ok

theorem findWatchChecked_stops (wlCache : List Watch) (wd : Int) :
    Stops P (findWatchChecked cfg wlCache wd) := by
  intro e stopped
  rcases findWatchChecked_cases cfg wlCache wd with
    ⟨set, -, aborted⟩ | ⟨-, -, missed⟩ | ⟨-, accepted⟩
  · rw [aborted] at stopped
    cases stopped
    exact allowed.abort set
  · rw [missed] at stopped
    cases stopped
  · rw [accepted] at stopped
    cases stopped

/-- The end of `movedOut` and `rootMoved`: the rebuild when an `inotify_rm_watch` of
`zapSubtree` failed. -/
theorem zapped_stops (path : Path) (size : Int) :
    Stops P (if (zapSubtree w path).2 = -1 then discardBuffer (zapSubtree w path).1
      else pure ((zapSubtree w path).1, size)) := by
  split
  · exact discardBuffer_stops P cfg allowed _
  · exact Stops.of_ok

theorem directoryCreated_stops (valid : readSlot w.wlCache evCacheSlot = .ok (j, watch)) :
    Stops P (directoryCreated w evCacheSlot ev) := by
  simp only [directoryCreated, valid, except_ok_bind]
  split
  · exact Stops.of_ok
  · exact Stops.bind (fun _ stopped => watchSubtree_error stopped ▸ allowed.walk) fun _ _ => Stops.of_ok

theorem directoryDeleted_stops (valid : readSlot w.wlCache evCacheSlot = .ok (j, watch)) :
    Stops P (directoryDeleted w evCacheSlot ev) := by
  simp only [directoryDeleted, valid, except_ok_bind]
  split
  · next isRoot =>
    exact Stops.bind (fun _ stopped => zapRootDirPath_error isRoot stopped ▸ allowed.bye)
      fun _ _ => Stops.of_ok
  · exact Stops.of_ok

theorem movedOut_stops (valid : readSlot w.wlCache evCacheSlot = .ok (j, watch)) :
    Stops P (movedOut w evCacheSlot ev) := by
  simp only [movedOut, valid, except_ok_bind]
  exact zapped_stops P cfg allowed w _ _

theorem renamedWithin_stops (nextEv : InotifyEvent)
    (valid : readSlot w.wlCache evCacheSlot = .ok (j, watch)) :
    Stops P (renamedWithin cfg w evCacheSlot ev nextEv) := by
  unfold renamedWithin
  refine Stops.bind (findWatchChecked_stops P cfg allowed _ _) fun slot checked => ?_
  split
  · exact discardBuffer_stops P cfg allowed w
  · next hit =>
    obtain ⟨_, _, read, -⟩ := findWatchChecked_slot checked hit
    simp only [valid, read, except_ok_bind]
    exact Stops.of_ok

theorem directoryMovedFrom_stops (buf : List InotifyEvent) (bufSize : Int) (firstTry : Bool)
    (valid : readSlot w.wlCache evCacheSlot = .ok (j, watch))
    (ahead : Stops P (lookahead buf ev.size bufSize)) :
    Stops P (directoryMovedFrom cfg w buf bufSize firstTry evCacheSlot ev) := by
  unfold directoryMovedFrom
  refine Stops.bind ahead fun next _ => ?_
  cases next with
  | some nextEv =>
    dsimp only
    split
    · exact renamedWithin_stops P cfg allowed w evCacheSlot ev nextEv valid
    · exact movedOut_stops P cfg allowed w evCacheSlot ev valid
  | none =>
    dsimp only
    split
    · exact Stops.of_ok
    · exact movedOut_stops P cfg allowed w evCacheSlot ev valid

theorem rootMoved_stops (valid : readSlot w.wlCache evCacheSlot = .ok (j, watch)) :
    Stops P (rootMoved w evCacheSlot ev) := by
  simp only [rootMoved, valid, except_ok_bind]
  split
  · next isRoot =>
    exact Stops.bind (fun _ stopped => zapRootDirPath_error isRoot stopped ▸ allowed.bye)
      fun _ _ => zapped_stops P cfg allowed _ _ _
  · exact Stops.of_ok

theorem dispatchEvent_stops (buf : List InotifyEvent) (bufSize : Int) (firstTry : Bool)
    (valid : readSlot w.wlCache evCacheSlot = .ok (j, watch))
    (ahead : Stops P (lookahead buf ev.size bufSize)) :
    Stops P (dispatchEvent cfg w buf bufSize firstTry evCacheSlot ev) := by
  rcases dispatchEvent_cases cfg w buf bufSize firstTry evCacheSlot ev with
    taken | taken | taken | taken | taken | taken | taken <;> rw [taken]
  · exact directoryCreated_stops P cfg allowed w evCacheSlot ev valid
  · exact directoryDeleted_stops P cfg allowed w evCacheSlot ev valid
  · exact directoryMovedFrom_stops P cfg allowed w evCacheSlot ev buf bufSize firstTry valid ahead
  · exact discardBuffer_stops P cfg allowed w
  · simp only [valid, except_ok_bind]
    exact Stops.of_ok
  · exact rootMoved_stops P cfg allowed w evCacheSlot ev valid
  · exact Stops.of_ok

/-- Without a slot number the handler reaches no branch that reads a slot, for the two
kinds of record that skip the lookup. -/
theorem dispatchEvent_stops_unassigned (buf : List InotifyEvent) (bufSize : Int) (firstTry : Bool)
    (skipped : ev.mask = inQOverflow ∨ ev.mask = inIgnored) :
    Stops P (dispatchEvent cfg w buf bufSize firstTry none ev) := by
  rcases skipped with overflow | ignored
  · have rebuilt : dispatchEvent cfg w buf bufSize firstTry none ev = discardBuffer w := by
      simp only [dispatchEvent, overflow]
      rfl
    exact rebuilt ▸ discardBuffer_stops P cfg allowed w
  · have passed : dispatchEvent cfg w buf bufSize firstTry none ev = .ok (w, ev.size) := by
      simp only [dispatchEvent, ignored]
      rfl
    rw [passed]
    exact Stops.of_ok

/-- For a first record the kernel can deliver, the handler stops only as its primitives
and its lookahead do: every slot it reads is one a successful `findWatchChecked` returned
in the same call. -/
theorem processNextInotifyEvent_stops (rest : List InotifyEvent) (bufSize : Int) (firstTry : Bool)
    (deliverable : Deliverable ev) (ahead : Stops P (lookahead (ev :: rest) ev.size bufSize)) :
    Stops P (processNextInotifyEvent cfg w (ev :: rest) bufSize firstTry) := by
  simp only [processNextInotifyEvent, headRecord, except_ok_bind]
  split
  · refine Stops.bind (findWatchChecked_stops P cfg allowed _ _) fun slot checked => ?_
    split
    · exact discardBuffer_stops P cfg allowed w
    · next hit =>
      obtain ⟨_, _, valid, -⟩ := findWatchChecked_slot checked hit
      exact dispatchEvent_stops P cfg allowed w _ ev (ev :: rest) bufSize firstTry valid ahead
  · next skipped =>
    apply dispatchEvent_stops_unassigned P cfg allowed
    by_cases overflow : ev.wd = -1
    · exact .inl (deliverable.1 overflow)
    · exact .inr (deliverable.2 (by simpa [overflow] using skipped))

end Stopping

/-- One watched root `/t` and its cache slot. -/
def sampleWorld : World :=
  ⟨[⟨1, "/t".toList⟩], ⟨[some "/t".toList], [2], 0⟩,
    ⟨⟨.mk 1 [("t".toList, .mk 2 [])], by decide⟩, 3, 0, ⟨1, [⟨1, 2, inCreate⟩], 1, []⟩⟩⟩

/-- `mkdir /t/a` reported on the root's watch. -/
def sampleCreate : InotifyEvent := ⟨1, inCreate ||| inIsdir, 0, 16, "a".toList⟩

end InotifyDtree
