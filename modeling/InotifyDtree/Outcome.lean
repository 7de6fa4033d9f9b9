import InotifyDtree.Handler

set_option autoImplicit false

/- What one call of `processNextInotifyEvent` does with the records in front of it. It
asks for another `read()` without touching anything, consumes the first record (or an
`IN_MOVED_FROM`/`IN_MOVED_TO` pair) on the same instance, or rebuilds the cache on a new
instance and drops the rest of the buffer. Of the buffer it sees only the first
record, the record after it when one follows within `bufSize`, and `firstTry` when none
does. -/
namespace InotifyDtree

/-- Every value `x` returns satisfies `P`. -/
def Yields {α : Type} (P : α → Prop) (x : Except Stop α) : Prop := ∀ a, x = .ok a → P a

theorem Yields.bind {α β : Type} {P : β → Prop} {x : Except Stop α} {f : α → Except Stop β}
    (rest : ∀ a, x = .ok a → Yields P (f a)) : Yields P (x >>= f) := by
  cases x with
  | error e => intro _ done; cases done
  | ok a => exact rest a rfl

theorem Yields.of_ok {α : Type} {P : α → Prop} {a : α} (holds : P a) : Yields P (.ok a) :=
  fun _ done => by cases done; exact holds

/-- What a call on the records `ev :: more`, `bufSize` bytes of them unread, may return:
`-1` after changing nothing, on a first try with no record after `ev` in the buffer; the
bytes of `ev`, or of `ev` and the record after it, on the same instance; or
`INOTIFY_READ_BUF_LEN` after rebuilding the cache on a new instance. -/
def Consumes (w : World) (ev : InotifyEvent) (more : List InotifyEvent) (bufSize : Int)
    (firstTry : Bool) : World × Int → Prop
  | (w', evLen) =>
    (w' = w ∧ evLen = -1 ∧ firstTry = true ∧ lookahead (ev :: more) ev.size bufSize = .ok none) ∨
    (w'.kernel.inotify.generation = w.kernel.inotify.generation ∧
      (evLen = ev.size ∨ ∃ next rest, more = next :: rest ∧ evLen = ev.size + next.size)) ∨
    (w'.kernel.inotify.generation = w.kernel.inotify.generation + 1 ∧ evLen = inotifyReadBufLen)

theorem lookahead_some {ev next : InotifyEvent} {more : List InotifyEvent} {evLen bufSize : Int}
    (ahead : lookahead (ev :: more) evLen bufSize = .ok (some next)) :
    ∃ rest, more = next :: rest := by
  cases more with
  | nil => simp only [lookahead] at ahead; split at ahead <;> cases ahead
  | cons n rest =>
    simp only [lookahead] at ahead
    split at ahead <;> cases ahead
    exact ⟨rest, rfl⟩

section Handler

variable {w : World} {ev : InotifyEvent} {more : List InotifyEvent} {bufSize : Int} {firstTry : Bool}

theorem consumes_single {v : World} (same : v.kernel.inotify.generation = w.kernel.inotify.generation) :
    Consumes w ev more bufSize firstTry (v, ev.size) :=
  .inr (.inl ⟨same, .inl rfl⟩)

theorem discardBuffer_consumes {v : World}
    (same : v.kernel.inotify.generation = w.kernel.inotify.generation) :
    Yields (Consumes w ev more bufSize firstTry) (discardBuffer v) :=
  Yields.bind fun _ rebuilt =>
    Yields.of_ok (.inr (.inr ⟨(reinitialize_generation rebuilt).trans (by rw [same]), rfl⟩))

/-- The end of `movedOut` and `rootMoved`: the rebuild when an `inotify_rm_watch` of
`zapSubtree` failed. -/
theorem zapped_consumes (v : World) (path : Path)
    (same : v.kernel.inotify.generation = w.kernel.inotify.generation) :
    Yields (Consumes w ev more bufSize firstTry)
      (if (zapSubtree v path).2 = -1 then discardBuffer (zapSubtree v path).1
        else pure ((zapSubtree v path).1, ev.size)) := by
  have kept : (zapSubtree v path).1.kernel.inotify.generation = w.kernel.inotify.generation := by
    rw [zapSubtree_generation, same]
  split
  · exact discardBuffer_consumes kept
  · exact Yields.of_ok (consumes_single kept)

variable (cfg : Config) (evCacheSlot : Option Int)

theorem directoryCreated_consumes :
    Yields (Consumes w ev more bufSize firstTry) (directoryCreated w evCacheSlot ev) := by
  unfold directoryCreated
  refine Yields.bind fun ⟨_, parent⟩ _ => ?_
  dsimp only
  split
  · exact Yields.of_ok (consumes_single rfl)
  · exact Yields.bind fun _ walked => Yields.of_ok (consumes_single (watchSubtree_kernel walked).2)

theorem directoryDeleted_consumes :
    Yields (Consumes w ev more bufSize firstTry) (directoryDeleted w evCacheSlot ev) := by
  unfold directoryDeleted
  refine Yields.bind fun ⟨slot, watch⟩ _ => ?_
  dsimp only
  split
  · exact Yields.bind fun _ _ => Yields.of_ok (consumes_single rfl)
  · exact Yields.of_ok (consumes_single rfl)

theorem movedOut_consumes :
    Yields (Consumes w ev more bufSize firstTry) (movedOut w evCacheSlot ev) := by
  unfold movedOut
  refine Yields.bind fun ⟨_, parent⟩ _ => ?_
  dsimp only
  exact zapped_consumes w _ rfl

theorem renamedWithin_consumes {next : InotifyEvent} {rest : List InotifyEvent}
    (ahead : more = next :: rest) :
    Yields (Consumes w ev more bufSize firstTry) (renamedWithin cfg w evCacheSlot ev next) := by
  unfold renamedWithin
  refine Yields.bind fun slot _ => ?_
  split
  · exact discardBuffer_consumes rfl
  · exact Yields.bind fun _ _ => Yields.bind fun _ _ =>
      Yields.of_ok (.inr (.inl ⟨rfl, .inr ⟨next, rest, ahead, rfl⟩⟩))

theorem directoryMovedFrom_consumes :
    Yields (Consumes w ev more bufSize firstTry)
      (directoryMovedFrom cfg w (ev :: more) bufSize firstTry evCacheSlot ev) := by
  unfold directoryMovedFrom
  refine Yields.bind fun next ahead => ?_
  cases next with
  | some next =>
    obtain ⟨rest, follows⟩ := lookahead_some ahead
    dsimp only
    split
    · exact renamedWithin_consumes cfg evCacheSlot follows
    · exact movedOut_consumes evCacheSlot
  | none =>
    dsimp only
    split
    · rename_i first
      exact Yields.of_ok (.inl ⟨rfl, rfl, first, ahead⟩)
    · exact movedOut_consumes evCacheSlot

theorem rootMoved_consumes :
    Yields (Consumes w ev more bufSize firstTry) (rootMoved w evCacheSlot ev) := by
  unfold rootMoved
  refine Yields.bind fun ⟨_, watch⟩ _ => ?_
  dsimp only
  split
  · exact Yields.bind fun _ _ => zapped_consumes _ _ rfl
  · exact Yields.of_ok (consumes_single rfl)

theorem dispatchEvent_consumes :
    Yields (Consumes w ev more bufSize firstTry)
      (dispatchEvent cfg w (ev :: more) bufSize firstTry evCacheSlot ev) := by
  rcases dispatchEvent_cases cfg w (ev :: more) bufSize firstTry evCacheSlot ev with
    taken | taken | taken | taken | taken | taken | taken <;> rw [taken]
  · exact directoryCreated_consumes evCacheSlot
  · exact directoryDeleted_consumes evCacheSlot
  · exact directoryMovedFrom_consumes cfg evCacheSlot
  · exact discardBuffer_consumes rfl
  · exact Yields.bind fun _ _ => Yields.of_ok (consumes_single rfl)
  · exact rootMoved_consumes evCacheSlot
  · exact Yields.of_ok (consumes_single rfl)

end Handler

/-- Every call of the handler defers without a change, consumes one record or the pair
on the same instance, or rebuilds the cache. -/
theorem processNextInotifyEvent_consumes (cfg : Config) (w : World) (ev : InotifyEvent)
    (more : List InotifyEvent) (bufSize : Int) (firstTry : Bool) :
    Yields (Consumes w ev more bufSize firstTry)
      (processNextInotifyEvent cfg w (ev :: more) bufSize firstTry) := by
  simp only [processNextInotifyEvent, headRecord, except_ok_bind]
  split
  · refine Yields.bind fun slot _ => ?_
    split
    · exact discardBuffer_consumes rfl
    · exact dispatchEvent_consumes cfg _
  · exact dispatchEvent_consumes cfg _

/-- A deferral changes nothing, and only a first try defers. -/
theorem processNextInotifyEvent_deferred {cfg : Config} {w w' : World} {buf : List InotifyEvent}
    {bufSize : Int} {firstTry : Bool} (deferred : processNextInotifyEvent cfg w buf bufSize firstTry = .ok (w', -1)) :
    w' = w ∧ firstTry = true := by
  cases buf with
  | nil => cases deferred
  | cons ev more =>
    have := size_pos ev
    rcases processNextInotifyEvent_consumes cfg w ev more bufSize firstTry _ deferred with
      ⟨kept, -, first, -⟩ | ⟨-, single | ⟨next, -, -, pair⟩⟩ | ⟨-, rebuilt⟩
    · exact ⟨kept, first⟩
    · omega
    · omega
    · cases rebuilt

section View

variable (cfg : Config) (w : World) (ev : InotifyEvent) {more more' : List InotifyEvent}
  {bufSize bufSize' : Int} {firstTry firstTry' : Bool}

/-- Two views of the buffer after `ev`: the same lookahead (and the same `firstTry` when
there is none), or, for the first, a first try with no record after `ev`. -/
def SameView (more more' : List InotifyEvent) (bufSize bufSize' : Int) (firstTry firstTry' : Bool) :
    Prop :=
  (lookahead (ev :: more) ev.size bufSize = lookahead (ev :: more') ev.size bufSize' ∧
      (lookahead (ev :: more) ev.size bufSize = .ok none → firstTry = firstTry')) ∨
    (lookahead (ev :: more) ev.size bufSize = .ok none ∧ firstTry = true)

variable {cfg w ev}

theorem directoryMovedFrom_deferred_or_same (view : SameView ev more more' bufSize bufSize' firstTry firstTry')
    (evCacheSlot : Option Int) :
    directoryMovedFrom cfg w (ev :: more) bufSize firstTry evCacheSlot ev = .ok (w, -1) ∨
      directoryMovedFrom cfg w (ev :: more) bufSize firstTry evCacheSlot ev =
        directoryMovedFrom cfg w (ev :: more') bufSize' firstTry' evCacheSlot ev := by
  unfold directoryMovedFrom
  rcases view with ⟨same, retry⟩ | ⟨none, first⟩
  · right
    rw [← same]
    cases ahead : lookahead (ev :: more) ev.size bufSize with
    | error e => rfl
    | ok next =>
      cases next with
      | some next => rfl
      | none => simp only [except_ok_bind, retry ahead]
  · left
    simp only [none, first, except_ok_bind, if_true, except_pure]

theorem dispatchEvent_deferred_or_same (view : SameView ev more more' bufSize bufSize' firstTry firstTry')
    (evCacheSlot : Option Int) :
    dispatchEvent cfg w (ev :: more) bufSize firstTry evCacheSlot ev = .ok (w, -1) ∨
      dispatchEvent cfg w (ev :: more) bufSize firstTry evCacheSlot ev =
        dispatchEvent cfg w (ev :: more') bufSize' firstTry' evCacheSlot ev := by
  unfold dispatchEvent
  by_cases created : (hasAny ev.mask inIsdir && hasAny ev.mask (inCreate ||| inMovedTo)) = true
  · rw [if_pos created, if_pos created]
    exact .inr rfl
  rw [if_neg created, if_neg created]
  by_cases deleted : hasAny ev.mask inDeleteSelf = true
  · rw [if_pos deleted, if_pos deleted]
    exact .inr rfl
  rw [if_neg deleted, if_neg deleted]
  by_cases movedFrom : (ev.mask &&& (inMovedFrom ||| inIsdir) == inMovedFrom ||| inIsdir) = true
  · rw [if_pos movedFrom, if_pos movedFrom]
    exact directoryMovedFrom_deferred_or_same view evCacheSlot
  rw [if_neg movedFrom, if_neg movedFrom]
  exact .inr rfl

/-- The handler sees the buffer only through its view: on the same view two calls agree,
unless the first defers. -/
theorem processNextInotifyEvent_deferred_or_same
    (view : SameView ev more more' bufSize bufSize' firstTry firstTry') :
    processNextInotifyEvent cfg w (ev :: more) bufSize firstTry = .ok (w, -1) ∨
      processNextInotifyEvent cfg w (ev :: more) bufSize firstTry =
        processNextInotifyEvent cfg w (ev :: more') bufSize' firstTry' := by
  simp only [processNextInotifyEvent, headRecord, except_ok_bind]
  split
  · cases findWatchChecked cfg w.wlCache ev.wd with
    | error e => exact .inr rfl
    | ok slot =>
      simp only [except_ok_bind]
      split
      · exact .inr rfl
      · exact dispatchEvent_deferred_or_same view _
  · exact dispatchEvent_deferred_or_same view _

end View

end InotifyDtree
