import InotifyDtree.BufferInvariant
import InotifyDtree.CacheInvariant

set_option autoImplicit false

/- How a run of the program can end. With `-b` at most `INOTIFY_READ_BUF_LEN`, and
whether or not `SIGALRM` interrupts a secondary `read()`, a step stops the program only
for one of four reasons, and never by the undefined behaviour the model makes visible: a
slot number that was not assigned or is negative, or a record header where no record
starts. After an interrupted secondary `read()` the buffer is one byte short of the
deferred record (`interrupted_secondary_read_splits_record`), but that record is then
handled with `firstTry` unset, so it is never deferred again. -/
namespace InotifyDtree

/-- The ways the running program may stop: a walk's `inotify_add_watch` failing other
than with `ENOENT`, a failed `read()`, the last root zapped, and the abort on a cache
miss, under `-a` only. -/
def ExpectedStop (cfg : Config) (e : Stop) : Prop :=
  e = .exit exitFailure "inotify_add_watch" ∨ e = .exit exitFailure "read" ∨
    e = .exit exitSuccess "No more root paths left to monitor; bye!" ∨
    (e = .abort ∧ cfg.abortOnCacheProblem = true)

/-- With a log file whenever `-a` is given, a cache miss under `-a` is the abort itself. -/
theorem stopsAllowed_expected {cfg : Config} (logged : cfg.abortOnCacheProblem = true → cfg.logFile = true) :
    StopsAllowed (ExpectedStop cfg) cfg :=
  ⟨.inl rfl, .inr (.inr (.inl rfl)), fun set =>
    .inr (.inr (.inr ⟨by rw [createStopFileAndAbort, if_pos (logged set)], set⟩))⟩

/-- The buffer after an interrupted secondary `read()`: the deferred record alone, with
`numRead` one byte short of it. -/
def SplitRecord (L : ReadBuf) : Prop :=
  ∃ ev, L.buf = [ev] ∧ L.numRead + 1 = ev.size ∧ L.evp = 0 ∧ L.firstTry = false

/-- The buffer between steps when `SIGALRM` may interrupt: within `INOTIFY_READ_BUF_LEN`
and made of deliverable records; at the head of a pass whole, or the split record; after
a deferral the deferred record alone. -/
def PhaseSafe : Phase → Prop
  | .idle => True
  | .scanning L => 0 ≤ L.numRead ∧ L.numRead ≤ inotifyReadBufLen ∧ (∀ ev ∈ L.buf, Deliverable ev) ∧
      ((L.evp : Int) < L.numRead →
        (L.numRead = byteSize L.buf ∧ (dropBytes L.buf L.evp).isSome) ∨ SplitRecord L)
  | .deferred L => L.firstTry = false ∧
      ∃ ev, L.buf = [ev] ∧ L.numRead = ev.size ∧ ev.size ≤ inotifyReadBufLen ∧ Deliverable ev

theorem lookahead_ok {ev : InotifyEvent} {more : List InotifyEvent} {bufSize : Int}
    (follows : (ev.size : Int) < bufSize → more ≠ []) :
    ∃ next, lookahead (ev :: more) ev.size bufSize = .ok next := by
  unfold lookahead
  split
  · next longer =>
    cases more with
    | nil => exact absurd rfl (follows longer)
    | cons next _ => exact ⟨_, rfl⟩
  · exact ⟨_, rfl⟩

/-- A pass stops only as the handler's primitives do: the record at `evp` is there, and
so is the one after it whenever the handler looks. -/
theorem loopBody_stops {cfg : Config} (logged : cfg.abortOnCacheProblem = true → cfg.logFile = true) {w : World}
    {L : ReadBuf} (safe : PhaseSafe (.scanning L)) (ahead : (L.evp : Int) < L.numRead) :
    Stops (ExpectedStop cfg) (loopBody cfg w L) := by
  obtain ⟨-, -, deliverable, layout⟩ := safe
  obtain ⟨ev, more, located, follows⟩ : ∃ ev more, dropBytes L.buf L.evp = some (ev :: more) ∧
      ((ev.size : Int) < L.numRead - L.evp → more ≠ []) := by
    rcases layout ahead with ⟨whole, found⟩ | ⟨ev, single, short, start, -⟩
    · obtain ⟨records, found⟩ := Option.isSome_iff_exists.mp found
      have unread := byteSize_dropBytes _ _ found
      cases records with
      | nil => simp only [byteSize_nil] at unread; omega
      | cons ev more =>
        refine ⟨ev, more, found, fun longer => ?_⟩
        rintro rfl
        simp only [byteSize_cons, byteSize_nil] at unread
        omega
    · exact ⟨ev, [], by rw [single, start, dropBytes_zero], fun longer => by omega⟩
  obtain ⟨next, looked⟩ := lookahead_ok follows
  simp only [loopBody, located, except_pure, except_ok_bind]
  refine Stops.bind (processNextInotifyEvent_stops _ cfg (stopsAllowed_expected logged) w ev more _ _
    (deliverable ev ((dropBytes_suffix _ _ located).subset (List.mem_cons_self _ _)))
    fun _ stopped => by rw [looked] at stopped; cases stopped) fun _ _ => ?_
  split <;> exact Stops.of_ok

/-- A deferral leaves exactly the deferred record, which was the last in the buffer. -/
theorem loopBody_deferred {cfg : Config} {w w' : World} {L L' : ReadBuf} (whole : BufferWhole L)
    (body : loopBody cfg w L = .ok (w', .deferred L')) :
    L'.firstTry = false ∧ ∃ ev, L'.buf = [ev] ∧ L'.numRead = ev.size ∧ ev ∈ L.buf := by
  obtain ⟨-, -, sized, -⟩ := whole
  obtain ⟨records, evLen, located, handled, next⟩ := loopBody_ok body
  rcases next with ⟨-, scanned⟩ | ⟨deferred, moved⟩
  · cases scanned
  cases moved
  have unread := byteSize_dropBytes _ _ located
  cases records with
  | nil => simp [processNextInotifyEvent, headRecord] at handled
  | cons ev more =>
    have := size_pos ev
    rcases processNextInotifyEvent_consumes cfg w ev more _ _ _ handled with
      ⟨-, -, -, none⟩ | ⟨-, rfl | ⟨_, _, -, rfl⟩⟩ | ⟨-, rfl⟩
    · have last : more = [] := by
        cases more with
        | nil => rfl
        | cons next rest =>
          have := size_pos next
          simp only [lookahead, byteSize_cons] at none unread
          rw [if_pos (by omega)] at none
          cases none
      subst last
      simp only [byteSize_cons, byteSize_nil] at unread
      exact ⟨rfl, ev, rfl, by dsimp only; omega,
        (dropBytes_suffix _ _ located).subset (List.mem_cons_self _ _)⟩
    · omega
    · omega
    · exact absurd deferred (by decide)

/-- One step keeps the buffer invariant, `SIGALRM` included. -/
theorem PhaseSafe.step {cfg : Config} {s s' : Sys} {a : Action} (inv : CacheInv s.world)
    (safe : PhaseSafe s.phase) (bounded : primaryCount cfg ≤ inotifyReadBufLen)
    (stepped : s.step cfg a = some (.ok s')) : PhaseSafe s'.phase := by
  rcases Sys.step_cases stepped with ⟨k, rfl, -⟩ | ⟨L, -, read, rfl⟩ |
    ⟨L, w, L', scanning, ahead, ⟨body, rfl⟩ | ⟨body, rfl⟩⟩ | ⟨L, -, -, rfl⟩ |
    ⟨L, L', deferred, ⟨read, rfl⟩ | ⟨-, read, rfl⟩⟩
  · exact safe
  · rcases Kernel.read_cases s.world.kernel (primaryCount cfg) with
      failed | ⟨got, records, nonempty, fits, queued⟩
    · rw [failed] at read
      cases read
    · rw [records, primaryRead_of_fits nonempty (by omega)] at read
      cases read
      refine ⟨?_, ?_, fun ev member => inv.kernel.deliverable ev (queued.subset member),
        fun _ => .inl ⟨rfl, by simp [dropBytes_zero]⟩⟩ <;> dsimp only <;> omega
  · rw [scanning] at safe
    obtain ⟨nonneg, within, deliverable, layout⟩ := safe
    rcases layout ahead with ⟨whole, found⟩ | ⟨ev, single, short, start, retried⟩
    · have scanned : BufferWhole L' := loopBody_whole ⟨nonneg, within, whole, fun _ => found⟩ body
      obtain ⟨records, evLen, -, -, next⟩ := loopBody_ok body
      rcases next with ⟨-, moved⟩ | ⟨-, moved⟩ <;> cases moved
      obtain ⟨nonneg', within', whole', found'⟩ := scanned
      exact ⟨nonneg', within', deliverable, fun ahead' => .inl ⟨whole', found' ahead'⟩⟩
    · obtain ⟨records, evLen, located, handled, next⟩ := loopBody_ok body
      rcases next with ⟨consumed, moved⟩ | ⟨-, moved⟩ <;> cases moved
      rw [single, start, dropBytes_zero, Option.some.injEq] at located
      subst located
      have := size_pos ev
      refine ⟨nonneg, within, deliverable, fun ahead' => absurd ahead' ?_⟩
      dsimp only
      rcases processNextInotifyEvent_consumes cfg s.world ev [] _ _ _ handled with
        ⟨-, rfl, -, -⟩ | ⟨-, rfl | ⟨_, _, pair, -⟩⟩ | ⟨-, rfl⟩
      · omega
      · simp only [Int.toNat_ofNat]
        omega
      · cases pair
      · simp only [Int.toNat_ofNat]
        omega
  · rw [scanning] at safe
    obtain ⟨nonneg, within, deliverable, layout⟩ := safe
    rcases layout ahead with ⟨whole, found⟩ | ⟨ev, -, -, -, retried⟩
    · obtain ⟨first, ev, single, sized, member⟩ :=
        loopBody_deferred ⟨nonneg, within, whole, fun _ => found⟩ body
      have bounded' : (L'.numRead : Int) ≤ inotifyReadBufLen :=
        (loopBody_whole ⟨nonneg, within, whole, fun _ => found⟩ body).2
      exact ⟨first, ev, single, sized, by omega, deliverable ev member⟩
    · obtain ⟨records, evLen, -, handled, next⟩ := loopBody_ok body
      rcases next with ⟨-, moved⟩ | ⟨deferred, -⟩
      · cases moved
      cases records with
      | nil => simp [processNextInotifyEvent, headRecord] at handled
      | cons ev more =>
        rcases processNextInotifyEvent_consumes cfg s.world ev more _ _ _ handled with
          ⟨-, -, first, -⟩ | ⟨-, rfl | ⟨_, _, -, rfl⟩⟩ | ⟨-, rfl⟩
        · rw [retried] at first
          cases first
        all_goals
          have := size_pos ev
          omega
  · trivial
  · rw [deferred] at safe
    obtain ⟨first, ev, single, sized, fits, deliverable⟩ := safe
    rcases Kernel.read_cases s.world.kernel (secondaryCount L.numRead) with
      failed | ⟨got, records, nonempty, room, queued⟩
    · rw [failed] at read
      cases read
    · rw [records] at read
      have count := @secondaryCount_of_le L.numRead (by omega) (by omega)
      rcases got with _ | ⟨next, rest⟩
      · exact absurd rfl nonempty
      · cases read
        refine ⟨?_, ?_, fun e member => ?_, fun _ => .inl ⟨?_, by simp [dropBytes_zero]⟩⟩
        · dsimp only
          omega
        · dsimp only
          omega
        · rcases List.mem_append.mp member with old | new
          · rw [single, List.mem_singleton] at old
            exact old ▸ deliverable
          · exact inv.kernel.deliverable e (queued.subset new)
        · simp [single, sized, byteSize_append]
  · rw [deferred] at safe
    obtain ⟨first, ev, single, sized, fits, deliverable⟩ := safe
    have := size_pos ev
    cases read
    refine ⟨by dsimp only; omega, by dsimp only; omega, by simpa [single] using deliverable,
      fun _ => .inr ⟨ev, single, by dsimp only; omega, rfl, first⟩⟩

/-- How one step can stop the program. -/
theorem Sys.step_stops {cfg : Config} (bounded : primaryCount cfg ≤ inotifyReadBufLen)
    (logged : cfg.abortOnCacheProblem = true → cfg.logFile = true) {s : Sys}
    {a : Action} {e : Stop} (safe : PhaseSafe s.phase) (stopped : s.step cfg a = some (.error e)) :
    ExpectedStop cfg e := by
  have readFailed : ∀ {k : Kernel} {count : Nat} {L : ReadBuf},
      (primaryRead (k.read count).1 = .error e ∧ count ≤ inotifyReadBufLen) ∨
        secondaryRead L (k.read count).1 = .error e → ExpectedStop cfg e := by
    intro k count L failed
    rcases Kernel.read_cases k count with read | ⟨got, records, nonempty, fits, -⟩
    · rw [read] at failed
      rcases failed with ⟨failed, -⟩ | failed <;> cases failed <;> exact .inr (.inl rfl)
    · rw [records] at failed
      rcases failed with ⟨failed, within⟩ | failed
      · rw [primaryRead_of_fits nonempty (by omega)] at failed
        cases failed
      · obtain ⟨ev, rest, rfl⟩ := List.exists_cons_of_ne_nil nonempty
        cases failed
  cases a with
  | mkdir p =>
    obtain ⟨_, -, made⟩ := Option.map_eq_some'.mp stopped
    cases made
  | rmdir p =>
    obtain ⟨_, -, removed⟩ := Option.map_eq_some'.mp stopped
    cases removed
  | rename src dst =>
    obtain ⟨_, -, renamed⟩ := Option.map_eq_some'.mp stopped
    cases renamed
  | primaryRead =>
    simp only [Sys.step] at stopped
    split at stopped
    · split at stopped
      · cases stopped
      · exact readFailed (L := ⟨[], 0, 0, true⟩) (.inl ⟨except_map_eq_error (Option.some.inj stopped), bounded⟩)
    · cases stopped
  | pass =>
    simp only [Sys.step] at stopped
    split at stopped
    · next L scanning =>
      split at stopped
      · next ahead =>
        rw [scanning] at safe
        exact loopBody_stops logged safe ahead _ (except_map_eq_error (Option.some.inj stopped))
      · cases stopped
    · cases stopped
  | secondaryRead =>
    simp only [Sys.step] at stopped
    split at stopped
    · split at stopped
      · cases stopped
      · exact readFailed (.inr (except_map_eq_error (Option.some.inj stopped)))
    · cases stopped
  | alarm =>
    simp only [Sys.step] at stopped
    split at stopped
    · cases except_map_eq_error (Option.some.inj stopped)
    · cases stopped

theorem startup_phaseSafe (k : Kernel) (argv : List Path) :
    Yields (fun s : Sys => PhaseSafe s.phase) (startup k argv) := by
  unfold startup
  split
  · intro _ stopped
    cases stopped
  · exact Yields.bind fun _ _ => Yields.bind fun _ _ => Yields.bind fun _ _ => Yields.of_ok trivial

theorem PhaseSafe.reachable {cfg : Config} {k : Kernel} {argv : List Path} {s : Sys}
    (bounded : primaryCount cfg ≤ inotifyReadBufLen) (reach : Reachable cfg k argv s) :
    PhaseSafe s.phase := by
  induction reach with
  | start started => exact startup_phaseSafe k argv _ started
  | step _ reached stepped safe => exact safe.step (CacheInv.reachable reached) bounded stepped

/-- How a run can stop. With `-b` at most `INOTIFY_READ_BUF_LEN`, in every reachable state,
`SIGALRM`s included, the buffer never holds more than `INOTIFY_READ_BUF_LEN` bytes, and a
step stops the program only when a walk's `inotify_add_watch` fails other than with
`ENOENT`, when a `read()` fails, after the last root is zapped ("bye"), or, under `-a`
only, on a cache miss; under `-a` a log file is needed, since the abort first dumps the
cache to `logfp`. No step reads a slot at an unassigned or negative index or a record
where none starts, `read()` never returns 0, and `zapRootDirPath` always finds its root. -/
theorem reachable_stops_expected {cfg : Config} {k : Kernel} {argv : List Path} {s : Sys}
    (bounded : primaryCount cfg ≤ inotifyReadBufLen) (logged : cfg.abortOnCacheProblem = true → cfg.logFile = true)
    (reach : Reachable cfg k argv s) :
    (∀ L, (s.phase = .scanning L ∨ s.phase = .deferred L) → L.numRead ≤ inotifyReadBufLen) ∧
      ∀ a e, s.step cfg a = some (.error e) → ExpectedStop cfg e := by
  have safe := PhaseSafe.reachable bounded reach
  refine ⟨fun L current => ?_, fun _ _ stopped => Sys.step_stops bounded logged safe stopped⟩
  rcases current with current | current <;> rw [current] at safe
  · exact safe.2.1
  · obtain ⟨-, ev, -, sized, fits, -⟩ := safe
    omega

set_option maxRecDepth 10000 in
/-- `rmdir /t` of the only root: its `IN_DELETE_SELF` zaps the last root and the program
says "bye". -/
theorem only_root_removed_says_bye :
    ∃ s, runFrom ⟨false, 0, false⟩ emptyRootKernel ["/t".toList] [.rmdir "/t".toList, .primaryRead] =
        some (.ok s) ∧
      s.step ⟨false, 0, false⟩ .pass = some (.error (.exit exitSuccess "No more root paths left to monitor; bye!")) ∧
      ExpectedStop ⟨false, 0, false⟩ (.exit exitSuccess "No more root paths left to monitor; bye!") := by
  obtain ⟨s, ran, stopped⟩ : ∃ s, runFrom ⟨false, 0, false⟩ emptyRootKernel ["/t".toList]
      [.rmdir "/t".toList, .primaryRead] = some (.ok s) ∧
      s.step ⟨false, 0, false⟩ .pass = some (.error (.exit exitSuccess "No more root paths left to monitor; bye!")) :=
    ⟨_, rfl, rfl⟩
  exact ⟨s, ran, stopped, (reachable_stops_expected (by decide) (by decide) (reachable_of_runFrom ran)).2 _ _ stopped⟩

set_option maxRecDepth 10000 in
/- Under `-a` without `-l` the abort is not an expected stop: `/t/a` moved out of the tree
loses its slot, the `IN_CREATE` made in it then misses the cache, and
`createStopFileAndAbort` would dump the cache to the NULL `logfp`. -/
example : ∃ s, runFrom ⟨true, 0, false⟩ twoDirsKernel ["/t".toList]
      [.rename "/t/a".toList "/y".toList, .mkdir "/y/c".toList, .primaryRead, .pass] = some (.ok s) ∧
    s.step ⟨true, 0, false⟩ .pass = some (.error .nullLogfp) ∧ ¬ ExpectedStop ⟨true, 0, false⟩ .nullLogfp :=
  ⟨_, rfl, rfl, by simp [ExpectedStop]⟩

end InotifyDtree
