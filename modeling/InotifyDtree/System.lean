import InotifyDtree.ReadLoop

set_option autoImplicit false

/- The whole system: other processes running `mkdir`, `rmdir` and `rename` on the
trees, the kernel queueing records, and the program's event loop, interleaved in any
order. The engine's steps are the primary `read()`, one pass of the loop body (the
walks it starts run inside the pass), and the secondary `read()` or the `SIGALRM`
that interrupts it. -/
namespace InotifyDtree

/-- Where the program is: waiting in `select()`, at the head of the loop of
`processInotifyEvents`, or waiting for the secondary `read()`. -/
inductive Phase where
  | idle
  | scanning (L : ReadBuf)
  | deferred (L : ReadBuf)
deriving DecidableEq, Repr

structure Sys where
  world : World
  phase : Phase

inductive Action where
  | mkdir (p : Path)
  | rmdir (p : Path)
  | rename (src dst : Path)
  | primaryRead
  | pass
  | secondaryRead
  | alarm
deriving DecidableEq, Repr

def Sys.withKernel (s : Sys) (k : Kernel) : Sys := { s with world := { s.world with kernel := k } }

/-- One step: `none` when the action cannot happen now (a failing system call, or a
`read()` with nothing queued), otherwise how the program goes on or stops. -/
def Sys.step (cfg : Config) (s : Sys) : Action → Option (Except Stop Sys)
  | .mkdir p => (s.world.kernel.mkdir p).map fun k => .ok (s.withKernel k)
  | .rmdir p => (s.world.kernel.rmdir p).map fun k => .ok (s.withKernel k)
  | .rename src dst => (s.world.kernel.rename src dst).map fun k => .ok (s.withKernel k)
  | .primaryRead =>
    match s.phase with
    | .idle =>
      if s.world.kernel.inotify.queue.isEmpty then none
      else
        let (result, k) := s.world.kernel.read (primaryCount cfg)
        some ((primaryRead result).map fun L => ⟨{ s.world with kernel := k }, .scanning L⟩)
    | _ => none
  | .pass =>
    match s.phase with
    | .scanning L =>
      if (L.evp : Int) < L.numRead then
        some ((loopBody cfg s.world L).map fun
          | (w, .scan L) => ⟨w, .scanning L⟩
          | (w, .deferred L) => ⟨w, .deferred L⟩)
      else some (.ok { s with phase := .idle })
    | _ => none
  | .secondaryRead =>
    match s.phase with
    | .deferred L =>
      if s.world.kernel.inotify.queue.isEmpty then none
      else
        let (result, k) := s.world.kernel.read (secondaryCount L.numRead)
        some ((secondaryRead L result).map fun L => ⟨{ s.world with kernel := k }, .scanning L⟩)
    | _ => none
  | .alarm =>
    match s.phase with
    | .deferred L => some ((secondaryRead L .interrupted).map fun L => { s with phase := .scanning L })
    | _ => none

/-- `main` up to its event loop: save the roots, then build the cache. -/
def startup (k : Kernel) (argv : List Path) : Except Stop Sys := do
  if argv.isEmpty then throw (.exit exitFailure "Usage")
  let roots ← copyRootDirPaths k.fs argv
  let w ← reinitialize ⟨[], roots, k⟩
  pure ⟨w, .idle⟩

/-- The states the program can be in, from a start on the kernel `k` with arguments
`argv`. -/
inductive Reachable (cfg : Config) (k : Kernel) (argv : List Path) : Sys → Prop where
  | start {s : Sys} : startup k argv = .ok s → Reachable cfg k argv s
  | step {s s' : Sys} (a : Action) : Reachable cfg k argv s → s.step cfg a = some (.ok s') →
      Reachable cfg k argv s'

/-- Run a list of actions; `none` if one of them cannot happen. -/
def Sys.run (cfg : Config) : Sys → List Action → Option (Except Stop Sys)
  | s, [] => some (.ok s)
  | s, a :: rest =>
    match s.step cfg a with
    | some (.ok s') => s'.run cfg rest
    | other => other

/-- Start the program on `k` with `argv`, then run `actions`. -/
def runFrom (cfg : Config) (k : Kernel) (argv : List Path) (actions : List Action) :
    Option (Except Stop Sys) :=
  match startup k argv with
  | .ok s => s.run cfg actions
  | .error e => some (.error e)

theorem Reachable.run {cfg : Config} {k : Kernel} {argv : List Path} :
    ∀ {s s' : Sys} {actions : List Action}, Reachable cfg k argv s →
      s.run cfg actions = some (.ok s') → Reachable cfg k argv s'
  | _, _, [], reach, ran => by cases ran; exact reach
  | s, _, a :: rest, reach, ran => by
    rcases stepped : s.step cfg a with _ | _ | s1 <;> rw [Sys.run, stepped] at ran
    · cases ran
    · cases ran
    · exact Reachable.run (reach.step a stepped) ran

theorem reachable_of_runFrom {cfg : Config} {k : Kernel} {argv : List Path}
    {actions : List Action} {s : Sys} (ran : runFrom cfg k argv actions = some (.ok s)) :
    Reachable cfg k argv s := by
  unfold runFrom at ran
  split at ran
  · exact (Reachable.start ‹_›).run ran
  · cases ran

/-- Everything a step that does not stop the program can do: another process's call
changes only the kernel; the primary `read()` fills the buffer; a pass
of the loop is one call of `loopBody`, or leaves the loop once `evp` reaches `numRead`;
after a deferral the secondary `read()`, or the `SIGALRM` that interrupts it, restarts
the loop. -/
theorem Sys.step_cases {cfg : Config} {s s' : Sys} {a : Action} (stepped : s.step cfg a = some (.ok s')) :
    (∃ k, s' = s.withKernel k ∧ s.world.kernel.Changed k) ∨
    (∃ L, s.phase = .idle ∧ primaryRead (s.world.kernel.read (primaryCount cfg)).1 = .ok L ∧
      s' = ⟨{ s.world with kernel := (s.world.kernel.read (primaryCount cfg)).2 }, .scanning L⟩) ∨
    (∃ L w L', s.phase = .scanning L ∧ (L.evp : Int) < L.numRead ∧
      (loopBody cfg s.world L = .ok (w, .scan L') ∧ s' = ⟨w, .scanning L'⟩ ∨
        loopBody cfg s.world L = .ok (w, .deferred L') ∧ s' = ⟨w, .deferred L'⟩)) ∨
    (∃ L, s.phase = .scanning L ∧ ¬(L.evp : Int) < L.numRead ∧ s' = { s with phase := .idle }) ∨
    (∃ L L', s.phase = .deferred L ∧
      (secondaryRead L (s.world.kernel.read (secondaryCount L.numRead)).1 = .ok L' ∧
          s' = ⟨{ s.world with kernel := (s.world.kernel.read (secondaryCount L.numRead)).2 },
            .scanning L'⟩ ∨
        a = .alarm ∧ secondaryRead L .interrupted = .ok L' ∧ s' = { s with phase := .scanning L' })) := by
  cases a with
  | mkdir p =>
    obtain ⟨k, made, ⟨⟩⟩ := Option.map_eq_some'.mp stepped
    exact .inl ⟨k, rfl, .inl ⟨p, made⟩⟩
  | rmdir p =>
    obtain ⟨k, removed, ⟨⟩⟩ := Option.map_eq_some'.mp stepped
    exact .inl ⟨k, rfl, .inr (.inl ⟨p, removed⟩)⟩
  | rename src dst =>
    obtain ⟨k, renamed, ⟨⟩⟩ := Option.map_eq_some'.mp stepped
    exact .inl ⟨k, rfl, .inr (.inr ⟨src, dst, renamed⟩)⟩
  | primaryRead =>
    simp only [Sys.step] at stepped
    split at stepped
    · next idle =>
      split at stepped
      · cases stepped
      · obtain ⟨L, read, ⟨⟩⟩ := except_map_eq_ok (Option.some.inj stepped)
        exact .inr (.inl ⟨L, idle, read, rfl⟩)
    · cases stepped
  | pass =>
    simp only [Sys.step] at stepped
    split at stepped
    · next L scanning =>
      split at stepped
      · next ahead =>
        obtain ⟨⟨w, pass⟩, body, moved⟩ := except_map_eq_ok (Option.some.inj stepped)
        cases pass with
        | scan L' => cases moved; exact .inr (.inr (.inl ⟨L, w, L', scanning, ahead, .inl ⟨body, rfl⟩⟩))
        | deferred L' => cases moved; exact .inr (.inr (.inl ⟨L, w, L', scanning, ahead, .inr ⟨body, rfl⟩⟩))
      · next done =>
        cases stepped
        exact .inr (.inr (.inr (.inl ⟨L, scanning, done, rfl⟩)))
    · cases stepped
  | secondaryRead =>
    simp only [Sys.step] at stepped
    split at stepped
    · next L deferred =>
      split at stepped
      · cases stepped
      · obtain ⟨L', read, ⟨⟩⟩ := except_map_eq_ok (Option.some.inj stepped)
        exact .inr (.inr (.inr (.inr ⟨L, L', deferred, .inl ⟨read, rfl⟩⟩)))
    · cases stepped
  | alarm =>
    simp only [Sys.step] at stepped
    split at stepped
    · next L deferred =>
      obtain ⟨L', read, ⟨⟩⟩ := except_map_eq_ok (Option.some.inj stepped)
      exact .inr (.inr (.inr (.inr ⟨L, L', deferred, .inr ⟨rfl, read, rfl⟩⟩)))
    · cases stepped

/-- Every record queued so far has been read and handed to the program's handler. -/
def Sys.quiescent (s : Sys) : Bool := s.phase == .idle && s.world.kernel.inotify.queue.isEmpty

/-- The directories under the roots that have not been zapped, each once, under the
pathname at which the walks reach it first. -/
def monitoredDirs (w : World) : List (Path × Ino) :=
  firstPerIno [] ((w.roots.rootDirPaths.filterMap id).flatMap (nftw w.kernel.fs))

/-- A slot read through the kernel: its pathname and the inode its watch is on. -/
def slotDir (k : Kernel) (slot : Watch) : Option (Path × Ino) :=
  (k.inotify.watches.find? (fun watch => watch.wd == slot.wd)).map fun watch => (slot.path, watch.ino)

/-- The active slots match the monitored directories one to one, each slot holding the
directory's pathname and a watch on it. -/
def Consistent (w : World) : Prop :=
  ((activeSlots w.wlCache).map (slotDir w.kernel)).Perm ((monitoredDirs w).map some)

instance (w : World) : Decidable (Consistent w) := inferInstanceAs (Decidable (List.Perm _ _))

/-- The root `/t` of an otherwise empty tree. -/
def emptyRootKernel : Kernel :=
  ⟨⟨.mk 1 [("t".toList, .mk 2 [])], by decide⟩, 3, 0, ⟨0, [], 0, []⟩⟩

set_option maxRecDepth 10000 in
/-- `mkdir /t/a` and `rename /t/a /t/b` both run before the program reads: the walk
started by the `IN_CREATE` finds no `/t/a`, the rename pair rewrites no slot, and once
every record is handled the directory `/t/b` has neither a watch nor a slot. -/
theorem created_then_renamed_dir_unwatched :
    ∃ s, Reachable ⟨false, 0, false⟩ emptyRootKernel ["/t".toList] s ∧ s.quiescent = true ∧
      (s.world.kernel.fs.lookup "/t/b".toList).isSome ∧
      (∀ slot ∈ activeSlots s.world.wlCache, slot.path ≠ "/t/b".toList) ∧ ¬Consistent s.world := by
  obtain ⟨s, ran, holds⟩ : ∃ s, runFrom ⟨false, 0, false⟩ emptyRootKernel ["/t".toList]
      [.mkdir "/t/a".toList, .rename "/t/a".toList "/t/b".toList, .primaryRead, .pass, .pass,
        .pass] = some (.ok s) ∧
      (s.quiescent = true ∧ (s.world.kernel.fs.lookup "/t/b".toList).isSome ∧
        (∀ slot ∈ activeSlots s.world.wlCache, slot.path ≠ "/t/b".toList) ∧
        ¬Consistent s.world) :=
    ⟨_, rfl, by decide⟩
  exact ⟨s, reachable_of_runFrom ran, holds⟩

/-- No two active slots hold the same pathname. -/
def PathsUnique (w : World) : Prop := ((activeSlots w.wlCache).map Watch.path).Nodup

instance (w : World) : Decidable (PathsUnique w) := inferInstanceAs (Decidable (List.Nodup _))

/-- The root `/t` with the empty directories `/t/a` and `/t/b`. -/
def twoDirsKernel : Kernel :=
  ⟨⟨.mk 1 [("t".toList, .mk 2 [("a".toList, .mk 3 []), ("b".toList, .mk 4 [])])], by decide⟩,
    5, 0, ⟨0, [], 0, []⟩⟩

set_option maxRecDepth 10000 in
/-- `rename /t/a /t/b` replaces the empty `/t/b`: the handled rename pair rewrites the
slot of `/t/a` to `/t/b` while the slot of the replaced directory still holds `/t/b`,
until its `IN_DELETE_SELF` is handled. -/
theorem rename_onto_empty_dir_duplicates_path :
    ∃ s, Reachable ⟨false, 0, false⟩ twoDirsKernel ["/t".toList] s ∧ ¬PathsUnique s.world := by
  obtain ⟨s, ran, holds⟩ : ∃ s, runFrom ⟨false, 0, false⟩ twoDirsKernel ["/t".toList]
      [.rename "/t/a".toList "/t/b".toList, .primaryRead, .pass] = some (.ok s) ∧
      ¬PathsUnique s.world :=
    ⟨_, rfl, by decide⟩
  exact ⟨s, reachable_of_runFrom ran, holds⟩

/-- At the head of every iteration of the loop of `processInotifyEvents` the buffer
invariant holds. -/
def LoopHeadWhole (s : Sys) : Prop :=
  match s.phase with
  | .scanning L => BufferWhole L
  | _ => True

instance (s : Sys) : Decidable (LoopHeadWhole s) :=
  match s with
  | ⟨_, .scanning L⟩ => inferInstanceAs (Decidable (BufferWhole L))
  | ⟨_, .idle⟩ => inferInstanceAs (Decidable True)
  | ⟨_, .deferred _⟩ => inferInstanceAs (Decidable True)

/-- The root `/t` with one subdirectory `/t/a`. -/
def oneSubdirKernel : Kernel :=
  ⟨⟨.mk 1 [("t".toList, .mk 2 [("a".toList, .mk 3 [])])], by decide⟩, 4, 0, ⟨0, [], 0, []⟩⟩

set_option maxRecDepth 10000 in
/-- `rename /t/a /a` moves `/t/a` out of the tree. Its `IN_MOVED_FROM` is the only record
read, so it is deferred; the `SIGALRM` interrupts the secondary `read()`, and
`numRead += nr` adds the -1: the loop starts again with `numRead` one byte short of the
32-byte record in `buf`. -/
theorem interrupted_secondary_read_splits_record :
    ∃ s, Reachable ⟨false, 0, false⟩ oneSubdirKernel ["/t".toList] s ∧ ¬LoopHeadWhole s ∧
      ∃ L, s.phase = .scanning L ∧ L.numRead + 1 = byteSize L.buf := by
  obtain ⟨s, ran, holds⟩ : ∃ s, runFrom ⟨false, 0, false⟩ oneSubdirKernel ["/t".toList]
      [.rename "/t/a".toList "/a".toList, .primaryRead, .pass, .alarm] = some (.ok s) ∧
      (¬LoopHeadWhole s ∧ ∃ L, s.phase = .scanning L ∧ L.numRead + 1 = byteSize L.buf) :=
    ⟨_, rfl, by decide, _, rfl, by decide⟩
  exact ⟨s, reachable_of_runFrom ran, holds⟩

end InotifyDtree
