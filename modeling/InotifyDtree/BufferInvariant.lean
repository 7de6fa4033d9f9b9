import InotifyDtree.Chunking
import InotifyDtree.System

set_option autoImplicit false

/- The buffer of `processInotifyEvents` over whole runs. The primary `read()` asks for at
most `INOTIFY_READ_BUF_LEN` bytes when `-b` is at most that, a pass advances `evp` by the
bytes the handler consumed, and after a deferral the unread records move to `buf[0]` and
the secondary `read()` asks for the space left behind them. So, as long as no `SIGALRM`
interrupts the secondary `read()`, every iteration of the loop starts with the buffer
whole. -/
namespace InotifyDtree

/-- The buffer between steps: whole at the head of an iteration, and after a deferral
exactly the unread records, moved to `buf[0]`, within `INOTIFY_READ_BUF_LEN`. -/
def PhaseWhole : Phase → Prop
  | .idle => True
  | .scanning L => BufferWhole L
  | .deferred L => L.numRead = byteSize L.buf ∧ L.numRead ≤ inotifyReadBufLen

theorem PhaseWhole.loopHead {s : Sys} (inv : PhaseWhole s.phase) : LoopHeadWhole s := by
  unfold LoopHeadWhole
  split
  · next scanning =>
    rw [scanning] at inv
    exact inv
  · trivial

theorem dropBytes_consumed {buf more : List InotifyEvent} {evp : Nat} {ev : InotifyEvent}
    (located : dropBytes buf evp = some (ev :: more)) : dropBytes buf (evp + ev.size) = some more := by
  rw [dropBytes_add _ _ _ located, show ev.size = ev.size + 0 from rfl, dropBytes_cons_size,
    dropBytes_zero]

theorem primaryRead_whole {k : Kernel} {count : Nat} {L : ReadBuf} (bounded : count ≤ inotifyReadBufLen)
    (read : primaryRead (k.read count).1 = .ok L) : BufferWhole L := by
  rcases Kernel.read_cases k count with failed | ⟨got, records, nonempty, fits, -⟩
  · rw [failed] at read
    cases read
  · rw [records, primaryRead_of_fits nonempty (by omega)] at read
    cases read
    refine ⟨?_, ?_, rfl, fun _ => by simp [dropBytes_zero]⟩ <;> dsimp only <;> omega

/-- The secondary `read()` asks for `INOTIFY_READ_BUF_LEN - numRead` bytes, so what it
appends fits behind the deferred records. -/
theorem secondaryRead_whole {k : Kernel} {L L' : ReadBuf} (deferred : PhaseWhole (.deferred L))
    (read : secondaryRead L (k.read (secondaryCount L.numRead)).1 = .ok L') : BufferWhole L' := by
  obtain ⟨whole, within⟩ := deferred
  rcases Kernel.read_cases k (secondaryCount L.numRead) with failed | ⟨got, records, nonempty, fits, -⟩
  · rw [failed] at read
    cases read
  · rw [records] at read
    have count := secondaryCount_of_le (by omega) within
    rcases got with _ | ⟨ev, rest⟩
    · exact absurd rfl nonempty
    · cases read
      refine ⟨?_, ?_, by simp [whole, byteSize_append], fun _ => by simp [dropBytes_zero]⟩ <;>
        dsimp only <;> omega

/-- A pass advances `evp` past the record or the pair the handler consumed, or past the
end of the buffer after a rebuild; a deferral moves exactly the unread records to
`buf[0]`. -/
theorem loopBody_whole {cfg : Config} {w w' : World} {L : ReadBuf} {pass : Pass} (whole : BufferWhole L)
    (body : loopBody cfg w L = .ok (w', pass)) :
    match pass with
    | .scan L' => BufferWhole L'
    | .deferred L' => PhaseWhole (.deferred L') := by
  obtain ⟨nonneg, bounded, sized, -⟩ := whole
  obtain ⟨records, evLen, located, handled, next⟩ := loopBody_ok body
  have unread := byteSize_dropBytes _ _ located
  cases records with
  | nil => simp [processNextInotifyEvent, headRecord] at handled
  | cons ev more =>
    have := size_pos ev
    rcases next with ⟨consumed, rfl⟩ | ⟨-, rfl⟩
    · refine ⟨nonneg, bounded, sized, fun within => ?_⟩
      dsimp only at within ⊢
      rcases processNextInotifyEvent_consumes cfg w ev more _ _ _ handled with
        ⟨-, rfl, -, -⟩ | ⟨-, rfl | ⟨next, rest, rfl, rfl⟩⟩ | ⟨-, rfl⟩
      · omega
      · simp [dropBytes_consumed located]
      · have toNat : ((ev.size : Int) + next.size).toNat = ev.size + next.size := by omega
        simp [toNat, ← Nat.add_assoc, dropBytes_consumed (dropBytes_consumed located)]
      · simp only [Int.toNat_ofNat] at within
        omega
    · refine ⟨?_, ?_⟩ <;> dsimp only <;> omega

/-- One step that is not a `SIGALRM` keeps the buffer whole. -/
theorem PhaseWhole.step {cfg : Config} {s s' : Sys} {a : Action} (inv : PhaseWhole s.phase)
    (bounded : primaryCount cfg ≤ inotifyReadBufLen) (uninterrupted : a ≠ .alarm)
    (stepped : s.step cfg a = some (.ok s')) : PhaseWhole s'.phase := by
  rcases Sys.step_cases stepped with ⟨k, rfl, -⟩ | ⟨L, -, read, rfl⟩ |
    ⟨L, w, L', scanning, -, ⟨body, rfl⟩ | ⟨body, rfl⟩⟩ | ⟨L, -, -, rfl⟩ |
    ⟨L, L', deferred, ⟨read, rfl⟩ | ⟨alarm, -, -⟩⟩
  · exact inv
  · exact primaryRead_whole bounded read
  · rw [scanning] at inv
    exact loopBody_whole inv body
  · rw [scanning] at inv
    exact loopBody_whole inv body
  · trivial
  · rw [deferred] at inv
    exact secondaryRead_whole inv read
  · exact absurd alarm uninterrupted

theorem PhaseWhole.run {cfg : Config} (bounded : primaryCount cfg ≤ inotifyReadBufLen) :
    ∀ {s s' : Sys} {actions : List Action}, PhaseWhole s.phase → Action.alarm ∉ actions →
      s.run cfg actions = some (.ok s') → PhaseWhole s'.phase
  | _, _, [], inv, _, ran => by cases ran; exact inv
  | s, _, a :: rest, inv, uninterrupted, ran => by
    have notAlarm : a ≠ .alarm := by
      rintro rfl
      exact uninterrupted (List.mem_cons_self _ _)
    rcases stepped : s.step cfg a with _ | _ | s1 <;> rw [Sys.run, stepped] at ran
    · cases ran
    · cases ran
    · exact PhaseWhole.run bounded (inv.step bounded notAlarm stepped)
        (fun later => uninterrupted (List.mem_cons_of_mem _ later)) ran

theorem startup_phaseWhole (k : Kernel) (argv : List Path) :
    Yields (fun s : Sys => PhaseWhole s.phase) (startup k argv) := by
  unfold startup
  split
  · intro _ stopped
    cases stopped
  · exact Yields.bind fun _ _ => Yields.bind fun _ _ => Yields.bind fun _ _ => Yields.of_ok trivial

/-- The buffer over whole runs: when no `SIGALRM` interrupts the secondary `read()` and
`-b` is at most `INOTIFY_READ_BUF_LEN`, every iteration of the loop of
`processInotifyEvents` starts with `numRead` within the buffer, `buf[0, numRead)` exactly
the records laid out whole, and `evp` at the start of a record. -/
theorem buffer_whole_when_uninterrupted (cfg : Config) (k : Kernel) (argv : List Path)
    (actions : List Action) (s : Sys) (bounded : primaryCount cfg ≤ inotifyReadBufLen)
    (uninterrupted : Action.alarm ∉ actions) (ran : runFrom cfg k argv actions = some (.ok s)) :
    LoopHeadWhole s := by
  unfold runFrom at ran
  split at ran
  · next started =>
    exact (PhaseWhole.run bounded (startup_phaseWhole k argv _ started) uninterrupted ran).loopHead
  · cases ran

set_option maxRecDepth 10000 in
/-- `/t/a` moves out and its `IN_MOVED_FROM`, the only record read, is deferred; `mkdir
/t/c` runs before the secondary `read()`, and the loop restarts on both records, whole. -/
theorem buffer_whole_after_secondary_read :
    ∃ s, runFrom ⟨false, 0, false⟩ oneSubdirKernel ["/t".toList]
        [.rename "/t/a".toList "/a".toList, .primaryRead, .pass, .mkdir "/t/c".toList,
          .secondaryRead] = some (.ok s) ∧ LoopHeadWhole s := by
  obtain ⟨s, ran⟩ : ∃ s, runFrom ⟨false, 0, false⟩ oneSubdirKernel ["/t".toList]
      [.rename "/t/a".toList "/a".toList, .primaryRead, .pass, .mkdir "/t/c".toList,
        .secondaryRead] = some (.ok s) := ⟨_, rfl⟩
  exact ⟨s, ran, buffer_whole_when_uninterrupted _ _ _ _ s (by decide) (by decide) ran⟩

end InotifyDtree
