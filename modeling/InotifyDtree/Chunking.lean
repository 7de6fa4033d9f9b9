import InotifyDtree.Outcome
import InotifyDtree.ReadLoop

set_option autoImplicit false

/- Read-chunking. The records one inotify instance queues form a stream that the kernel
hands out in `read()`s of whole records. However the stream is split across the primary
and the secondary `read()`s, `main`'s loop over `processInotifyEvents` leaves the same
world as the stream handed to the handler as one buffer, provided each primary `read()`
can hold the next record. The proof follows the loop pass by pass: a pass either defers
an `IN_MOVED_FROM` without a change, or makes the same handler call as the one-buffer
run, whose view of the buffer (the next record, and `firstTry` when there is none) it
shares. -/
namespace InotifyDtree

/-! Byte offsets into a buffer of whole records. -/

theorem byteSize_pos {records : List InotifyEvent} (nonempty : records ≠ []) : 0 < byteSize records := by
  cases records with
  | nil => exact absurd rfl nonempty
  | cons ev rest =>
    have := size_pos ev
    rw [byteSize_cons]
    omega

theorem header_le_size (ev : InotifyEvent) : 16 ≤ ev.size := by
  simp only [InotifyEvent.size, eventHeaderSize]
  omega

theorem dropBytes_zero (records : List InotifyEvent) : dropBytes records 0 = some records := by
  cases records <;> rfl

theorem dropBytes_cons_size (ev : InotifyEvent) (rest : List InotifyEvent) (n : Nat) :
    dropBytes (ev :: rest) (ev.size + n) = dropBytes rest n := by
  have positive := size_pos ev
  obtain ⟨k, split⟩ : ∃ k, ev.size + n = k + 1 := ⟨ev.size + n - 1, by omega⟩
  rw [split, dropBytes, if_pos (by omega), show k + 1 - ev.size = n by omega]

theorem dropBytes_add : ∀ (buf : List InotifyEvent) (a b : Nat) {records : List InotifyEvent},
    dropBytes buf a = some records → dropBytes buf (a + b) = dropBytes records b
  | buf, 0, b, _, found => by
    rw [dropBytes_zero, Option.some.injEq] at found
    rw [← found, Nat.zero_add]
  | [], _ + 1, _, _, found => by cases found
  | ev :: rest, a + 1, b, _, found => by
    rw [dropBytes] at found
    split at found
    · rw [show a + 1 + b = ev.size + (a + 1 - ev.size + b) by omega, dropBytes_cons_size]
      exact dropBytes_add rest _ b found
    · cases found

theorem dropBytes_length_le : ∀ (records : List InotifyEvent) (n : Nat) {rest : List InotifyEvent},
    dropBytes records n = some rest → rest.length ≤ records.length
  | records, 0, _, found => by
    rw [dropBytes_zero, Option.some.injEq] at found
    rw [found]
  | [], _ + 1, _, found => by cases found
  | ev :: rest, n + 1, _, found => by
    rw [dropBytes] at found
    split at found
    · exact (dropBytes_length_le rest _ found).trans (Nat.le_succ _)
    · cases found

theorem byteSize_dropBytes : ∀ (records : List InotifyEvent) (n : Nat) {rest : List InotifyEvent},
    dropBytes records n = some rest → byteSize rest + n = byteSize records
  | records, 0, _, found => by
    rw [dropBytes_zero, Option.some.injEq] at found
    rw [found, Nat.add_zero]
  | [], _ + 1, _, found => by cases found
  | ev :: rest, n + 1, _, found => by
    rw [dropBytes] at found
    split at found
    · have := byteSize_dropBytes rest _ found
      rw [byteSize_cons]
      omega
    · cases found

theorem dropBytes_suffix : ∀ (records : List InotifyEvent) (n : Nat) {rest : List InotifyEvent},
    dropBytes records n = some rest → List.IsSuffix rest records
  | records, 0, _, found => by
    rw [dropBytes_zero, Option.some.injEq] at found
    subst found
    exact List.suffix_refl _
  | [], _ + 1, _, found => by cases found
  | ev :: rest, n + 1, _, found => by
    rw [dropBytes] at found
    split at found
    · exact (dropBytes_suffix rest _ found).trans (List.suffix_cons ev rest)
    · cases found

theorem dropBytes_append : ∀ front back : List InotifyEvent,
    dropBytes (front ++ back) (byteSize front) = some back
  | [], back => dropBytes_zero back
  | ev :: rest, back => by rw [List.cons_append, byteSize_cons, dropBytes_cons_size, dropBytes_append]

/-- The handler's lookahead over a buffer that holds `ev :: more` whole. -/
theorem lookahead_whole (ev : InotifyEvent) (more : List InotifyEvent) :
    lookahead (ev :: more) ev.size (byteSize (ev :: more)) = .ok more.head? := by
  cases more with
  | nil => simp [lookahead]
  | cons next rest =>
    have := size_pos next
    simp only [lookahead, byteSize_cons, List.head?_cons]
    rw [if_pos (by omega)]

theorem lookahead_of_le {ev : InotifyEvent} {more : List InotifyEvent} {bufSize : Int}
    (short : bufSize ≤ ev.size) : lookahead (ev :: more) ev.size bufSize = .ok none := by
  simp only [lookahead]
  rw [if_neg (by omega)]

/-! The stream and the reader. -/

/-- The records as the kernel writes them: a header and at most `NAME_MAX + 1` bytes of
name, so that `INOTIFY_READ_BUF_LEN` holds 100 of them. -/
def KernelSized (records : List InotifyEvent) : Prop :=
  ∀ ev ∈ records, ev.size ≤ eventHeaderSize + nameMax + 1

instance (records : List InotifyEvent) : Decidable (KernelSized records) :=
  inferInstanceAs (Decidable (∀ ev ∈ records, _))

/-- One `read()` of `count` bytes from a stream of which `rest s` is still queued: the
next whole records that fit, at least one; or, once the stream is drained, the
interruption by `SIGALRM`. -/
def ReadsStream {σ : Type} (rest : σ → List InotifyEvent) (s : σ) (count : Nat) :
    ReadResult × σ → Prop
  | (.records got, s') => got ≠ [] ∧ byteSize got ≤ count ∧ rest s = got ++ rest s'
  | (.interrupted, s') => rest s = [] ∧ rest s' = []
  | (.failed, _) => False

/-- A reader of a finite stream: a `read()` whose count holds the next record splits the
stream anywhere after that record, and the secondary `read()` is interrupted only when
nothing is left. -/
def StreamReader {σ : Type} (read : σ → Nat → ReadResult × σ) (rest : σ → List InotifyEvent) :
    Prop :=
  ∀ s count, (∀ ev ∈ (rest s).head?, ev.size ≤ count) → ReadsStream rest s count (read s count)

/-- `read()` on an instance whose queue holds `queue`, as `Kernel.read` answers it: the
longest run of whole records that fits, `EINVAL` when the first does not fit; and the
interruption by `SIGALRM` when nothing is queued. -/
def streamRead (queue : List InotifyEvent) (count : Nat) : ReadResult × List InotifyEvent :=
  match queue, fitPrefix count queue with
  | [], _ => (.interrupted, [])
  | _, [] => (.failed, queue)
  | _, got => (.records got, queue.drop got.length)

theorem streamRead_streamReader : StreamReader streamRead id := by
  intro queue count fits
  cases queue with
  | nil => exact ⟨rfl, rfl⟩
  | cons ev rest =>
    have first : ev.size ≤ count := fits ev rfl
    have got : fitPrefix count (ev :: rest) = ev :: fitPrefix (count - ev.size) rest := by
      rw [fitPrefix, if_pos first]
    simp only [streamRead, got]
    refine ⟨List.cons_ne_nil _ _, ?_, ?_⟩
    · rw [← got]
      exact byteSize_fitPrefix_le count _
    · rw [← got]
      exact (fitPrefix_append_drop count _).symm

/-! The stream handed over as one buffer, and `main`'s loop over one instance. -/

/-- The stream handed to the handler as one buffer with no further `read()`: each call
sees every record after its own, so no `IN_MOVED_FROM` is deferred, and a rebuild of the
cache drops the rest. -/
def wholeStream (cfg : Config) (w : World) : List InotifyEvent → Except Stop World
  | [] => .ok w
  | ev :: more =>
    processNextInotifyEvent cfg w (ev :: more) (byteSize (ev :: more)) false >>= fun (w', evLen) =>
      if evLen = inotifyReadBufLen then .ok w'
      else match _found : dropBytes more (evLen.toNat - ev.size) with
        | some rest => wholeStream cfg w' rest
        | none => .ok w'
termination_by records => records.length
decreasing_by exact Nat.lt_succ_of_le (dropBytes_length_le _ _ ‹_›)

theorem wholeStream_nil (cfg : Config) (w : World) : wholeStream cfg w [] = .ok w := by
  rw [wholeStream]

section Whole

variable {cfg : Config} {w w' : World} {ev : InotifyEvent} {more : List InotifyEvent}

theorem wholeStream_stopped {e : Stop}
    (handled : processNextInotifyEvent cfg w (ev :: more) (byteSize (ev :: more)) false = .error e) :
    wholeStream cfg w (ev :: more) = .error e := by
  rw [wholeStream, handled]
  rfl

theorem wholeStream_rebuilt
    (handled : processNextInotifyEvent cfg w (ev :: more) (byteSize (ev :: more)) false =
      .ok (w', inotifyReadBufLen)) :
    wholeStream cfg w (ev :: more) = .ok w' := by
  rw [wholeStream, handled, except_ok_bind]
  exact if_pos rfl

theorem wholeStream_advanced {evLen : Int} {rest : List InotifyEvent}
    (handled : processNextInotifyEvent cfg w (ev :: more) (byteSize (ev :: more)) false = .ok (w', evLen))
    (kept : evLen ≠ inotifyReadBufLen) (dropped : dropBytes more (evLen.toNat - ev.size) = some rest) :
    wholeStream cfg w (ev :: more) = wholeStream cfg w' rest := by
  rw [wholeStream, handled, except_ok_bind]
  dsimp only
  rw [if_neg kept]
  split
  · rename_i found
    rw [dropped, Option.some.injEq] at found
    rw [found]
  · rename_i found
    rw [dropped] at found
    cases found

end Whole

/-- `main`'s loop while the descriptor is the instance that queued the stream:
`processInotifyEvents` each time `select()` finds records queued. A rebuild of the cache
closes that instance, and the rest of its stream with it. -/
def drainStream {σ : Type} (read : σ → Nat → ReadResult × σ) (rest : σ → List InotifyEvent)
    (cfg : Config) : Nat → World → σ → Except Stop (Option World)
  | 0, _, _ => .ok none
  | fuel + 1, w, s =>
    if rest s = [] then .ok (some w)
    else do
      match ← processInotifyEvents read cfg fuel w s with
      | none => pure none
      | some (w', s') =>
        if w'.kernel.inotify.generation = w.kernel.inotify.generation then
          drainStream read rest cfg fuel w' s'
        else pure (some w')

/-! The loop against the stream. -/

/-- The loop's locals against the records still to be handed over: `buf` from `evp` holds
`records`, and `numRead - evp` counts their bytes, or one byte less after the secondary
`read()` that found the stream drained was interrupted. After a deferral the deferred
record has the record after it in the buffer, unless the stream is drained. -/
structure Tracks (L : ReadBuf) (records rest : List InotifyEvent) : Prop where
  located : dropBytes L.buf L.evp = some records
  bytes : L.numRead - L.evp = byteSize records ∨
    (L.numRead - L.evp + 1 = byteSize records ∧ records.length = 1 ∧ rest = [] ∧ L.firstTry = false)
  full : L.numRead ≤ inotifyReadBufLen
  retry : L.firstTry = false → 1 < records.length ∨ rest = []

section Tracks

variable {L : ReadBuf} {ev : InotifyEvent} {more rest : List InotifyEvent}

theorem Tracks.continues {records : List InotifyEvent} (tracks : Tracks L records rest) :
    (L.evp : Int) < L.numRead ↔ records ≠ [] := by
  rcases tracks.bytes with whole | ⟨cut, single, -⟩
  · cases records with
    | nil =>
      rw [byteSize_nil] at whole
      exact ⟨fun _ => by omega, fun nonempty => absurd rfl nonempty⟩
    | cons ev more =>
      have := byteSize_pos (List.cons_ne_nil ev more)
      simp only [ne_eq, reduceCtorEq, not_false_eq_true, iff_true]
      omega
  · obtain ⟨ev, rfl⟩ := List.length_eq_one.mp single
    have := header_le_size ev
    simp only [byteSize_cons, byteSize_nil] at cut
    simp only [ne_eq, reduceCtorEq, not_false_eq_true, iff_true]
    omega

/-- The loop's call sees the buffer as the one-buffer run's call sees the stream, unless
it is a first try at the last record of the buffer. -/
theorem Tracks.view (tracks : Tracks L (ev :: more) rest) :
    SameView ev more (more ++ rest) (L.numRead - L.evp) (byteSize (ev :: (more ++ rest))) L.firstTry false := by
  unfold SameView
  rw [lookahead_whole]
  rcases tracks.bytes with whole | ⟨cut, single, drained, retried⟩
  · rw [whole, lookahead_whole]
    cases first : L.firstTry with
    | false =>
      have follows : more ≠ [] ∨ rest = [] := by
        rcases tracks.retry first with longer | drained
        · exact .inl (List.ne_nil_of_length_pos (by simpa using longer))
        · exact .inr drained
      refine .inl ⟨?_, fun _ => rfl⟩
      rcases follows with nonempty | drained
      · obtain ⟨next, more', rfl⟩ := List.exists_cons_of_ne_nil nonempty
        rfl
      · rw [drained, List.append_nil]
    | true =>
      cases more with
      | nil => exact .inr ⟨rfl, rfl⟩
      | cons next more' => exact .inl ⟨rfl, fun none => by cases none⟩
  · have empty : more = [] := by simpa using single
    subst empty drained
    have := size_pos ev
    simp only [byteSize_cons, byteSize_nil] at cut
    rw [lookahead_of_le (by omega)]
    exact .inl ⟨rfl, fun _ => retried⟩

/-- After the loop consumed `ev` alone, or `ev` and the record after it. -/
theorem Tracks.advance {consumed : List InotifyEvent} (tracks : Tracks L (ev :: (consumed ++ more)) rest)
    (whole : L.numRead - L.evp = byteSize (ev :: (consumed ++ more))) :
    Tracks { L with evp := L.evp + (ev.size + byteSize consumed), firstTry := true } more rest where
  located := by rw [dropBytes_add _ _ _ tracks.located, dropBytes_cons_size, dropBytes_append]
  bytes := .inl (by simp only [byteSize_cons, byteSize_append] at whole; push_cast; omega)
  full := tracks.full
  retry := fun never => by cases never

end Tracks

/-- How a run of the loop ends against `whole`, the result of handing the stream over as
one buffer: with the same stop; or back at `select()` with a part of `queued` unread,
from where the unread records handed over as one buffer give `whole`, unless the
cache was rebuilt on a new instance, whose world is then `whole`. -/
def Resumes {σ : Type} (rest : σ → List InotifyEvent) (cfg : Config) (generation : Nat)
    (queued : List InotifyEvent) (whole : Except Stop World) : Except Stop (Option (World × σ)) → Prop
  | .error e => whole = .error e
  | .ok none => False
  | .ok (some (w', s')) => List.IsSuffix (rest s') queued ∧
    whole = if w'.kernel.inotify.generation = generation then wholeStream cfg w' (rest s') else .ok w'

section Loop

variable {σ : Type} {read : σ → Nat → ReadResult × σ} {rest : σ → List InotifyEvent} {cfg : Config}
  {fuel : Nat} {w : World} {L : ReadBuf} {s : σ}

theorem scanLoop_exit (done : ¬ (L.evp : Int) < L.numRead) :
    scanLoop read cfg (fuel + 1) w L s = .ok (some (w, s)) := by
  simp only [scanLoop, done, if_false]

variable {ev : InotifyEvent} {more : List InotifyEvent}
  (located : dropBytes L.buf L.evp = some (ev :: more)) (continues : (L.evp : Int) < L.numRead)
include located continues

theorem scanLoop_stopped {e : Stop}
    (handled : processNextInotifyEvent cfg w (ev :: more) (L.numRead - L.evp) L.firstTry = .error e) :
    scanLoop read cfg (fuel + 1) w L s = .error e := by
  simp only [scanLoop, continues, if_true, loopBody, located, handled, except_pure, except_ok_bind,
    except_error_bind]

theorem scanLoop_consumed {w' : World} {evLen : Int}
    (handled : processNextInotifyEvent cfg w (ev :: more) (L.numRead - L.evp) L.firstTry = .ok (w', evLen))
    (consumed : 0 < evLen) :
    scanLoop read cfg (fuel + 1) w L s =
      scanLoop read cfg fuel w' { L with evp := L.evp + evLen.toNat, firstTry := true } s := by
  simp only [scanLoop, continues, if_true, loopBody, located, handled, consumed, except_pure,
    except_ok_bind]

theorem scanLoop_deferred {w' : World} {evLen : Int}
    (handled : processNextInotifyEvent cfg w (ev :: more) (L.numRead - L.evp) L.firstTry = .ok (w', evLen))
    (deferred : ¬ 0 < evLen) :
    scanLoop read cfg (fuel + 1) w L s =
      secondaryRead ⟨ev :: more, L.numRead - L.evp, 0, false⟩
          (read s (secondaryCount (L.numRead - L.evp))).1 >>= fun L' =>
        scanLoop read cfg fuel w' L' (read s (secondaryCount (L.numRead - L.evp))).2 := by
  simp only [scanLoop, continues, if_true, loopBody, located, handled, deferred, if_false,
    except_pure, except_ok_bind]

end Loop

theorem Resumes.mono {σ : Type} {rest : σ → List InotifyEvent} {cfg : Config} {generation : Nat}
    {queued queued' : List InotifyEvent} {whole : Except Stop World} {r : Except Stop (Option (World × σ))}
    (longer : List.IsSuffix queued queued') (resumes : Resumes rest cfg generation queued whole r) :
    Resumes rest cfg generation queued' whole r := by
  rcases r with e | _ | ⟨w', s'⟩
  · exact resumes
  · exact resumes
  · exact ⟨resumes.1.trans longer, resumes.2⟩

/-- From every state that tracks the stream, `fuel` passes of the loop resume it. -/
def LoopResumes {σ : Type} (read : σ → Nat → ReadResult × σ) (rest : σ → List InotifyEvent)
    (cfg : Config) (fuel : Nat) : Prop :=
  ∀ (w : World) (L : ReadBuf) (s : σ) (records : List InotifyEvent),
    Tracks L records (rest s) → KernelSized (records ++ rest s) →
    2 * (records ++ rest s).length + (if L.firstTry then 1 else 0) < fuel →
    Resumes rest cfg w.kernel.inotify.generation (rest s)
      (wholeStream cfg w (records ++ rest s)) (scanLoop read cfg fuel w L s)

section Passes

variable {σ : Type} {read : σ → Nat → ReadResult × σ} {rest : σ → List InotifyEvent} {cfg : Config}
  {fuel : Nat} {w w' : World} {L : ReadBuf} {s : σ} {ev : InotifyEvent} {more : List InotifyEvent}

theorem secondaryCount_of_sized (sized : ev.size ≤ eventHeaderSize + nameMax + 1) :
    secondaryCount ev.size = inotifyReadBufLen - ev.size := by
  simp only [secondaryCount, inotifyReadBufLen, eventHeaderSize, nameMax] at sized ⊢
  omega

/-- A deferral: nothing changed, and the secondary `read()` moves records from the stream
into the buffer behind the deferred record, or finds the stream drained. -/
theorem deferral_resumes (reader : StreamReader read rest) (ih : LoopResumes read rest cfg fuel)
    (tracks : Tracks L (ev :: more) (rest s)) (sized : KernelSized ((ev :: more) ++ rest s))
    (enough : 2 * ((ev :: more) ++ rest s).length + (if L.firstTry then 1 else 0) < fuel + 1)
    (handled : processNextInotifyEvent cfg w (ev :: more) (L.numRead - L.evp) L.firstTry = .ok (w, -1))
    (first : L.firstTry = true) (none : lookahead (ev :: more) ev.size (L.numRead - L.evp) = .ok none) :
    Resumes rest cfg w.kernel.inotify.generation (rest s)
      (wholeStream cfg w ((ev :: more) ++ rest s)) (scanLoop read cfg (fuel + 1) w L s) := by
  have whole : L.numRead - L.evp = byteSize (ev :: more) := by
    rcases tracks.bytes with whole | ⟨-, -, -, retried⟩
    · exact whole
    · rw [first] at retried; cases retried
  have last : more = [] := by
    rw [whole, lookahead_whole, Except.ok.injEq, List.head?_eq_none_iff] at none
    exact none
  subst last
  have evSized := sized ev (List.mem_cons_self _ _)
  rw [scanLoop_deferred tracks.located (tracks.continues.mpr (List.cons_ne_nil _ _)) handled
    (by decide), whole, byteSize_cons, byteSize_nil, Nat.add_zero, secondaryCount_of_sized evSized]
  have fits : ∀ next ∈ (rest s).head?, next.size ≤ inotifyReadBufLen - ev.size := fun next member => by
    have := sized next (List.mem_cons_of_mem _ (List.mem_of_mem_head? member))
    simp only [inotifyReadBufLen, eventHeaderSize, nameMax] at evSized this ⊢
    omega
  have readStream := reader s _ fits
  generalize read s (inotifyReadBufLen - ev.size) = answer at readStream ⊢
  obtain ⟨result, s'⟩ := answer
  rw [first] at enough
  cases result with
  | records got =>
    obtain ⟨nonempty, bounded, split⟩ := readStream
    obtain ⟨g, gs, rfl⟩ := List.exists_cons_of_ne_nil nonempty
    have moved : (ev :: g :: gs) ++ rest s' = [ev] ++ rest s := by simp [split]
    have grew : List.IsSuffix (rest s') (rest s) := by
      rw [split]
      exact List.suffix_append _ _
    refine Resumes.mono grew ?_
    simp only [secondaryRead, except_ok_bind]
    rw [← moved]
    refine ih w ⟨[ev] ++ g :: gs, ev.size + byteSize (g :: gs), 0, false⟩ s' (ev :: g :: gs)
      ⟨dropBytes_zero _, .inl ?_, ?_, fun _ => .inl (by simp)⟩ (moved ▸ sized) ?_
    · simp only [byteSize_cons]
      omega
    · simp only [byteSize_cons, inotifyReadBufLen, eventHeaderSize, nameMax] at bounded evSized ⊢
      omega
    · rw [moved]
      simpa using enough
  | interrupted =>
    obtain ⟨drained, drained'⟩ := readStream
    simp only [secondaryRead, except_ok_bind]
    have same : [ev] ++ rest s' = [ev] ++ rest s := by rw [drained, drained']
    have := header_le_size ev
    rw [← same] at sized enough ⊢
    refine (ih w ⟨[ev], ev.size + -1, 0, false⟩ s' [ev]
      ⟨dropBytes_zero _, .inr ⟨?_, rfl, drained', rfl⟩, ?_, fun _ => .inr drained'⟩
      sized ?_).mono (by simp only [drained, drained', List.suffix_refl])
    · simp only [byteSize_cons, byteSize_nil]
      omega
    · simp only [inotifyReadBufLen, eventHeaderSize, nameMax] at evSized ⊢
      omega
    · simpa using enough
  | failed => exact readStream.elim

theorem byteSize_le_of_sized : ∀ {records : List InotifyEvent}, KernelSized records →
    byteSize records ≤ records.length * (eventHeaderSize + nameMax + 1)
  | [], _ => Nat.zero_le _
  | ev :: rest, sized => by
    have := sized ev (List.mem_cons_self _ _)
    have := byteSize_le_of_sized fun other member => sized other (List.mem_cons_of_mem _ member)
    rw [byteSize_cons, List.length_cons, Nat.succ_mul]
    omega

/-- The loop consumed `ev`, or `ev` and the record after it, with the call the one-buffer
run makes. -/
theorem consumed_resumes (ih : LoopResumes read rest cfg fuel) (consumed : List InotifyEvent) {evLen : Int}
    (tracks : Tracks L (ev :: (consumed ++ more)) (rest s))
    (sized : KernelSized ((ev :: (consumed ++ more)) ++ rest s))
    (enough : 2 * ((ev :: (consumed ++ more)) ++ rest s).length + (if L.firstTry then 1 else 0) < fuel + 1)
    (atMostPair : consumed.length ≤ 1) (bytes : evLen = ((ev.size + byteSize consumed : Nat) : Int))
    (handled : processNextInotifyEvent cfg w (ev :: (consumed ++ more)) (L.numRead - L.evp) L.firstTry =
      .ok (w', evLen))
    (same : processNextInotifyEvent cfg w (ev :: (consumed ++ (more ++ rest s)))
      (byteSize (ev :: (consumed ++ (more ++ rest s)))) false = .ok (w', evLen))
    (kept : w'.kernel.inotify.generation = w.kernel.inotify.generation) :
    Resumes rest cfg w.kernel.inotify.generation (rest s)
      (wholeStream cfg w ((ev :: (consumed ++ more)) ++ rest s)) (scanLoop read cfg (fuel + 1) w L s) := by
  have evSized := sized ev (List.mem_cons_self _ _)
  have consumedSized : KernelSized consumed := fun other member => sized other (by simp [member])
  have pairSized := byteSize_le_of_sized consumedSized
  have notRebuilt : evLen ≠ inotifyReadBufLen := by
    rw [bytes]
    simp only [inotifyReadBufLen, eventHeaderSize, nameMax] at evSized pairSized ⊢
    have := Nat.mul_le_mul_right 272 atMostPair
    omega
  have advance : evLen.toNat = ev.size + byteSize consumed := by omega
  rw [List.cons_append, List.append_assoc, wholeStream_advanced same notRebuilt
    (by rw [advance, Nat.add_sub_cancel_left]; exact dropBytes_append _ _),
    scanLoop_consumed tracks.located (tracks.continues.mpr (List.cons_ne_nil _ _)) handled
      (by have := size_pos ev; omega), advance]
  rcases tracks.bytes with whole | ⟨cut, single, drained, -⟩
  · have restSized : KernelSized (more ++ rest s) := fun other member => sized other (by
      simp only [List.cons_append, List.mem_cons, List.mem_append] at member ⊢
      tauto)
    have resumed := ih w' _ s more (tracks.advance whole) restSized (by
      simp only [List.length_append, List.length_cons, if_true] at enough ⊢
      split at enough <;> omega)
    rwa [kept] at resumed
  · have : consumed = [] ∧ more = [] := by simpa using single
    obtain ⟨rfl, rfl⟩ := this
    obtain ⟨fuel, rfl⟩ : ∃ f, fuel = f + 1 := ⟨fuel - 1, by simp at enough; omega⟩
    simp only [List.nil_append, byteSize_cons, byteSize_nil] at cut
    rw [scanLoop_exit (by simp only [byteSize_nil]; omega)]
    exact ⟨List.suffix_refl _, by rw [if_pos kept, drained]; rfl⟩

/-- The call rebuilt the cache: both runs stop with the rebuilt world, the loop because
`evp` jumps past the buffer. -/
theorem rebuilt_resumes (tracks : Tracks L (ev :: more) (rest s))
    (enough : 2 * ((ev :: more) ++ rest s).length + (if L.firstTry then 1 else 0) < fuel + 1)
    (handled : processNextInotifyEvent cfg w (ev :: more) (L.numRead - L.evp) L.firstTry =
      .ok (w', inotifyReadBufLen))
    (same : processNextInotifyEvent cfg w (ev :: (more ++ rest s)) (byteSize (ev :: (more ++ rest s))) false =
      .ok (w', inotifyReadBufLen))
    (renewed : w'.kernel.inotify.generation = w.kernel.inotify.generation + 1) :
    Resumes rest cfg w.kernel.inotify.generation (rest s)
      (wholeStream cfg w ((ev :: more) ++ rest s)) (scanLoop read cfg (fuel + 1) w L s) := by
  obtain ⟨fuel, rfl⟩ : ∃ f, fuel = f + 1 := ⟨fuel - 1, by simp at enough; omega⟩
  have full := tracks.full
  rw [scanLoop_consumed tracks.located (tracks.continues.mpr (List.cons_ne_nil _ _)) handled (by decide),
    scanLoop_exit (by simp only [inotifyReadBufLen] at full ⊢; omega)]
  exact ⟨List.suffix_refl _, by rw [if_neg (by omega), List.cons_append, wholeStream_rebuilt same]⟩

end Passes

/-- Every pass of the loop resumes the stream: by induction on the passes left, each
either defers without a change or makes the one-buffer run's call. -/
theorem loopResumes {σ : Type} {read : σ → Nat → ReadResult × σ} {rest : σ → List InotifyEvent}
    (cfg : Config) (reader : StreamReader read rest) : ∀ fuel, LoopResumes read rest cfg fuel
  | 0 => fun _ _ _ _ _ _ enough => absurd enough (Nat.not_lt_zero _)
  | fuel + 1 => fun w L s records tracks sized enough => by
    have ih := loopResumes cfg reader fuel
    cases records with
    | nil =>
      rw [scanLoop_exit (fun continues => tracks.continues.mp continues rfl)]
      exact ⟨List.suffix_refl _, by rw [if_pos rfl, List.nil_append]⟩
    | cons ev more =>
      have view := tracks.view
      rcases handled : processNextInotifyEvent cfg w (ev :: more) (L.numRead - L.evp) L.firstTry with
        e | ⟨w', evLen⟩
      · have same := (processNextInotifyEvent_deferred_or_same view).resolve_left
          (by rw [handled]; exact fun deferred => by cases deferred)
        rw [scanLoop_stopped tracks.located (tracks.continues.mpr (List.cons_ne_nil _ _)) handled]
        exact wholeStream_stopped (same.symm.trans handled)
      · have same (positive : 0 < evLen) :=
          ((processNextInotifyEvent_deferred_or_same view).resolve_left fun deferred => by
            rw [handled, Except.ok.injEq, Prod.mk.injEq] at deferred
            omega).symm.trans handled
        rcases processNextInotifyEvent_consumes cfg w ev more _ _ _ handled with
          ⟨rfl, rfl, first, none⟩ | ⟨kept, single | ⟨next, more', rfl, pair⟩⟩ | ⟨renewed, rfl⟩
        · exact deferral_resumes reader ih tracks sized enough handled first none
        · have positive := size_pos ev
          exact consumed_resumes ih [] tracks sized enough (Nat.zero_le _)
            (by simpa using single) handled (same (by omega)) kept
        · have positive := size_pos ev
          exact consumed_resumes ih [next] tracks sized enough (le_refl _)
            (by simp [pair]) handled (same (by omega)) kept
        · exact rebuilt_resumes tracks enough handled (same (by decide)) renewed

/-- `main`'s loop over one instance's stream: each `processInotifyEvents` reads at least
one record and resumes the stream where its primary `read()` found it. -/
theorem drainStream_eq_wholeStream {σ : Type} {read : σ → Nat → ReadResult × σ}
    {rest : σ → List InotifyEvent} {cfg : Config} (reader : StreamReader read rest)
    (bounded : primaryCount cfg ≤ inotifyReadBufLen) :
    ∀ (fuel : Nat) (w : World) (s : σ), KernelSized (rest s) → (∀ ev ∈ rest s, ev.size ≤ primaryCount cfg) →
      2 * (rest s).length + 3 ≤ fuel →
      drainStream read rest cfg fuel w s = (wholeStream cfg w (rest s)).map some
  | 0, _, _, _, _, enough => absurd enough (by omega)
  | fuel + 1, w, s, sized, fits, enough => by
    by_cases drained : rest s = []
    · rw [drainStream, if_pos drained, drained, wholeStream_nil]
      rfl
    have readStream := reader s (primaryCount cfg) fun ev member => fits ev (List.mem_of_mem_head? member)
    rcases primary : read s (primaryCount cfg) with ⟨result, s'⟩
    rw [primary] at readStream
    cases result with
    | interrupted => exact absurd readStream.1 drained
    | failed => exact readStream.elim
    | records got =>
      obtain ⟨nonempty, fitsCount, split⟩ := readStream
      obtain ⟨g, gs, rfl⟩ := List.exists_cons_of_ne_nil nonempty
      have resumed := loopResumes cfg reader fuel w ⟨g :: gs, byteSize (g :: gs), 0, true⟩ s' (g :: gs)
        ⟨dropBytes_zero _, .inl (by simp), by simp only; omega, fun never => by cases never⟩
        (split ▸ sized) (by rw [← split]; simp only [if_true]; omega)
      rw [← split] at resumed
      rw [drainStream, if_neg drained]
      simp only [processInotifyEvents, primary, primaryRead_of_fits (List.cons_ne_nil g gs) (by omega),
        except_ok_bind]
      revert resumed
      rcases scanLoop read cfg fuel w ⟨g :: gs, byteSize (g :: gs), 0, true⟩ s' with e | _ | ⟨w', s''⟩
      · intro resumed
        rw [resumed]
        rfl
      · exact False.elim
      · rintro ⟨suffix, whole⟩
        simp only [except_ok_bind]
        split
        · rename_i kept
          have shorter := suffix.length_le
          have longer : (rest s).length = gs.length + 1 + (rest s').length := by
            rw [split, List.length_append, List.length_cons]
          rw [whole, if_pos kept]
          exact drainStream_eq_wholeStream reader bounded fuel w' s''
            (fun ev member => sized ev (split ▸ List.mem_append_right _ (suffix.subset member)))
            (fun ev member => fits ev (split ▸ List.mem_append_right _ (suffix.subset member))) (by omega)
        · rename_i renewed
          rw [whole, if_neg renewed]
          rfl

/-- Read-chunking invariance: however the kernel splits an instance's stream across the
primary and the secondary `read()`s, with `-b` at most `INOTIFY_READ_BUF_LEN` and large
enough for every record, `main`'s loop leaves the world that handing the stream over as
one buffer leaves, and stops the same way when that stops; a deferred `IN_MOVED_FROM`
changes nothing. -/
theorem chunking_invariance {σ : Type} (read : σ → Nat → ReadResult × σ)
    (rest : σ → List InotifyEvent) (reader : StreamReader read rest) (cfg : Config) (w : World) (s : σ)
    (bounded : primaryCount cfg ≤ inotifyReadBufLen) (sized : KernelSized (rest s))
    (fits : ∀ ev ∈ rest s, ev.size ≤ primaryCount cfg) :
    (∀ fuel, 2 * (rest s).length + 3 ≤ fuel →
      drainStream read rest cfg fuel w s = (wholeStream cfg w (rest s)).map some) ∧
    ∀ (buf : List InotifyEvent) (bufSize : Int) (firstTry : Bool) (w' : World),
      processNextInotifyEvent cfg w buf bufSize firstTry = .ok (w', -1) → w' = w :=
  ⟨fun fuel enough => drainStream_eq_wholeStream reader bounded fuel w s sized fits enough,
    fun _ _ _ _ deferred => (processNextInotifyEvent_deferred deferred).1⟩

/-- `/t/a` renamed to `/t/b`, both watched, with `-b 32`. -/
def renamedWorld : World :=
  ⟨[⟨1, "/t".toList⟩, ⟨2, "/t/a".toList⟩], ⟨[some "/t".toList], [2], 0⟩,
    ⟨⟨.mk 1 [("t".toList, .mk 2 [("b".toList, .mk 3 [])])], by decide⟩, 4, 0,
      ⟨1, [⟨1, 2, inCreate⟩, ⟨2, 3, inCreate⟩], 2, []⟩⟩⟩

def renameConfig : Config := ⟨false, 32, false⟩

/-- The `IN_MOVED_FROM` and `IN_MOVED_TO` records of the rename, 32 bytes each. -/
def renameStream : List InotifyEvent :=
  [⟨1, inMovedFrom ||| inIsdir, 7, 16, "a".toList⟩, ⟨1, inMovedTo ||| inIsdir, 7, 16, "b".toList⟩]

/-- The pair split across two `read()`s: the primary one returns only the
`IN_MOVED_FROM`, which the handler defers, and the run renames the cached pathname as the
stream handed over as one buffer does. -/
theorem chunking_invariance_on_split_rename :
    ((∀ fuel, 2 * renameStream.length + 3 ≤ fuel →
      drainStream streamRead id renameConfig fuel renamedWorld renameStream =
        (wholeStream renameConfig renamedWorld renameStream).map some) ∧
      ∀ (buf : List InotifyEvent) (bufSize : Int) (firstTry : Bool) (w' : World),
        processNextInotifyEvent renameConfig renamedWorld buf bufSize firstTry = .ok (w', -1) →
          w' = renamedWorld) ∧
    streamRead renameStream (primaryCount renameConfig) = (.records (renameStream.take 1), renameStream.drop 1) ∧
    processNextInotifyEvent renameConfig renamedWorld (renameStream.take 1) 32 true = .ok (renamedWorld, -1) ∧
    (wholeStream renameConfig renamedWorld renameStream).map World.wlCache =
      .ok [⟨1, "/t".toList⟩, ⟨2, "/t/b".toList⟩] :=
  ⟨chunking_invariance streamRead id streamRead_streamReader renameConfig renamedWorld renameStream
    (by decide) (by decide) (by decide), rfl, rfl, by
    have renamed : processNextInotifyEvent renameConfig renamedWorld renameStream (byteSize renameStream) false =
        .ok ({ renamedWorld with wlCache := [⟨1, "/t".toList⟩, ⟨2, "/t/b".toList⟩] }, 64) := rfl
    rw [renameStream] at renamed ⊢
    rw [wholeStream_advanced renamed (by decide) rfl, wholeStream_nil]
    rfl⟩

/-- With `-b 20` a 32-byte record does not fit: `read()` fails with `EINVAL` and the
program exits, where the stream handed over as one buffer is handled. -/
theorem small_buffer_read_fails :
    drainStream streamRead id ⟨false, 20, false⟩ 3 sampleWorld [sampleCreate] =
        .error (.exit exitFailure "read") ∧
      wholeStream ⟨false, 20, false⟩ sampleWorld [sampleCreate] = .ok sampleWorld := by
  have handled : processNextInotifyEvent ⟨false, 20, false⟩ sampleWorld [sampleCreate]
      (byteSize [sampleCreate]) false = .ok (sampleWorld, 32) := rfl
  refine ⟨rfl, ?_⟩
  rw [wholeStream_advanced handled (by decide) (dropBytes_zero []), wholeStream_nil]

/-! `-b` beyond the buffer. `cnt` is `readBufferSize` whenever that is positive, so a
primary `read()` may return more than the `INOTIFY_READ_BUF_LEN` bytes of `buf`, writing
past its end. If the process survives that, a rebuild moves `evp` only
`INOTIFY_READ_BUF_LEN` bytes on, and the records after it are handed to the handler
against the rebuilt cache. -/

/-- `-b 30000`. -/
def overrunConfig : Config := ⟨false, 30000, false⟩

/-- A record on a watch descriptor that has no cache slot. -/
def strayCreate : InotifyEvent := ⟨5, inCreate ||| inIsdir, 0, 256, List.replicate 255 'a'⟩

/-- The `IN_DELETE_SELF` of the root's watch, queued before the root was removed and made
again. -/
def staleRootDeleted : InotifyEvent := ⟨1, inDeleteSelf, 0, 0, []⟩

/-- 100 records of 272 bytes, then the stale record at byte 27200. -/
def overrunStream : List InotifyEvent := List.replicate 100 strayCreate ++ [staleRootDeleted]

set_option maxRecDepth 20000 in
/-- With `-b 30000` one `read()` returns all 27216 bytes, 16 of them past the end of `buf`:
undefined behaviour. The loop, run on what that read left in and past `buf`, goes on
as follows. The first record misses the cache and the cache is rebuilt, which gives the
root `/t` descriptor 1 on the new instance. The stale record after byte 27200 is then
handed to the handler: it zaps the only root, which still exists, and the program exits. -/
theorem stale_record_after_rebuild_exits :
    inotifyReadBufLen < primaryCount overrunConfig ∧
      byteSize overrunStream ≤ primaryCount overrunConfig ∧
      nftw sampleWorld.kernel.fs "/t".toList = [("/t".toList, 2)] ∧
      processInotifyEvents streamRead overrunConfig 2 sampleWorld overrunStream = .error .bufferOverrun ∧
      scanLoop streamRead overrunConfig 2 sampleWorld ⟨overrunStream, byteSize overrunStream, 0, true⟩ [] =
        .error (.exit exitSuccess "No more root paths left to monitor; bye!") :=
  ⟨by decide, by decide, rfl, rfl, rfl⟩

end InotifyDtree
