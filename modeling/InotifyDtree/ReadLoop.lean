import InotifyDtree.Handler

set_option autoImplicit false

/- `processInotifyEvents`: one `read()` into `buf`, then the loop that hands the records
to `processNextInotifyEvent`, with the secondary `read()` after a deferred
`IN_MOVED_FROM`. The buffer is kept as the records laid out from `buf[0]`. The
outcomes of `read()` come from `read`, which answers a request for `count` bytes; the
loop is run for at most `fuel` passes. -/
namespace InotifyDtree

/-- The locals of `processInotifyEvents` at the head of its loop; `evp` is the offset
of `evp` from `buf`. -/
structure ReadBuf where
  buf : List InotifyEvent
  numRead : Int
  evp : Nat
  firstTry : Bool
deriving DecidableEq, Repr

/-- The records from byte offset `n` on, when a record starts there. -/
def dropBytes : List InotifyEvent → Nat → Option (List InotifyEvent)
  | records, 0 => some records
  | [], _ + 1 => none
  | ev :: rest, n + 1 => if ev.size ≤ n + 1 then dropBytes rest (n + 1 - ev.size) else none

/-- Where one pass of the loop body leaves the loop: at its head, or after a deferral,
waiting for the secondary `read()` (the unread bytes already moved to `buf[0]`). -/
inductive Pass where
  | scan (next : ReadBuf)
  | deferred (next : ReadBuf)
deriving DecidableEq, Repr

def loopBody (cfg : Config) (w : World) (L : ReadBuf) : Except Stop (World × Pass) := do
  let records ← match dropBytes L.buf L.evp with
    | some records => pure records
    | none => throw .badRecord
  let (w, evLen) ← processNextInotifyEvent cfg w records (L.numRead - L.evp) L.firstTry
  if 0 < evLen then pure (w, .scan { L with evp := L.evp + evLen.toNat, firstTry := true })
  else pure (w, .deferred ⟨records, L.numRead - L.evp, 0, false⟩)

theorem loopBody_ok {cfg : Config} {w w' : World} {L : ReadBuf} {pass : Pass}
    (body : loopBody cfg w L = .ok (w', pass)) :
    ∃ records evLen, dropBytes L.buf L.evp = some records ∧
      processNextInotifyEvent cfg w records (L.numRead - L.evp) L.firstTry = .ok (w', evLen) ∧
      (0 < evLen ∧ pass = .scan { L with evp := L.evp + evLen.toNat, firstTry := true } ∨
        ¬0 < evLen ∧ pass = .deferred ⟨records, L.numRead - L.evp, 0, false⟩) := by
  unfold loopBody at body
  dsimp only at body
  split at body
  · next records located =>
    simp only [except_pure, except_ok_bind] at body
    cases handled : processNextInotifyEvent cfg w records (L.numRead - L.evp) L.firstTry with
    | error e => rw [handled] at body; cases body
    | ok result =>
      obtain ⟨v, evLen⟩ := result
      rw [handled, except_ok_bind] at body
      refine ⟨records, evLen, located, ?_⟩
      split at body <;> cases body
      · exact ⟨handled, .inl ⟨‹_›, rfl⟩⟩
      · exact ⟨handled, .inr ⟨‹_›, rfl⟩⟩
  · cases body

/-- The byte count the secondary `read()` asks for: `INOTIFY_READ_BUF_LEN - numRead`
converted to `size_t`. -/
def secondaryCount (numRead : Int) : Nat :=
  ((inotifyReadBufLen - numRead) % 18446744073709551616).toNat

theorem secondaryCount_of_le {numRead : Int} (nonneg : 0 ≤ numRead) (within : numRead ≤ inotifyReadBufLen) :
    (secondaryCount numRead : Int) = inotifyReadBufLen - numRead := by
  simp only [secondaryCount, inotifyReadBufLen, eventHeaderSize, nameMax] at within ⊢
  omega

/-- The secondary `read()` and what follows it. `errno != -1` holds for every value
`errno` takes, so `numRead += nr` runs also when the read was interrupted and `nr` is
-1. -/
def secondaryRead (L : ReadBuf) : ReadResult → Except Stop ReadBuf
  | .failed => .error (.exit exitFailure "read")
  | .records [] => .error (.exit exitFailure "read() from inotify fd returned 0!")
  | .records got => .ok { L with buf := L.buf ++ got, numRead := L.numRead + byteSize got, evp := 0 }
  | .interrupted => .ok { L with numRead := L.numRead + -1, evp := 0 }

/-- The buffer invariant at the head of an iteration: `numRead` within `buf`, the bytes
`buf[0, numRead)` exactly the records laid out whole, and `evp` at the start of a record
when the loop body runs. -/
def BufferWhole (L : ReadBuf) : Prop :=
  0 ≤ L.numRead ∧ L.numRead ≤ inotifyReadBufLen ∧ L.numRead = byteSize L.buf ∧
    ((L.evp : Int) < L.numRead → (dropBytes L.buf L.evp).isSome)

instance (L : ReadBuf) : Decidable (BufferWhole L) := inferInstanceAs (Decidable (_ ∧ _))

def scanLoop {σ : Type} (read : σ → Nat → ReadResult × σ) (cfg : Config) :
    Nat → World → ReadBuf → σ → Except Stop (Option (World × σ))
  | 0, _, _, _ => .ok none
  | fuel + 1, w, L, s =>
    if (L.evp : Int) < L.numRead then do
      let (w, pass) ← loopBody cfg w L
      match pass with
      | .scan L => scanLoop read cfg fuel w L s
      | .deferred L =>
        let (result, s) := read s (secondaryCount L.numRead)
        let L ← secondaryRead L result
        scanLoop read cfg fuel w L s
    else .ok (some (w, s))

/-- `cnt`: the `-b` size when positive, else the whole buffer. -/
def primaryCount (cfg : Config) : Nat :=
  if 0 < cfg.readBufferSize then cfg.readBufferSize.toNat else inotifyReadBufLen

/-- The buffer after the primary `read()`. `buf` holds `INOTIFY_READ_BUF_LEN` bytes, while
the count asked for is the `-b` size when one is given: a `read()` that returns more has
written past the end of `buf`. -/
def primaryRead : ReadResult → Except Stop ReadBuf
  | .records [] => .error (.exit exitFailure "read() from inotify fd returned 0!")
  | .records got =>
    if inotifyReadBufLen < byteSize got then .error .bufferOverrun else .ok ⟨got, byteSize got, 0, true⟩
  | _ => .error (.exit exitFailure "read")

/-- A `read()` of records that fit in `buf` fills it from the start. -/
theorem primaryRead_of_fits {got : List InotifyEvent} (nonempty : got ≠ []) (fits : byteSize got ≤ inotifyReadBufLen) :
    primaryRead (.records got) = .ok ⟨got, byteSize got, 0, true⟩ := by
  obtain ⟨ev, rest, rfl⟩ := List.exists_cons_of_ne_nil nonempty
  exact if_neg (by omega)

/-- `none` when `fuel` passes did not finish the loop. -/
def processInotifyEvents {σ : Type} (read : σ → Nat → ReadResult × σ) (cfg : Config)
    (fuel : Nat) (w : World) (s : σ) : Except Stop (Option (World × σ)) := do
  let (result, s) := read s (primaryCount cfg)
  let L ← primaryRead result
  scanLoop read cfg fuel w L s

end InotifyDtree
