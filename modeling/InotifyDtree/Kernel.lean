import InotifyDtree.Fs

set_option autoImplicit false

/- The kernel side of inotify as the program sees it: the watches of the current
instance, its queue of pending records, and the records that `mkdir`, `rmdir` and
`rename` of watched directories append to that queue. Queue overflow is not modelled:
the queue is unbounded. -/
namespace InotifyDtree

/-- A watch held by the kernel: its descriptor, the inode it watches and its mask. -/
structure KWatch where
  wd : Int
  ino : Ino
  mask : UInt32
deriving DecidableEq, Repr

/-- One inotify instance, from `inotify_init()` to `close()`. Watch descriptors are
handed out upwards from 1. -/
structure Inotify where
  generation : Nat
  watches : List KWatch
  lastWd : Nat
  queue : List InotifyEvent
deriving DecidableEq, Repr

structure Kernel where
  fs : Fs
  nextIno : Ino
  nextCookie : UInt32
  inotify : Inotify

inductive Errno where
  | enoent
  | enametoolong
  | einval
deriving DecidableEq, Repr

/-- `inotify_init()` after the old instance, if any, was closed. -/
def Kernel.inotifyInit (k : Kernel) : Kernel :=
  { k with inotify := ⟨k.inotify.generation + 1, [], 0, []⟩ }

/-- The `len` field of a record: the name, its NUL, and padding to a multiple of the
header size; 0 for a record without a name. -/
def nameLen (name : Path) : Nat :=
  if name.isEmpty then 0
  else (name.length + 1 + eventHeaderSize - 1) / eventHeaderSize * eventHeaderSize

def mkEvent (wd : Int) (mask : UInt32) (cookie : UInt32) (name : Path) : InotifyEvent :=
  ⟨wd, mask, cookie, nameLen name, name⟩

/-- A record the kernel can deliver: only the queue-overflow record has no watch
descriptor, and `IN_IGNORED` comes alone in its mask. -/
def Deliverable (ev : InotifyEvent) : Prop :=
  (ev.wd = -1 → ev.mask = inQOverflow) ∧ (hasAny ev.mask inIgnored = true → ev.mask = inIgnored)

instance (ev : InotifyEvent) : Decidable (Deliverable ev) :=
  inferInstanceAs (Decidable (_ ∧ _))

theorem mkEvent_deliverable {wd : Int} {mask cookie : UInt32} {name : Path} (nonneg : 0 ≤ wd)
    (alone : hasAny mask inIgnored = true → mask = inIgnored) :
    Deliverable (mkEvent wd mask cookie name) :=
  ⟨fun minus => absurd minus (by simp only [mkEvent]; omega), alone⟩

/-- What the kernel keeps for the program: watch descriptors are positive, and every
queued record is one it can deliver. -/
structure Inotify.Valid (inst : Inotify) : Prop where
  positive : ∀ watch ∈ inst.watches, 0 < watch.wd
  deliverable : ∀ ev ∈ inst.queue, Deliverable ev

theorem Kernel.inotifyInit_valid (k : Kernel) : k.inotifyInit.inotify.Valid :=
  ⟨by simp [Kernel.inotifyInit], by simp [Kernel.inotifyInit]⟩

/-- The kernel drops a record identical (same `wd`, `mask` and name; the cookie is not
compared) to the last one still queued, unless that one is `IN_IGNORED`. -/
def Inotify.enqueue (inst : Inotify) (ev : InotifyEvent) : Inotify :=
  match inst.queue.getLast? with
  | some last =>
    if !hasAny last.mask inIgnored && last.wd == ev.wd && last.mask == ev.mask &&
        last.name == ev.name then inst
    else { inst with queue := inst.queue ++ [ev] }
  | none => { inst with queue := inst.queue ++ [ev] }

/-- Report `bits` on the inode `ino`, if a watch on it selects one of them. -/
def Inotify.notify (inst : Inotify) (ino : Ino) (bits extra : UInt32) (cookie : UInt32)
    (name : Path) : Inotify :=
  match inst.watches.find? (fun watch => watch.ino == ino) with
  | some watch =>
    if hasAny watch.mask bits then inst.enqueue (mkEvent watch.wd (bits ||| extra) cookie name)
    else inst
  | none => inst

/-- The watch on a deleted inode reports `IN_DELETE_SELF` and goes away with an
`IN_IGNORED` record. -/
def Inotify.deleteSelf (inst : Inotify) (ino : Ino) : Inotify :=
  match inst.watches.find? (fun watch => watch.ino == ino) with
  | some watch =>
    let reported := inst.notify ino inDeleteSelf 0 0 []
    { (reported.enqueue (mkEvent watch.wd inIgnored 0 [])) with
      watches := inst.watches.filter fun other => other.ino != ino }
  | none => inst

/-- `inotify_add_watch(fd, p, mask)`: a watch already on the inode gets the new mask and
keeps its descriptor. -/
def Kernel.inotifyAddWatch (k : Kernel) (p : Path) (mask : UInt32) : Except Errno (Kernel × Int) :=
  if pathMax ≤ p.length then .error .enametoolong
  else match k.fs.lookup p with
    | none => .error .enoent
    | some dir =>
      match k.inotify.watches.find? (fun watch => watch.ino == dir.ino) with
      | some watch =>
        let watches := k.inotify.watches.map fun other =>
          if other.ino == dir.ino then { other with mask := mask } else other
        .ok ({ k with inotify := { k.inotify with watches := watches } }, watch.wd)
      | none =>
        let wd : Int := k.inotify.lastWd + 1
        .ok ({ k with inotify := { k.inotify with
          watches := k.inotify.watches ++ [⟨wd, dir.ino, mask⟩],
          lastWd := k.inotify.lastWd + 1 } }, wd)

section AddWatch

variable {k : Kernel} {p : Path} {mask : UInt32} {dir : Dir} (short : p.length < pathMax)
  (resolves : k.fs.lookup p = some dir)
include short resolves

theorem Kernel.inotifyAddWatch_of_watched {watch : KWatch}
    (found : k.inotify.watches.find? (fun watch => watch.ino == dir.ino) = some watch) :
    k.inotifyAddWatch p mask = .ok ({ k with inotify := { k.inotify with
      watches := k.inotify.watches.map fun other =>
        if other.ino == dir.ino then { other with mask := mask } else other } }, watch.wd) := by
  simp [Kernel.inotifyAddWatch, Nat.not_le.mpr short, resolves, found]

theorem Kernel.inotifyAddWatch_of_unwatched
    (missing : k.inotify.watches.find? (fun watch => watch.ino == dir.ino) = none) :
    k.inotifyAddWatch p mask = .ok ({ k with inotify := { k.inotify with
      watches := k.inotify.watches ++ [⟨k.inotify.lastWd + 1, dir.ino, mask⟩],
      lastWd := k.inotify.lastWd + 1 } }, k.inotify.lastWd + 1) := by
  simp [Kernel.inotifyAddWatch, Nat.not_le.mpr short, resolves, missing]

end AddWatch

/-- `inotify_add_watch` changes only the watches of the instance. -/
theorem Kernel.inotifyAddWatch_keeps {k k' : Kernel} {p : Path} {mask : UInt32} {wd : Int}
    (added : k.inotifyAddWatch p mask = .ok (k', wd)) :
    k'.fs = k.fs ∧ k'.inotify.generation = k.inotify.generation := by
  unfold Kernel.inotifyAddWatch at added
  split at added
  · cases added
  · split at added
    · cases added
    · split at added <;> (cases added; exact ⟨rfl, rfl⟩)

@[simp] theorem Inotify.enqueue_generation (inst : Inotify) (ev : InotifyEvent) :
    (inst.enqueue ev).generation = inst.generation := by
  unfold Inotify.enqueue
  split
  · split <;> rfl
  · rfl

@[simp] theorem Inotify.enqueue_watches (inst : Inotify) (ev : InotifyEvent) :
    (inst.enqueue ev).watches = inst.watches := by
  unfold Inotify.enqueue
  split
  · split <;> rfl
  · rfl

theorem Inotify.Valid.enqueue {inst : Inotify} (valid : inst.Valid) {ev : InotifyEvent}
    (deliverable : Deliverable ev) : (inst.enqueue ev).Valid := by
  refine ⟨by simpa using valid.positive, ?_⟩
  have appended : ∀ e ∈ inst.queue ++ [ev], Deliverable e := fun e member =>
    (List.mem_append.mp member).elim (valid.deliverable e)
      fun last => (List.mem_singleton.mp last) ▸ deliverable
  unfold Inotify.enqueue
  split
  · split
    · exact valid.deliverable
    · exact appended
  · exact appended

theorem Inotify.Valid.notify {inst : Inotify} (valid : inst.Valid) {ino : Ino} {bits extra cookie : UInt32}
    {name : Path} (alone : hasAny (bits ||| extra) inIgnored = false) :
    (inst.notify ino bits extra cookie name).Valid := by
  unfold Inotify.notify
  split
  · next watch found =>
    split
    · exact valid.enqueue (mkEvent_deliverable
        (Int.le_of_lt (valid.positive watch (List.mem_of_find?_eq_some found)))
        fun both => absurd both (by simp [alone]))
    · exact valid
  · exact valid

theorem Inotify.Valid.deleteSelf {inst : Inotify} (valid : inst.Valid) (ino : Ino) :
    (inst.deleteSelf ino).Valid := by
  unfold Inotify.deleteSelf
  split
  · next watch found =>
    have reported : (inst.notify ino inDeleteSelf 0 0 []).Valid := valid.notify (by decide)
    have ignored : Deliverable (mkEvent watch.wd inIgnored 0 []) :=
      mkEvent_deliverable (Int.le_of_lt (valid.positive watch (List.mem_of_find?_eq_some found)))
        fun _ => rfl
    exact ⟨fun other kept => valid.positive other (List.mem_of_mem_filter kept),
      (reported.enqueue ignored).deliverable⟩
  · exact valid

/-- A watch added or kept by `inotify_add_watch` has a positive descriptor, and the queue
is untouched; a call that succeeds was given a pathname shorter than `PATH_MAX`. -/
theorem Kernel.inotifyAddWatch_valid {k k' : Kernel} {p : Path} {mask : UInt32} {wd : Int}
    (valid : k.inotify.Valid) (added : k.inotifyAddWatch p mask = .ok (k', wd)) :
    k'.inotify.Valid ∧ 0 < wd ∧ p.length < pathMax := by
  unfold Kernel.inotifyAddWatch at added
  split at added
  · cases added
  rename_i short
  split at added
  · cases added
  split at added
  · rename_i watch found
    cases added
    refine ⟨⟨fun other member => ?_, valid.deliverable⟩,
      valid.positive watch (List.mem_of_find?_eq_some found), by omega⟩
    obtain ⟨old, kept, rfl⟩ := List.mem_map.mp member
    split
    · exact valid.positive old kept
    · exact valid.positive old kept
  · cases added
    refine ⟨⟨fun other member => ?_, valid.deliverable⟩, by omega, by omega⟩
    rcases List.mem_append.mp member with old | fresh
    · exact valid.positive other old
    · rw [List.mem_singleton.mp fresh]
      simp only
      omega

/-- `inotify_rm_watch(fd, wd)`: fails with `EINVAL` unless `wd` is a current watch. -/
def Kernel.inotifyRmWatch (k : Kernel) (wd : Int) : Option Kernel :=
  if k.inotify.watches.any (fun watch => watch.wd == wd) then
    some { k with inotify := { (k.inotify.enqueue (mkEvent wd inIgnored 0 [])) with
      watches := k.inotify.watches.filter fun watch => watch.wd != wd } }
  else none

/-- Removing a current watch succeeds and leaves every other descriptor current. -/
theorem Kernel.inotifyRmWatch_of_held {k : Kernel} {wd : Int}
    (held : k.inotify.watches.any (fun watch => watch.wd == wd)) :
    ∃ k', k.inotifyRmWatch wd = some k' ∧ ∀ other, other ≠ wd →
      k'.inotify.watches.any (fun watch => watch.wd == other) =
        k.inotify.watches.any (fun watch => watch.wd == other) := by
  refine ⟨_, if_pos held, fun other differs => ?_⟩
  simp only [List.any_filter, bne_iff_ne, ne_eq]
  congr 1
  funext watch
  by_cases same : watch.wd = other
  · simp [same, differs]
  · simp [same]

theorem Kernel.inotifyRmWatch_generation {k k' : Kernel} {wd : Int} (removed : k.inotifyRmWatch wd = some k') :
    k'.inotify.generation = k.inotify.generation := by
  unfold Kernel.inotifyRmWatch at removed
  split at removed
  · cases removed; simp
  · cases removed

theorem Kernel.inotifyRmWatch_valid {k k' : Kernel} {wd : Int} (valid : k.inotify.Valid)
    (removed : k.inotifyRmWatch wd = some k') : k'.inotify.Valid := by
  unfold Kernel.inotifyRmWatch at removed
  split at removed
  · next held =>
    cases removed
    obtain ⟨watch, member, same⟩ := List.any_eq_true.mp held
    have nonneg : 0 ≤ wd := by
      have := valid.positive watch member
      rw [beq_iff_eq] at same
      omega
    have ignored : Deliverable (mkEvent wd inIgnored 0 []) := mkEvent_deliverable nonneg fun _ => rfl
    exact ⟨fun other kept => valid.positive other (List.mem_of_mem_filter kept),
      (valid.enqueue ignored).deliverable⟩
  · cases removed

def Kernel.mkdir (k : Kernel) (p : Path) : Option Kernel := do
  let (fs, parent, name) ← k.fs.mkdir p k.nextIno
  pure { k with
    fs := fs
    nextIno := k.nextIno + 1
    inotify := k.inotify.notify parent inCreate inIsdir 0 name }

def Kernel.rmdir (k : Kernel) (p : Path) : Option Kernel := do
  let (fs, gone) ← k.fs.rmdir p
  pure { k with fs := fs, inotify := k.inotify.deleteSelf gone }

/-- The records of a rename, in the order the kernel queues them: the `IN_MOVED_FROM`
and `IN_MOVED_TO` halves sharing a fresh cookie, the moved directory's
`IN_MOVE_SELF`, and last the deletion of a replaced directory. -/
def Kernel.rename (k : Kernel) (src dst : Path) : Option Kernel := do
  let (fs, r) ← k.fs.rename src dst
  let cookie := k.nextCookie + 1
  let inst := (k.inotify.notify r.fromDir inMovedFrom inIsdir cookie r.fromName).notify
    r.toDir inMovedTo inIsdir cookie r.toName
  let inst := inst.notify r.moved inMoveSelf 0 0 []
  let inst := match r.replaced with
    | some old => inst.deleteSelf old
    | none => inst
  pure { k with fs := fs, nextCookie := cookie, inotify := inst }

/-- `k'` is `k` after another process's `mkdir`, `rmdir` or `rename`. -/
def Kernel.Changed (k k' : Kernel) : Prop :=
  (∃ p, k.mkdir p = some k') ∨ (∃ p, k.rmdir p = some k') ∨ ∃ src dst, k.rename src dst = some k'

/-- The records other processes' calls queue are ones the kernel can deliver. -/
theorem Kernel.Changed.valid {k k' : Kernel} (changed : k.Changed k') (valid : k.inotify.Valid) :
    k'.inotify.Valid := by
  rcases changed with ⟨p, made⟩ | ⟨p, removed⟩ | ⟨src, dst, renamed⟩
  · obtain ⟨_, -, made⟩ := Option.bind_eq_some.mp made
    cases made
    exact valid.notify (by decide)
  · obtain ⟨_, -, removed⟩ := Option.bind_eq_some.mp removed
    cases removed
    exact valid.deleteSelf _
  · obtain ⟨⟨_, r⟩, -, renamed⟩ := Option.bind_eq_some.mp renamed
    cases renamed
    dsimp only
    split
    · exact (((valid.notify (by decide)).notify (by decide)).notify (by decide)).deleteSelf _
    · exact ((valid.notify (by decide)).notify (by decide)).notify (by decide)

/-- The outcome of one `read()` from the inotify descriptor. -/
inductive ReadResult where
  | records (got : List InotifyEvent)
  | interrupted
  | failed
deriving DecidableEq, Repr

/-- The longest run of queued records that fits in `count` bytes. -/
def fitPrefix (count : Nat) : List InotifyEvent → List InotifyEvent
  | [] => []
  | ev :: rest => if ev.size ≤ count then ev :: fitPrefix (count - ev.size) rest else []

theorem byteSize_fitPrefix_le : ∀ (count : Nat) (queue : List InotifyEvent),
    byteSize (fitPrefix count queue) ≤ count
  | _, [] => Nat.zero_le _
  | count, ev :: rest => by
    unfold fitPrefix
    split
    · have := byteSize_fitPrefix_le (count - ev.size) rest
      rw [byteSize_cons]
      omega
    · exact Nat.zero_le _

theorem fitPrefix_append_drop (count : Nat) : ∀ queue : List InotifyEvent,
    fitPrefix count queue ++ queue.drop (fitPrefix count queue).length = queue
  | [] => rfl
  | ev :: rest => by
    unfold fitPrefix
    split
    · rw [List.cons_append, List.length_cons, List.drop_succ_cons, fitPrefix_append_drop]
    · rfl

/-- `read(fd, buf, count)` on a nonempty queue: whole records only, `EINVAL` when the
first does not fit. -/
def Kernel.read (k : Kernel) (count : Nat) : ReadResult × Kernel :=
  match fitPrefix count k.inotify.queue with
  | [] => (.failed, k)
  | got => (.records got, { k with inotify := { k.inotify with
      queue := k.inotify.queue.drop got.length } })

/-- A `read()` from the descriptor fails, or returns whole records that fit in `count`
bytes, at least one; it is never interrupted. -/
theorem Kernel.read_cases (k : Kernel) (count : Nat) :
    (k.read count).1 = .failed ∨
      ∃ got, (k.read count).1 = .records got ∧ got ≠ [] ∧ byteSize got ≤ count ∧
        List.IsPrefix got k.inotify.queue := by
  unfold Kernel.read
  split
  · exact .inl rfl
  · exact .inr ⟨_, rfl, ‹_›, byteSize_fitPrefix_le _ _, ⟨_, fitPrefix_append_drop _ _⟩⟩

theorem Kernel.read_valid {k : Kernel} (valid : k.inotify.Valid) (count : Nat) :
    (k.read count).2.inotify.Valid := by
  unfold Kernel.read
  split
  · exact valid
  · exact ⟨valid.positive, fun ev member => valid.deliverable ev (List.mem_of_mem_drop member)⟩

end InotifyDtree
