import Mathlib.Data.List.Basic

set_option autoImplicit false

/- The records and constants that `inotify_dtree.c` takes from `<sys/inotify.h>` and
`<limits.h>`, the C-string helpers it calls (`snprintf`, `strncpy`), and the ways a call
can stop instead of returning. Pathnames are the bytes of a C string, without the
terminating NUL. -/
namespace InotifyDtree

/-- A pathname or a file name: the characters of a C string before its NUL. -/
abbrev Path := List Char

def inMovedFrom : UInt32 := 0x00000040
def inMovedTo : UInt32 := 0x00000080
def inCreate : UInt32 := 0x00000100
def inDeleteSelf : UInt32 := 0x00000400
def inMoveSelf : UInt32 := 0x00000800
def inUnmount : UInt32 := 0x00002000
def inQOverflow : UInt32 := 0x00004000
def inIgnored : UInt32 := 0x00008000
def inOnlydir : UInt32 := 0x01000000
def inIsdir : UInt32 := 0x40000000

def pathMax : Nat := 4096
def nameMax : Nat := 255

/-- `sizeof(struct inotify_event)`: `wd`, `mask`, `cookie` and `len`, four bytes each. -/
def eventHeaderSize : Nat := 16

def inotifyReadBufLen : Nat := 100 * (eventHeaderSize + nameMax + 1)

/-- One `struct inotify_event` as `read()` lays it out: `len` bytes of NUL-padded
`name` follow the header. -/
structure InotifyEvent where
  wd : Int
  mask : UInt32
  cookie : UInt32
  len : Nat
  name : Path
deriving DecidableEq, Repr

/-- `sizeof(struct inotify_event) + ev->len`. -/
def InotifyEvent.size (ev : InotifyEvent) : Nat := eventHeaderSize + ev.len

/-- The number of bytes a run of whole records occupies in a buffer. -/
def byteSize : List InotifyEvent → Nat
  | [] => 0
  | ev :: records => ev.size + byteSize records

@[simp] theorem byteSize_nil : byteSize [] = 0 := rfl

@[simp] theorem byteSize_cons (ev : InotifyEvent) (records : List InotifyEvent) :
    byteSize (ev :: records) = ev.size + byteSize records := rfl

theorem byteSize_append (front back : List InotifyEvent) :
    byteSize (front ++ back) = byteSize front + byteSize back := by
  induction front with
  | nil => simp
  | cons ev rest ih => simp [ih, Nat.add_assoc]

theorem size_pos (ev : InotifyEvent) : 0 < ev.size := by
  simp only [InotifyEvent.size, eventHeaderSize]
  omega

/-- `ev->mask & bits` is nonzero. -/
def hasAny (mask bits : UInt32) : Bool := mask &&& bits != 0

/-- `snprintf(buf, size, "%s", s)`: at most `size - 1` characters before the NUL. -/
def snprintf (size : Nat) (s : Path) : Path := s.take (size - 1)

/-- `strncpy(dst, src, n)` read back as a C string. A source of `n` or more bytes
leaves `dst` without a terminator; the program documents that it does not handle
pathnames that long. -/
def strncpy (n : Nat) (src : Path) : Path := src.take n

theorem snprintf_of_lt {size : Nat} {s : Path} (short : s.length < size) :
    snprintf size s = s :=
  List.take_of_length_le (by omega)

theorem strncpy_of_lt {n : Nat} {src : Path} (short : src.length < n) : strncpy n src = src :=
  List.take_of_length_le (by omega)

theorem length_snprintf_lt (size : Nat) (s : Path) (positive : 0 < size) :
    (snprintf size s).length < size := by
  simp only [snprintf, List.length_take]
  omega

/-- The byte at index `i` of a C string: its NUL at `i = length`. -/
def cstrAt (s : Path) (i : Nat) : Char := s.getD i '\x00'

/-- `strncmp(pre, path, strlen(pre)) == 0 && (path[len] == '/' || path[len] == '\0')`:
`path` is `pre` or lies below it. Both `rewriteCachedPaths` and `zapSubtree` select
cache entries with this test. -/
def inSubtree (pre path : Path) : Bool :=
  pre.isPrefixOf path && (cstrAt path pre.length == '/' || cstrAt path pre.length == '\x00')

/-- The ways a call can end without returning to its caller. `exit` and `abort` are the
program's own; the others are undefined behaviour that the model makes visible:
indexing `wlCache` with an uninitialized or negative slot number (`badSlot`), reading a
record header where no complete record starts (`badRecord`), `fprintf` on `logfp` when no
`-l` option opened a log file, so that it is NULL (`nullLogfp`), and a `read()` that
writes past the end of `buf` (`bufferOverrun`). -/
inductive Stop where
  | exit (status : Nat) (message : String)
  | abort
  | badSlot
  | badRecord
  | nullLogfp
  | bufferOverrun
deriving DecidableEq, Repr

def exitSuccess : Nat := 0
def exitFailure : Nat := 1

section ExceptMonad

variable {ε α β : Type}

@[simp] theorem except_ok_bind (a : α) (f : α → Except ε β) : (Except.ok a >>= f) = f a := rfl

@[simp] theorem except_error_bind (e : ε) (f : α → Except ε β) :
    (Except.error e >>= f) = Except.error e := rfl

@[simp] theorem except_pure (a : α) : (pure a : Except ε α) = Except.ok a := rfl

@[simp] theorem except_map_ok (f : α → β) (a : α) : (Except.ok a : Except ε α).map f = .ok (f a) := rfl

@[simp] theorem except_map_error (f : α → β) (e : ε) :
    (Except.error e : Except ε α).map f = .error e := rfl

theorem except_map_eq_ok {x : Except ε α} {f : α → β} {b : β} (mapped : x.map f = .ok b) :
    ∃ a, x = .ok a ∧ f a = b := by
  cases x with
  | error e => cases mapped
  | ok a => exact ⟨a, rfl, Except.ok.inj mapped⟩

theorem except_map_eq_error {x : Except ε α} {f : α → β} {e : ε} (mapped : x.map f = .error e) :
    x = .error e := by
  cases x with
  | error e' =>
    cases mapped
    rfl
  | ok a => cases mapped

end ExceptMonad

end InotifyDtree
