import InotifyDtree.Event

set_option autoImplicit false

/- The directory trees the program watches. Only directories are modelled: the walk
callback `traverseTree` returns at once for every other kind of file, and every event
the program acts on carries `IN_ISDIR` or concerns a watched directory. One device is
modelled, so a directory's identity is its inode number; the working directory is the
root of the tree. -/
namespace InotifyDtree

abbrev Ino := Nat

/-- A directory: its inode number and its entries in `readdir` order. -/
inductive Dir where
  | mk (ino : Ino) (entries : List (Path × Dir))
deriving Repr

instance : Inhabited Dir := ⟨.mk 0 []⟩

def Dir.ino : Dir → Ino
  | .mk ino _ => ino

def Dir.entries : Dir → List (Path × Dir)
  | .mk _ entries => entries

/-- A name the kernel accepts for a directory entry. -/
def validName (name : Path) : Bool :=
  !name.isEmpty && !name.contains '/' && !name.contains '\x00' &&
    name != ['.'] && name != ['.', '.'] && name.length ≤ nameMax

mutual
/-- Every entry name is valid and no two entries of a directory share a name. -/
def Dir.wellFormed : Dir → Bool
  | .mk _ entries => (entries.map Prod.fst).Nodup && entriesWellFormed entries

def entriesWellFormed : List (Path × Dir) → Bool
  | [] => true
  | (name, child) :: rest => validName name && child.wellFormed && entriesWellFormed rest
end

/-- Split a pathname at every '/'. -/
def splitSlash : Path → List Path
  | [] => [[]]
  | c :: rest =>
    match splitSlash rest with
    | [] => [[c]]
    | first :: more => if c = '/' then [] :: first :: more else (c :: first) :: more

/-- One step of pathname resolution: empty components and "." stay, ".." goes up. -/
def resolveStep (dirs : List Path) (component : Path) : List Path :=
  if component.isEmpty || component == ['.'] then dirs
  else if component == ['.', '.'] then dirs.dropLast
  else dirs ++ [component]

/-- The names leading from the root to the directory a pathname names. -/
def canonical (p : Path) : List Path := (splitSlash p).foldl resolveStep []

/-- The directory below `dir` reached through `names`. -/
def Dir.find? : Dir → List Path → Option Dir
  | dir, [] => some dir
  | .mk _ entries, name :: rest =>
    match entries.lookup name with
    | some child => child.find? rest
    | none => none

/-- The pathname `nftw` builds for the entry `name` of the directory at `p`: a '/' is
added unless `p` already ends with one. -/
def childPath (p name : Path) : Path :=
  if p.getLast? = some '/' then p ++ name else p ++ '/' :: name

mutual
/-- The physical (`FTW_PHYS`) pre-order walk below a directory reached at `p`: one
callback per directory, with its pathname and inode. -/
def Dir.walk : Dir → Path → List (Path × Ino)
  | .mk ino entries, p => (p, ino) :: walkEntries entries p

def walkEntries : List (Path × Dir) → Path → List (Path × Ino)
  | [], _ => []
  | (name, child) :: rest, p => child.walk (childPath p name) ++ walkEntries rest p
end

/-- A directory tree as the kernel keeps it. -/
structure Fs where
  root : Dir
  wellFormed : root.wellFormed = true

def Fs.lookup (fs : Fs) (p : Path) : Option Dir := fs.root.find? (canonical p)

/-- `nftw(p, traverseTree, 20, FTW_PHYS)`: the callbacks in order; none when `p` names
no directory, where `nftw` fails and `watchDir` only logs. -/
def nftw (fs : Fs) (p : Path) : List (Path × Ino) :=
  match fs.lookup p with
  | some dir => dir.walk p
  | none => []

/-- The callbacks whose inode is not in `seen` and not reported earlier in the list: the
first callback per directory. -/
def firstPerIno (seen : List Ino) : List (Path × Ino) → List (Path × Ino)
  | [] => []
  | entry :: rest =>
    if entry.2 ∈ seen then firstPerIno seen rest else entry :: firstPerIno (entry.2 :: seen) rest

end InotifyDtree

namespace InotifyDtree

theorem splitSlash_ne_nil (p : Path) : splitSlash p ≠ [] := by
  cases p with
  | nil => simp [splitSlash]
  | cons c rest =>
    simp only [splitSlash]
    split
    · simp
    · split <;> simp

theorem splitSlash_cons_of_split (c : Char) (rest : Path) (first : Path) (more : List Path)
    (split : splitSlash rest = first :: more) :
    splitSlash (c :: rest) = if c = '/' then [] :: first :: more else (c :: first) :: more := by
  simp only [splitSlash, split]

theorem splitSlash_slash_append (front back : Path) :
    splitSlash (front ++ '/' :: back) = splitSlash front ++ splitSlash back := by
  induction front with
  | nil =>
    obtain ⟨first, more, split⟩ := List.exists_cons_of_ne_nil (splitSlash_ne_nil back)
    simp [splitSlash_cons_of_split _ _ first more split, split, splitSlash]
  | cons c rest ih =>
    obtain ⟨first, more, split⟩ := List.exists_cons_of_ne_nil (splitSlash_ne_nil rest)
    rw [List.cons_append, splitSlash_cons_of_split c (rest ++ '/' :: back) first
      (more ++ splitSlash back) (by rw [ih, split]; rfl), splitSlash_cons_of_split c rest first more split]
    split <;> rfl

theorem splitSlash_of_not_mem (name : Path) (noSlash : '/' ∉ name) : splitSlash name = [name] := by
  induction name with
  | nil => rfl
  | cons c rest ih =>
    have tail : '/' ∉ rest := fun mem => noSlash (List.mem_cons_of_mem c mem)
    have head : c ≠ '/' := fun eq => noSlash (eq ▸ List.mem_cons_self c rest)
    rw [splitSlash_cons_of_split c rest rest [] (ih tail), if_neg head]

theorem resolveStep_of_validName (dirs : List Path) {name : Path} (valid : validName name = true) :
    resolveStep dirs name = dirs ++ [name] := by
  simp only [validName, Bool.and_eq_true, Bool.not_eq_true', List.isEmpty_eq_false,
    bne_iff_ne, ne_eq, decide_eq_true_eq] at valid
  obtain ⟨⟨⟨⟨⟨nonempty, -⟩, -⟩, notDot⟩, notDotDot⟩, -⟩ := valid
  simp [resolveStep, List.isEmpty_iff, nonempty, notDot, notDotDot]

theorem canonical_childPath (p : Path) {name : Path} (valid : validName name = true) :
    canonical (childPath p name) = canonical p ++ [name] := by
  have noSlash : '/' ∉ name := by
    simp only [validName, Bool.and_eq_true, Bool.not_eq_true', List.contains_eq_any_beq,
      List.any_eq_false, beq_iff_eq] at valid
    exact fun mem => valid.1.1.1.1.2 '/' mem rfl
  unfold childPath canonical
  split
  · rename_i endsSlash
    obtain ⟨front, rfl⟩ := List.getLast?_eq_some_iff.mp endsSlash
    rw [List.append_assoc, List.singleton_append, splitSlash_slash_append,
      splitSlash_slash_append, splitSlash_of_not_mem name noSlash, List.foldl_append,
      List.foldl_append]
    simp only [splitSlash, List.foldl_cons, List.foldl_nil, resolveStep_of_validName _ valid]
    simp [resolveStep]
  · rw [splitSlash_slash_append, splitSlash_of_not_mem name noSlash, List.foldl_append]
    simp [resolveStep_of_validName _ valid]

end InotifyDtree

namespace InotifyDtree

theorem entriesWellFormed_iff (entries : List (Path × Dir)) :
    entriesWellFormed entries = true ↔
      ∀ entry ∈ entries, validName entry.1 = true ∧ entry.2.wellFormed = true := by
  induction entries with
  | nil => simp [entriesWellFormed]
  | cons entry rest ih => simp [entriesWellFormed, ih, and_assoc]

theorem lookup_of_mem {entries : List (Path × Dir)} {name : Path} {child : Dir}
    (distinct : (entries.map Prod.fst).Nodup) (mem : (name, child) ∈ entries) :
    entries.lookup name = some child := by
  induction entries with
  | nil => cases mem
  | cons entry rest ih =>
    obtain ⟨key, value⟩ := entry
    simp only [List.map_cons, List.nodup_cons, List.mem_map] at distinct
    rcases List.mem_cons.mp mem with same | later
    · cases same
      exact List.lookup_cons_self
    · have other : key ≠ name := fun eq => distinct.1 ⟨(name, child), later, eq.symm⟩
      simp [List.lookup_cons, beq_false_of_ne (Ne.symm other), ih distinct.2 later]

theorem Dir.find?_append (dir : Dir) (front back : List Path) :
    dir.find? (front ++ back) = (dir.find? front).bind (·.find? back) := by
  induction front generalizing dir with
  | nil => simp [Dir.find?]
  | cons name rest ih =>
    obtain ⟨ino, entries⟩ := dir
    simp only [List.cons_append, Dir.find?]
    split <;> simp [ih]

theorem mem_of_lookup {entries : List (Path × Dir)} {name : Path} {child : Dir}
    (hit : entries.lookup name = some child) : (name, child) ∈ entries := by
  obtain ⟨front, back, rfl, -⟩ := List.lookup_eq_some_iff.mp hit
  simp

theorem Dir.find?_wellFormed : ∀ (dir : Dir) (names : List Path) (found : Dir),
    dir.wellFormed = true → dir.find? names = some found → found.wellFormed = true
  | dir, [], found, wf, hit => by
    simp only [Dir.find?, Option.some.injEq] at hit
    exact hit ▸ wf
  | .mk ino entries, name :: rest, found, wf, hit => by
    simp only [Dir.find?] at hit
    split at hit
    · rename_i child entry
      simp only [Dir.wellFormed, Bool.and_eq_true] at wf
      exact Dir.find?_wellFormed child rest found
        ((entriesWellFormed_iff entries).mp wf.2 _ (mem_of_lookup entry)).2 hit
    · cases hit

/-- The pathname `nftw` builds for an entry names that entry. -/
theorem Fs.lookup_childPath (fs : Fs) {p name : Path} {ino : Ino} {entries : List (Path × Dir)}
    {child : Dir} (found : fs.lookup p = some (.mk ino entries))
    (wf : (Dir.mk ino entries).wellFormed = true) (mem : (name, child) ∈ entries) :
    fs.lookup (childPath p name) = some child := by
  simp only [Dir.wellFormed, Bool.and_eq_true, decide_eq_true_eq] at wf
  have valid := ((entriesWellFormed_iff entries).mp wf.2 _ mem).1
  simp only [Fs.lookup] at found ⊢
  rw [canonical_childPath p valid, Dir.find?_append, found]
  simp [Dir.find?, lookup_of_mem wf.1 mem]

mutual
/-- Every callback of the walk names, by its pathname, the directory it reports. -/
theorem Dir.walk_lookup (fs : Fs) : ∀ (dir : Dir) (p : Path),
    fs.lookup p = some dir → dir.wellFormed = true →
      ∀ entry ∈ dir.walk p, ∃ found, fs.lookup entry.1 = some found ∧ found.ino = entry.2
  | .mk ino entries, p, found, wf, entry, mem => by
    rcases List.mem_cons.mp mem with rfl | below
    · exact ⟨_, found, rfl⟩
    · refine walkEntries_lookup fs entries p (fun name child member => ?_) entry below
      simp only [Dir.wellFormed, Bool.and_eq_true] at wf
      exact ⟨fs.lookup_childPath found (by simp [Dir.wellFormed, wf]) member,
        ((entriesWellFormed_iff entries).mp wf.2 _ member).2⟩

theorem walkEntries_lookup (fs : Fs) : ∀ (entries : List (Path × Dir)) (p : Path),
    (∀ name child, (name, child) ∈ entries →
      fs.lookup (childPath p name) = some child ∧ child.wellFormed = true) →
      ∀ entry ∈ walkEntries entries p, ∃ found, fs.lookup entry.1 = some found ∧ found.ino = entry.2
  | [], _, _, entry, mem => by simp [walkEntries] at mem
  | (name, child) :: rest, p, children, entry, mem => by
    rcases List.mem_append.mp mem with here | later
    · obtain ⟨found, wf⟩ := children name child (List.mem_cons_self _ _)
      exact Dir.walk_lookup fs child (childPath p name) found wf entry here
    · exact walkEntries_lookup fs rest p
        (fun n c member => children n c (List.mem_cons_of_mem _ member)) entry later
end

/-- Only membership in `seen` matters. -/
theorem firstPerIno_congr {seen seen' : List Ino} (same : ∀ ino, ino ∈ seen ↔ ino ∈ seen') :
    ∀ entries, firstPerIno seen entries = firstPerIno seen' entries
  | [] => rfl
  | entry :: rest => by
    simp only [firstPerIno, same]
    split
    · exact firstPerIno_congr same rest
    · exact congrArg _ (firstPerIno_congr (fun ino => by simp [same]) rest)

theorem firstPerIno_append (seen : List Ino) (front back : List (Path × Ino)) :
    firstPerIno seen (front ++ back) =
      firstPerIno seen front ++ firstPerIno (seen ++ (firstPerIno seen front).map Prod.snd) back := by
  induction front generalizing seen with
  | nil => simp [firstPerIno]
  | cons entry rest ih =>
    rw [List.cons_append, firstPerIno, firstPerIno]
    split
    · rw [ih]
    · rw [ih, List.cons_append]
      congr 2
      exact firstPerIno_congr (fun ino => by simp [or_comm, or_left_comm]) back

/-- Every callback of `nftw` names, by its pathname, the directory it reports. -/
theorem nftw_lookup (fs : Fs) (p : Path) :
    ∀ entry ∈ nftw fs p, ∃ found, fs.lookup entry.1 = some found ∧ found.ino = entry.2 := by
  unfold nftw
  split
  · rename_i dir found
    have wf := Dir.find?_wellFormed fs.root _ dir fs.wellFormed found
    exact Dir.walk_lookup fs dir p found wf
  · simp

end InotifyDtree

/- The three operations the other processes perform on the trees (`rand_dtree.c` drives
the same three): `mkdir`, `rmdir` and `rename` of directories. Each returns what the
kernel's notification hooks are told, or `none` where the system call fails and
changes nothing. -/
namespace InotifyDtree

/-- Apply `f` to the directory at `names`. -/
def Dir.modify : Dir → List Path → (Dir → Dir) → Option Dir
  | dir, [], f => some (f dir)
  | .mk ino entries, name :: rest, f =>
    match entries.lookup name with
    | some child => (child.modify rest f).map fun updated =>
        .mk ino (entries.map fun entry => if entry.1 = name then (name, updated) else entry)
    | none => none

def Dir.removeEntry (name : Path) : Dir → Dir
  | .mk ino entries => .mk ino (entries.filter fun entry => entry.1 != name)

def Dir.addEntry (name : Path) (child : Dir) : Dir → Dir
  | .mk ino entries => .mk ino (entries ++ [(name, child)])

/-- A tree the kernel keeps; the kernel's own checks (valid, unused names) make the
test succeed for every operation below that gets past them. -/
def Fs.ofRoot (root : Dir) : Option Fs :=
  if wf : root.wellFormed = true then some ⟨root, wf⟩ else none

/-- `mkdir(p)` creating the directory with inode `ino`: the parent's inode and the
new entry's name. -/
def Fs.mkdir (fs : Fs) (p : Path) (ino : Ino) : Option (Fs × Ino × Path) := do
  let names := canonical p
  let name ← names.getLast?
  let parent ← fs.root.find? names.dropLast
  if validName name && (parent.entries.lookup name).isNone then
    let root ← fs.root.modify names.dropLast (Dir.addEntry name (.mk ino []))
    let updated ← Fs.ofRoot root
    pure (updated, parent.ino, name)
  else none

/-- `rmdir(p)` of an empty directory: the inode removed. -/
def Fs.rmdir (fs : Fs) (p : Path) : Option (Fs × Ino) := do
  let names := canonical p
  let name ← names.getLast?
  let target ← fs.root.find? names
  if target.entries.isEmpty then
    let root ← fs.root.modify names.dropLast (Dir.removeEntry name)
    let updated ← Fs.ofRoot root
    pure (updated, target.ino)
  else none

/-- What `rename(src, dst)` tells the notification hooks. -/
structure Renamed where
  fromDir : Ino
  fromName : Path
  toDir : Ino
  toName : Path
  moved : Ino
  replaced : Option Ino
deriving DecidableEq, Repr

/-- `rename(src, dst)` of a directory, replacing an empty directory at `dst`. Renaming a
directory into its own subtree, or onto itself, changes nothing. -/
def Fs.rename (fs : Fs) (src dst : Path) : Option (Fs × Renamed) := do
  let srcNames := canonical src
  let dstNames := canonical dst
  let srcName ← srcNames.getLast?
  let dstName ← dstNames.getLast?
  let moved ← fs.root.find? srcNames
  let fromDir ← fs.root.find? srcNames.dropLast
  let toDir ← fs.root.find? dstNames.dropLast
  let target := toDir.entries.lookup dstName
  if validName dstName && !srcNames.isPrefixOf dstNames &&
      target.all (fun old => old.entries.isEmpty) then
    let root ← fs.root.modify srcNames.dropLast (Dir.removeEntry srcName)
    let root ← root.modify dstNames.dropLast
      (fun dir => Dir.addEntry dstName moved (Dir.removeEntry dstName dir))
    let updated ← Fs.ofRoot root
    pure (updated, ⟨fromDir.ino, srcName, toDir.ino, dstName, moved.ino, target.map Dir.ino⟩)
  else none

end InotifyDtree
