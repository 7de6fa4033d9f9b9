import Mathlib.Data.List.Nodup
import InotifyDtree.Fs

set_option autoImplicit false

/- The tree read as the positions of its directories: the names that lead to each one
from the top, with its inode, in the order of the pre-order walk. `nftw` builds a
directory's pathname from its position, so the walk is the positions read through
`pathAt`. `mkdir`, `rmdir` and `rename` act on the positions as one added, one removed,
and a subtree moved under new names; the positions outside the changed subtree are a
remainder shared by the trees before and after. -/
namespace InotifyDtree

/-- The entry at `entry.1` of a subtree, seen from a tree in which that subtree sits at
`names`. -/
def below (names : List Path) (entry : List Path × Ino) : List Path × Ino :=
  (names ++ entry.1, entry.2)

@[simp] theorem below_nil : below [] = id := rfl

theorem below_below (front back : List Path) (entry : List Path × Ino) :
    below front (below back entry) = below (front ++ back) entry := by
  simp [below]

mutual
/-- The positions of the directories of a tree, in pre-order: the tree itself at `[]`. -/
def Dir.positions : Dir → List (List Path × Ino)
  | .mk ino entries => ([], ino) :: entriesPositions entries

def entriesPositions : List (Path × Dir) → List (List Path × Ino)
  | [] => []
  | (name, child) :: rest => child.positions.map (below [name]) ++ entriesPositions rest
end

theorem entriesPositions_append (front back : List (Path × Dir)) :
    entriesPositions (front ++ back) = entriesPositions front ++ entriesPositions back := by
  induction front with
  | nil => rfl
  | cons entry rest ih =>
    obtain ⟨name, child⟩ := entry
    simp [entriesPositions, ih]

/-- The pathname `nftw` builds for the position `names` when it starts at `p`. -/
def pathAt (p : Path) : List Path → Path
  | [] => p
  | name :: rest => pathAt (childPath p name) rest

theorem pathAt_append (p : Path) (front back : List Path) :
    pathAt p (front ++ back) = pathAt (pathAt p front) back := by
  induction front generalizing p with
  | nil => rfl
  | cons name rest ih => exact ih (childPath p name)

/-- The callback of the walk for a position. -/
def walkEntry (p : Path) (entry : List Path × Ino) : Path × Ino := (pathAt p entry.1, entry.2)

mutual
/-- The walk reports the positions in order, each under the pathname built for it. -/
theorem Dir.walk_eq_positions : ∀ (dir : Dir) (p : Path),
    dir.walk p = dir.positions.map (walkEntry p)
  | .mk ino entries, p => by
    rw [Dir.walk, Dir.positions, List.map_cons, walkEntries_eq_positions entries p]
    rfl

theorem walkEntries_eq_positions : ∀ (entries : List (Path × Dir)) (p : Path),
    walkEntries entries p = (entriesPositions entries).map (walkEntry p)
  | [], _ => rfl
  | (name, child) :: rest, p => by
    rw [walkEntries, entriesPositions, List.map_append, List.map_map,
      Dir.walk_eq_positions child, walkEntries_eq_positions rest p]
    rfl
end

/-! Pathnames of positions. Names are valid, so each adds a '/' and characters other
than '/'; from a start that does not end with '/', the pathname of a position is the
start followed by its names, each after a '/', and the names can be read back. -/

theorem validName_spec {name : Path} (valid : validName name = true) :
    name ≠ [] ∧ '/' ∉ name ∧ '\x00' ∉ name ∧ name.length ≤ nameMax := by
  simp only [validName, Bool.and_eq_true, Bool.not_eq_true', List.isEmpty_eq_false,
    List.contains_eq_any_beq, List.any_eq_false, beq_iff_eq, decide_eq_true_eq] at valid
  obtain ⟨⟨⟨⟨⟨nonempty, noSlash⟩, noNul⟩, -⟩, -⟩, short⟩ := valid
  exact ⟨List.ne_nil_of_length_pos (List.length_pos.mpr nonempty), fun mem => noSlash _ mem rfl,
    fun mem => noNul _ mem rfl, short⟩

/-- The names `names`, each after a '/'. -/
def joinNames (names : List Path) : Path := names.flatMap fun name => '/' :: name

@[simp] theorem joinNames_nil : joinNames [] = [] := rfl

@[simp] theorem joinNames_cons (name : Path) (rest : List Path) :
    joinNames (name :: rest) = '/' :: (name ++ joinNames rest) := rfl

theorem joinNames_append (front back : List Path) :
    joinNames (front ++ back) = joinNames front ++ joinNames back := by
  simp [joinNames]

theorem splitSlash_joinNames : ∀ (names : List Path), (∀ name ∈ names, '/' ∉ name) →
    splitSlash (joinNames names) = [] :: names
  | [], _ => rfl
  | name :: rest, noSlash => by
    have tail := splitSlash_joinNames rest fun other mem => noSlash other (List.mem_cons_of_mem _ mem)
    rw [joinNames_cons, ← List.nil_append ('/' :: _), splitSlash_slash_append]
    cases rest with
    | nil => rw [joinNames_nil, List.append_nil, splitSlash_of_not_mem name (noSlash name (by simp))]; rfl
    | cons next more =>
      rw [joinNames_cons, ← List.nil_append ('/' :: _), splitSlash_slash_append] at tail
      rw [joinNames_cons, splitSlash_slash_append, splitSlash_of_not_mem name (noSlash name (by simp))]
      simp only [splitSlash, List.singleton_append, List.cons.injEq, true_and] at tail ⊢
      rw [tail]

theorem childPath_of_ne {p : Path} (endOk : p.getLast? ≠ some '/') (name : Path) :
    childPath p name = p ++ '/' :: name := by
  rw [childPath, if_neg endOk]

theorem getLast?_append_name {p name : Path} (valid : validName name = true) :
    (p ++ '/' :: name).getLast? ≠ some '/' := by
  obtain ⟨nonempty, noSlash, -⟩ := validName_spec valid
  obtain ⟨front, last, rfl⟩ := List.eq_nil_or_concat name |>.resolve_left nonempty
  rw [List.concat_eq_append, ← List.cons_append, ← List.append_assoc, List.getLast?_concat]
  exact fun same => noSlash (by simp [Option.some.inj same])

/-- The pathname of a position: the start, then each name after a '/'. -/
theorem pathAt_eq_join : ∀ {p : Path} {names : List Path}, p.getLast? ≠ some '/' →
    (∀ name ∈ names, validName name = true) → pathAt p names = p ++ joinNames names
  | p, [], _, _ => by simp [pathAt]
  | p, name :: rest, endOk, valid => by
    have head := valid name (List.mem_cons_self _ _)
    rw [pathAt, childPath_of_ne endOk, pathAt_eq_join (getLast?_append_name head)
      fun other mem => valid other (List.mem_cons_of_mem _ mem)]
    simp

theorem pathAt_getLast? : ∀ {p : Path} {names : List Path}, p.getLast? ≠ some '/' →
    (∀ name ∈ names, validName name = true) → (pathAt p names).getLast? ≠ some '/'
  | _, [], endOk, _ => endOk
  | _, name :: rest, endOk, valid => by
    rw [pathAt, childPath_of_ne endOk]
    exact pathAt_getLast? (getLast?_append_name (valid name (List.mem_cons_self _ _)))
      fun other member => valid other (List.mem_cons_of_mem _ member)

theorem canonical_pathAt : ∀ (p : Path) {names : List Path}, (∀ name ∈ names, validName name = true) →
    canonical (pathAt p names) = canonical p ++ names
  | p, [], _ => by simp [pathAt]
  | p, name :: rest, valid => by
    rw [pathAt, canonical_pathAt _ fun other member => valid other (List.mem_cons_of_mem _ member),
      canonical_childPath p (valid name (List.mem_cons_self _ _))]
    simp

theorem not_mem_joinNames {c : Char} {names : List Path} (slash : c ≠ '/') (absent : ∀ name ∈ names, c ∉ name) :
    c ∉ joinNames names := by
  simp only [joinNames, List.mem_flatMap, List.mem_cons, not_exists, not_and, not_or]
  exact fun name member => ⟨slash, absent name member⟩

theorem joinNames_inj {front back : List Path} (noSlash : ∀ name ∈ front ++ back, '/' ∉ name)
    (same : joinNames front = joinNames back) : front = back := by
  have split := congrArg splitSlash same
  rw [splitSlash_joinNames front fun name mem => noSlash name (List.mem_append_left _ mem),
    splitSlash_joinNames back fun name mem => noSlash name (List.mem_append_right _ mem),
    List.cons.injEq] at split
  exact split.2

/-- A pathname that continues another after a '/' is the pathname of a position that
continues the other's. -/
theorem prefix_of_joinNames {front back : List Path} {rest : Path}
    (noSlash : ∀ name ∈ front ++ back, '/' ∉ name) (longer : joinNames back = joinNames front ++ '/' :: rest) :
    front <+: back := by
  have split := congrArg splitSlash longer
  rw [splitSlash_slash_append, splitSlash_joinNames front fun name mem => noSlash name (List.mem_append_left _ mem),
    splitSlash_joinNames back fun name mem => noSlash name (List.mem_append_right _ mem),
    List.cons_append, List.cons.injEq] at split
  exact ⟨_, split.2.symm⟩

/-- Positions below one start have distinct pathnames. -/
theorem pathAt_inj {p : Path} {front back : List Path} (endOk : p.getLast? ≠ some '/')
    (valid : ∀ name ∈ front ++ back, validName name = true) (same : pathAt p front = pathAt p back) :
    front = back := by
  rw [pathAt_eq_join endOk fun name member => valid name (List.mem_append_left _ member),
    pathAt_eq_join endOk fun name member => valid name (List.mem_append_right _ member),
    List.append_cancel_left_eq] at same
  exact joinNames_inj (fun name member => (validName_spec (valid name member)).2.1) same

/-! Positions and the directories they lead to. -/

@[simp] theorem Dir.find?_nil (dir : Dir) : dir.find? [] = some dir := by
  cases dir
  rfl

theorem mem_entriesPositions {entries : List (Path × Dir)} {entry : List Path × Ino} :
    entry ∈ entriesPositions entries ↔
      ∃ name child rest, (name, child) ∈ entries ∧ (rest, entry.2) ∈ child.positions ∧
        entry.1 = name :: rest := by
  induction entries with
  | nil => simp [entriesPositions]
  | cons head more ih =>
    obtain ⟨name, child⟩ := head
    simp only [entriesPositions, List.mem_append, List.mem_map, ih, List.mem_cons, Prod.mk.injEq]
    constructor
    · rintro (⟨⟨rest, ino⟩, member, rfl⟩ | ⟨n, c, rest, member, found, named⟩)
      · exact ⟨name, child, rest, .inl ⟨rfl, rfl⟩, member, rfl⟩
      · exact ⟨n, c, rest, .inr member, found, named⟩
    · rintro ⟨n, c, rest, ⟨rfl, rfl⟩ | member, found, named⟩
      · exact .inl ⟨(rest, entry.2), found, Prod.ext named.symm rfl⟩
      · exact .inr ⟨n, c, rest, member, found, named⟩

theorem mem_positions_of_find? : ∀ (names : List Path) (dir found : Dir),
    dir.find? names = some found → (names, found.ino) ∈ dir.positions
  | [], .mk ino entries, found, hit => by
    simp only [Dir.find?, Option.some.injEq] at hit
    subst hit
    exact List.mem_cons_self _ _
  | name :: rest, .mk ino entries, found, hit => by
    simp only [Dir.find?] at hit
    split at hit
    · next child looked =>
      exact List.mem_cons_of_mem _ (mem_entriesPositions.mpr
        ⟨name, child, rest, mem_of_lookup looked, mem_positions_of_find? rest child found hit, rfl⟩)
    · cases hit

theorem find?_of_mem_positions : ∀ (names : List Path) (dir : Dir) (ino : Ino), dir.wellFormed = true →
    (names, ino) ∈ dir.positions → ∃ found, dir.find? names = some found ∧ found.ino = ino
  | names, .mk top entries, ino, wf, member => by
    rcases List.mem_cons.mp member with same | deeper
    · cases same
      exact ⟨_, rfl, rfl⟩
    · obtain ⟨name, child, rest, inEntries, found, rfl⟩ := mem_entriesPositions.mp deeper
      simp only [Dir.wellFormed, Bool.and_eq_true, decide_eq_true_eq] at wf
      have childWf := ((entriesWellFormed_iff entries).mp wf.2 _ inEntries).2
      obtain ⟨dir, hit, same⟩ := find?_of_mem_positions rest child ino childWf found
      exact ⟨dir, by simp [Dir.find?, lookup_of_mem wf.1 inEntries, hit], same⟩

mutual
/-- The names along every position of a well-formed tree are valid. -/
theorem Dir.positions_valid : ∀ (dir : Dir), dir.wellFormed = true →
    ∀ entry ∈ dir.positions, ∀ name ∈ entry.1, validName name = true
  | .mk ino entries, wf, entry, member, name, named => by
    rcases List.mem_cons.mp member with rfl | deeper
    · cases named
    · simp only [Dir.wellFormed, Bool.and_eq_true] at wf
      exact entriesPositions_valid entries wf.2 entry deeper name named

theorem entriesPositions_valid : ∀ (entries : List (Path × Dir)), entriesWellFormed entries = true →
    ∀ entry ∈ entriesPositions entries, ∀ name ∈ entry.1, validName name = true
  | [], _, _, member, _, _ => by cases member
  | (first, child) :: rest, wf, entry, member, name, named => by
    simp only [entriesWellFormed, Bool.and_eq_true] at wf
    rcases List.mem_append.mp member with here | later
    · obtain ⟨⟨names, ino⟩, found, rfl⟩ := List.mem_map.mp here
      rcases List.mem_cons.mp named with rfl | inner
      · exact wf.1.1
      · exact Dir.positions_valid child wf.1.2 _ found name inner
    · exact entriesPositions_valid rest wf.2 entry later name named
end

/-- With no inode reported twice, the walks report every callback as the first for its
directory. -/
theorem firstPerIno_of_nodup : ∀ (seen : List Ino) (entries : List (Path × Ino)),
    (entries.map Prod.snd).Nodup → (∀ entry ∈ entries, entry.2 ∉ seen) → firstPerIno seen entries = entries
  | _, [], _, _ => rfl
  | seen, entry :: rest, distinct, fresh => by
    rw [List.map_cons, List.nodup_cons] at distinct
    rw [firstPerIno, if_neg (fresh entry (List.mem_cons_self _ _)),
      firstPerIno_of_nodup _ rest distinct.2 fun other member => ?_]
    rw [List.mem_cons, not_or]
    exact ⟨fun same => distinct.1 (same ▸ List.mem_map_of_mem _ member),
      fresh other (List.mem_cons_of_mem _ member)⟩

/-! Changing the subtree at a position: the positions outside it are a remainder that
the trees before and after share. -/

/-- The entries of a directory around the one named `name`. -/
theorem entries_split {entries : List (Path × Dir)} {name : Path} {child : Dir}
    (distinct : (entries.map Prod.fst).Nodup) (looked : entries.lookup name = some child) :
    ∃ front back, entries = front ++ (name, child) :: back ∧ ∀ entry ∈ front ++ back, entry.1 ≠ name := by
  obtain ⟨front, back, split⟩ := List.append_of_mem (mem_of_lookup looked)
  refine ⟨front, back, split, fun entry member same => ?_⟩
  subst split
  rw [List.map_append, List.map_cons, List.nodup_append, List.nodup_cons] at distinct
  rcases List.mem_append.mp member with inFront | inBack
  · exact distinct.2.2 (List.mem_map_of_mem _ inFront) (by simp [same])
  · have named := List.mem_map_of_mem Prod.fst inBack
    rw [same] at named
    exact distinct.2.1.1 named

theorem not_prefix_of_other_entry {entries : List (Path × Dir)} {name : Path} {more : List Path}
    (others : ∀ entry ∈ entries, entry.1 ≠ name) :
    ∀ entry ∈ entriesPositions entries, ¬ (name :: more) <+: entry.1 := by
  intro entry member prefixed
  obtain ⟨n, child, rest, inEntries, -, named⟩ := mem_entriesPositions.mp member
  rw [named, List.cons_prefix_cons] at prefixed
  exact others _ inEntries prefixed.1.symm

/-- The positions of a tree in which the subtree at `names` is replaced by `f` of it. -/
theorem Dir.modify_positions (f : Dir → Dir) : ∀ (names : List Path) (dir dir' : Dir),
    dir.wellFormed = true → dir.modify names f = some dir' →
      ∃ sub rest, dir.find? names = some sub ∧
        dir.positions.Perm (sub.positions.map (below names) ++ rest) ∧
        dir'.positions.Perm ((f sub).positions.map (below names) ++ rest) ∧
        ∀ entry ∈ rest, ¬ names <+: entry.1
  | [], .mk ino entries, dir', _, changed => by
    simp only [Dir.modify, Option.some.injEq] at changed
    subst changed
    exact ⟨_, [], rfl, by simp [Dir.positions], by simp, by simp⟩
  | name :: more, .mk ino entries, dir', wf, changed => by
    simp only [Dir.modify] at changed
    split at changed
    · next child looked =>
      obtain ⟨child', deeper, rfl⟩ := Option.map_eq_some'.mp changed
      simp only [Dir.wellFormed, Bool.and_eq_true, decide_eq_true_eq] at wf
      have childWf := ((entriesWellFormed_iff entries).mp wf.2 _ (mem_of_lookup looked)).2
      obtain ⟨sub, rest, found, before, after, outside⟩ :=
        Dir.modify_positions f more child child' childWf deeper
      obtain ⟨front, back, rfl, others⟩ := entries_split wf.1 looked
      have replaced : (front ++ (name, child) :: back).map
          (fun entry => if entry.1 = name then (name, child') else entry) =
          front ++ (name, child') :: back := by
        rw [List.map_append, List.map_cons, if_pos rfl,
          List.map_congr_left fun entry member => if_neg (others entry (List.mem_append_left _ member)),
          List.map_congr_left fun entry member => if_neg (others entry (List.mem_append_right _ member))]
        simp
      have shift : ∀ tree : Dir, (tree.positions.map (below more)).map (below [name]) =
          tree.positions.map (below (name :: more)) := fun tree => by
        simp [Function.comp_def, below_below]
      have regroup : ∀ middle : List (List Path × Ino),
          (([], ino) :: (entriesPositions front ++ (middle ++ rest.map (below [name])) ++
            entriesPositions back)).Perm
          (middle ++ ([], ino) :: (entriesPositions front ++ rest.map (below [name]) ++
            entriesPositions back)) := fun middle => by
        rw [List.perm_iff_count]
        intro x
        simp only [List.count_cons, List.count_append]
        omega
      refine ⟨sub, ([], ino) :: (entriesPositions front ++ rest.map (below [name]) ++
        entriesPositions back), by simp [Dir.find?, looked, found], ?_, ?_, ?_⟩
      · rw [Dir.positions, entriesPositions_append, entriesPositions, ← List.append_assoc]
        refine List.Perm.trans ?_ (regroup _)
        refine .cons _ (.append (.append_left _ ?_) (.refl _))
        simpa [shift] using before.map (below [name])
      · rw [replaced, Dir.positions, entriesPositions_append, entriesPositions, ← List.append_assoc]
        refine List.Perm.trans ?_ (regroup _)
        refine .cons _ (.append (.append_left _ ?_) (.refl _))
        simpa [shift] using after.map (below [name])
      · intro entry member prefixed
        rcases List.mem_cons.mp member with rfl | deeper
        · exact List.cons_ne_nil _ _ (List.prefix_nil.mp prefixed)
        rcases List.mem_append.mp deeper with inner | inBack
        · rcases List.mem_append.mp inner with inFront | moved
          · exact not_prefix_of_other_entry (fun e m => others e (List.mem_append_left _ m))
              entry inFront prefixed
          · obtain ⟨e, inRest, rfl⟩ := List.mem_map.mp moved
            exact outside e inRest (List.cons_prefix_cons.mp prefixed).2
        · exact not_prefix_of_other_entry (fun e m => others e (List.mem_append_right _ m))
            entry inBack prefixed
    · cases changed

theorem Dir.addEntry_positions (name : Path) (child dir : Dir) :
    (Dir.addEntry name child dir).positions = dir.positions ++ child.positions.map (below [name]) := by
  obtain ⟨ino, entries⟩ := dir
  simp [Dir.addEntry, Dir.positions, entriesPositions_append, entriesPositions]

/-- Removing the entry `name`: its subtree's positions go, and no position left starts
with `name`. -/
theorem Dir.removeEntry_positions {dir : Dir} {name : Path} {child : Dir} (wf : dir.wellFormed = true)
    (looked : dir.entries.lookup name = some child) :
    dir.positions.Perm ((dir.removeEntry name).positions ++ child.positions.map (below [name])) ∧
      ∀ entry ∈ (dir.removeEntry name).positions, ¬ [name] <+: entry.1 := by
  obtain ⟨ino, entries⟩ := dir
  simp only [Dir.wellFormed, Bool.and_eq_true, decide_eq_true_eq] at wf
  obtain ⟨front, back, rfl, others⟩ := entries_split wf.1 looked
  have kept : (front ++ (name, child) :: back).filter (fun entry => entry.1 != name) = front ++ back := by
    rw [List.filter_append, List.filter_cons_of_neg (by simp), List.filter_eq_self.mpr,
      List.filter_eq_self.mpr]
    · exact fun entry member => bne_iff_ne.mpr (others entry (List.mem_append_right _ member))
    · exact fun entry member => bne_iff_ne.mpr (others entry (List.mem_append_left _ member))
  rw [Dir.removeEntry, kept]
  refine ⟨?_, fun entry member prefixed => ?_⟩
  · simp only [Dir.positions, entriesPositions_append, entriesPositions]
    rw [List.perm_iff_count]
    intro x
    simp only [List.count_cons, List.count_append]
    omega
  · rcases List.mem_cons.mp member with rfl | deeper
    · exact List.cons_ne_nil _ _ (List.prefix_nil.mp prefixed)
    · exact not_prefix_of_other_entry others entry deeper prefixed

theorem lookup_ne_none_of_mem {entries : List (Path × Dir)} {key : Path} {child : Dir}
    (member : (key, child) ∈ entries) : entries.lookup key ≠ none := by
  induction entries with
  | nil => cases member
  | cons head rest ih =>
    obtain ⟨k, v⟩ := head
    by_cases same : key = k
    · subst same
      simp [List.lookup_cons]
    · simp only [List.lookup_cons, beq_false_of_ne same]
      exact ih (by simpa [same] using member)

theorem Dir.removeEntry_of_lookup {dir : Dir} {name : Path} (missing : dir.entries.lookup name = none) :
    dir.removeEntry name = dir := by
  obtain ⟨ino, entries⟩ := dir
  simp only [Dir.removeEntry, Dir.mk.injEq, true_and, List.filter_eq_self, bne_iff_ne, ne_eq]
  rintro ⟨key, child⟩ member rfl
  exact lookup_ne_none_of_mem member missing

theorem lookup_replaced {entries : List (Path × Dir)} {name : Path} {child child' : Dir}
    (looked : entries.lookup name = some child) :
    (entries.map fun entry => if entry.1 = name then (name, child') else entry).lookup name = some child' := by
  induction entries with
  | nil => cases looked
  | cons head rest ih =>
    obtain ⟨key, value⟩ := head
    by_cases same : key = name
    · subst same
      simp only [List.map_cons, if_pos rfl]
      simp [List.lookup_cons]
    · have differs : (name == key) = false := beq_false_of_ne (Ne.symm same)
      simp only [List.lookup_cons, differs] at looked
      rw [List.map_cons, if_neg same]
      simp only [List.lookup_cons, differs]
      exact ih looked

/-- A change below `front` changes the subtree at `front`, which stays there. -/
theorem Dir.modify_append (f : Dir → Dir) : ∀ (front back : List Path) (dir dir' : Dir),
    dir.modify (front ++ back) f = some dir' →
      ∃ sub sub', dir.find? front = some sub ∧ sub.modify back f = some sub' ∧
        dir'.find? front = some sub'
  | [], _, dir, dir', changed => ⟨dir, dir', Dir.find?_nil dir, changed, Dir.find?_nil dir'⟩
  | name :: more, back, .mk ino entries, dir', changed => by
    simp only [List.cons_append, Dir.modify] at changed
    split at changed
    · next child looked =>
      obtain ⟨child', deeper, rfl⟩ := Option.map_eq_some'.mp changed
      obtain ⟨sub, sub', found, inner, found'⟩ := Dir.modify_append f more back child child' deeper
      exact ⟨sub, sub', by simp [Dir.find?, looked, found], inner,
        by simp [Dir.find?, lookup_replaced looked, found']⟩
    · cases changed

theorem lookup_replaced_other {entries : List (Path × Dir)} {name other : Path} {child' : Dir}
    (differs : other ≠ name) :
    (entries.map fun entry => if entry.1 = name then (name, child') else entry).lookup other =
      entries.lookup other := by
  induction entries with
  | nil => rfl
  | cons head rest ih =>
    obtain ⟨key, value⟩ := head
    by_cases same : key = name
    · subst same
      rw [List.map_cons, if_pos rfl]
      simp only [List.lookup_cons, beq_false_of_ne differs, ih]
    · rw [List.map_cons, if_neg same]
      simp only [List.lookup_cons]
      split <;> simp_all

/-- A change at `names` leaves the directory at a position neither above nor below it. -/
theorem Dir.find?_modify_other (f : Dir → Dir) : ∀ (names q : List Path) (dir dir' : Dir),
    dir.modify names f = some dir' → ¬ names <+: q → ¬ q <+: names → dir'.find? q = dir.find? q
  | [], _, _, _, _, notBelow, _ => absurd List.nil_prefix notBelow
  | _ :: _, [], _, _, _, _, notAbove => absurd List.nil_prefix notAbove
  | name :: more, n :: rest, .mk ino entries, dir', changed, notBelow, notAbove => by
    simp only [Dir.modify] at changed
    split at changed
    · next child looked =>
      obtain ⟨child', deeper, rfl⟩ := Option.map_eq_some'.mp changed
      by_cases same : n = name
      · subst same
        simp only [List.cons_prefix_cons, true_and] at notBelow notAbove
        simp only [Dir.find?, lookup_replaced looked, looked]
        exact Dir.find?_modify_other f more rest child child' deeper notBelow notAbove
      · simp only [Dir.find?, lookup_replaced_other same]
    · cases changed

/-- After a change at `names`, the directory there is `f` of the old one. -/
theorem Dir.find?_modify_self (f : Dir → Dir) : ∀ (names : List Path) (dir dir' : Dir),
    dir.modify names f = some dir' → ∃ sub, dir.find? names = some sub ∧ dir'.find? names = some (f sub)
  | [], dir, dir', changed => by
    cases dir
    simp only [Dir.modify, Option.some.injEq] at changed
    exact ⟨_, Dir.find?_nil _, changed ▸ Dir.find?_nil _⟩
  | name :: more, .mk ino entries, dir', changed => by
    simp only [Dir.modify] at changed
    split at changed
    · next child looked =>
      obtain ⟨child', deeper, rfl⟩ := Option.map_eq_some'.mp changed
      obtain ⟨sub, found, found'⟩ := Dir.find?_modify_self f more child child' deeper
      exact ⟨sub, by simp [Dir.find?, looked, found], by simp [Dir.find?, lookup_replaced looked, found']⟩
    · cases changed

theorem Dir.removeEntry_find?_other {dir : Dir} {name n : Path} (differs : n ≠ name) (rest : List Path) :
    (dir.removeEntry name).find? (n :: rest) = dir.find? (n :: rest) := by
  obtain ⟨ino, entries⟩ := dir
  have kept : (entries.filter fun entry => entry.1 != name).lookup n = entries.lookup n := by
    induction entries with
    | nil => rfl
    | cons head more ih =>
      obtain ⟨key, value⟩ := head
      by_cases same : key = name
      · subst same
        rw [List.filter_cons_of_neg (by simp), ih]
        simp [List.lookup_cons, beq_false_of_ne differs]
      · rw [List.filter_cons_of_pos (by simpa using same)]
        simp only [List.lookup_cons]
        split <;> simp_all
  simp only [Dir.removeEntry, Dir.find?, kept]

theorem Dir.modify_wellFormed {f : Dir → Dir} (keeps : ∀ sub, sub.wellFormed = true → (f sub).wellFormed = true) :
    ∀ (names : List Path) (dir dir' : Dir), dir.wellFormed = true → dir.modify names f = some dir' →
      dir'.wellFormed = true
  | [], .mk ino entries, dir', wf, changed => by
    simp only [Dir.modify, Option.some.injEq] at changed
    exact changed ▸ keeps _ wf
  | name :: more, .mk ino entries, dir', wf, changed => by
    simp only [Dir.modify] at changed
    split at changed
    · next child looked =>
      obtain ⟨child', deeper, rfl⟩ := Option.map_eq_some'.mp changed
      simp only [Dir.wellFormed, Bool.and_eq_true, decide_eq_true_eq] at wf ⊢
      have entriesWf := (entriesWellFormed_iff entries).mp wf.2
      have childWf := Dir.modify_wellFormed keeps more child child' (entriesWf _ (mem_of_lookup looked)).2 deeper
      refine ⟨?_, (entriesWellFormed_iff _).mpr fun entry member => ?_⟩
      · rw [List.map_map]
        convert wf.1 using 2
        funext entry
        by_cases same : entry.1 = name <;> simp [same]
      · obtain ⟨old, inEntries, rfl⟩ := List.mem_map.mp member
        by_cases same : old.1 = name
        · simp only [if_pos same]
          exact ⟨same ▸ (entriesWf old inEntries).1, childWf⟩
        · simp only [if_neg same]
          exact entriesWf old inEntries
    · cases changed

theorem Dir.removeEntry_wellFormed (name : Path) (dir : Dir) (wf : dir.wellFormed = true) :
    (dir.removeEntry name).wellFormed = true := by
  obtain ⟨ino, entries⟩ := dir
  simp only [Dir.wellFormed, Dir.removeEntry, Bool.and_eq_true, decide_eq_true_eq] at wf ⊢
  exact ⟨((List.filter_sublist _).map _).nodup wf.1, (entriesWellFormed_iff _).mpr fun entry member =>
    (entriesWellFormed_iff entries).mp wf.2 entry (List.mem_of_mem_filter member)⟩

/-! The three calls, below a directory `rootDir` at `top`. -/

theorem Fs.ofRoot_root {root : Dir} {fs : Fs} (made : Fs.ofRoot root = some fs) : fs.root = root := by
  unfold Fs.ofRoot at made
  split at made
  · cases made
    rfl
  · cases made

theorem find?_leaf (dir : Dir) (rel : List Path) (leaf : Path) :
    dir.find? (rel ++ [leaf]) = (dir.find? rel).bind fun parent => parent.entries.lookup leaf := by
  rw [Dir.find?_append]
  congr
  funext parent
  obtain ⟨ino, entries⟩ := parent
  cases looked : entries.lookup leaf <;> simp [Dir.find?, Dir.entries, looked]

/-- The positions of a tree under `names` are those of the subtree there, in order. -/
theorem Dir.positions_under : ∀ (names : List Path) (dir sub : Dir), dir.wellFormed = true →
    dir.find? names = some sub →
      dir.positions.filter (fun entry => names.isPrefixOf entry.1) = sub.positions.map (below names)
  | [], dir, sub, _, found => by
    rw [Dir.find?_nil, Option.some.injEq] at found
    subst found
    simp [List.filter_eq_self]
  | name :: more, .mk ino entries, sub, wf, found => by
    simp only [Dir.find?] at found
    split at found
    · next child looked =>
      simp only [Dir.wellFormed, Bool.and_eq_true, decide_eq_true_eq] at wf
      have childWf := ((entriesWellFormed_iff entries).mp wf.2 _ (mem_of_lookup looked)).2
      obtain ⟨front, back, rfl, others⟩ := entries_split wf.1 looked
      have apart : ∀ side, (∀ entry ∈ side, entry.1 ≠ name) →
          (entriesPositions side).filter (fun entry => (name :: more).isPrefixOf entry.1) = [] :=
        fun side named => List.filter_eq_nil_iff.mpr fun entry member prefixed =>
          not_prefix_of_other_entry named entry member (List.isPrefixOf_iff_prefix.mp prefixed)
      have inner : (child.positions.map (below [name])).filter (fun entry => (name :: more).isPrefixOf entry.1) =
          sub.positions.map (below (name :: more)) := by
        rw [List.filter_map]
        simp only [Function.comp_def, below, List.singleton_append, List.isPrefixOf_cons₂_self]
        rw [Dir.positions_under more child sub childWf found, List.map_map]
        rfl
      rw [Dir.positions, List.filter_cons_of_neg (by simp), entriesPositions_append, entriesPositions,
        List.filter_append, List.filter_append, inner,
        apart front fun entry member => others entry (List.mem_append_left _ member),
        apart back fun entry member => others entry (List.mem_append_right _ member)]
      simp
    · cases found

/-- Two trees whose positions differ by `gone` and `added`, none of `gone` at `names`,
and the directory at `names` in the first: it is in the second, and its positions differ by
those of `gone` and `added` under `names`. -/
theorem Dir.subtree_perm {dir dir' sub : Dir} {names : List Path} (wf : dir.wellFormed = true)
    (wf' : dir'.wellFormed = true) (found : dir.find? names = some sub) {gone added : List (List Path × Ino)}
    (kept : ∀ entry ∈ gone, entry.1 ≠ names) (changed : (dir'.positions ++ gone).Perm (dir.positions ++ added)) :
    ∃ sub', dir'.find? names = some sub' ∧
      (sub'.positions.map (below names) ++ gone.filter (fun entry => names.isPrefixOf entry.1)).Perm
        (sub.positions.map (below names) ++ added.filter (fun entry => names.isPrefixOf entry.1)) := by
  have present : (names, sub.ino) ∈ dir'.positions ++ gone :=
    changed.symm.subset (List.mem_append_left _ (mem_positions_of_find? names dir sub found))
  obtain ⟨sub', found', -⟩ := find?_of_mem_positions names dir' sub.ino wf'
    ((List.mem_append.mp present).resolve_right fun inGone => kept _ inGone rfl)
  refine ⟨sub', found', ?_⟩
  have filtered := changed.filter (fun entry => names.isPrefixOf entry.1)
  rwa [List.filter_append, List.filter_append, Dir.positions_under names dir' sub' wf' found',
    Dir.positions_under names dir sub wf found] at filtered

/-- Positions read back from under `names`. -/
theorem perm_of_below {names : List Path} {front back : List (List Path × Ino)}
    (shifted : (front.map (below names)).Perm (back.map (below names))) : front.Perm back := by
  simpa [Function.comp_def, below] using shifted.map fun entry => (entry.1.drop names.length, entry.2)

/-- `mkdir` of `top/rel/leaf`: one position added, at the end of the walk. -/
theorem Fs.mkdir_positions {fs fs' : Fs} {p : Path} {ino parent : Ino} {name : Path}
    {top rel : List Path} {leaf : Path} {rootDir : Dir} (found : fs.root.find? top = some rootDir)
    (placed : canonical p = top ++ (rel ++ [leaf])) (made : fs.mkdir p ino = some (fs', parent, name)) :
    name = leaf ∧ validName leaf = true ∧ (∃ dir, rootDir.find? rel = some dir ∧ dir.ino = parent) ∧
      rootDir.find? (rel ++ [leaf]) = none ∧
      ∃ rootDir', fs'.root.find? top = some rootDir' ∧ rootDir'.find? (rel ++ [leaf]) = some (.mk ino []) ∧
        rootDir'.positions.Perm (rootDir.positions ++ [(rel ++ [leaf], ino)]) := by
  simp only [Fs.mkdir, placed, ← List.append_assoc, List.getLast?_concat, List.dropLast_concat,
    Option.bind_eq_bind, Option.some_bind, Option.bind_eq_some] at made
  obtain ⟨dir, atRel, made⟩ := made
  split at made
  · next fresh =>
    simp only [Bool.and_eq_true, Option.isNone_iff_eq_none] at fresh
    simp only [Option.bind_eq_some, Option.pure_def, Option.some.injEq, Prod.mk.injEq] at made
    obtain ⟨root, changed, updated, made, rfl, rfl, rfl⟩ := made
    rw [Dir.find?_append, found, Option.some_bind] at atRel
    rw [Fs.ofRoot_root made]
    have wf := Dir.find?_wellFormed fs.root top rootDir fs.wellFormed found
    obtain ⟨sub, sub', atTop, inner, atTop'⟩ := Dir.modify_append _ top rel fs.root root changed
    rw [found, Option.some.injEq] at atTop
    subst atTop
    obtain ⟨parentDir, rest, atRel', before, after, -⟩ := Dir.modify_positions _ rel _ _ wf inner
    rw [atRel, Option.some.injEq] at atRel'
    subst atRel'
    refine ⟨rfl, fresh.1, ⟨_, atRel, rfl⟩, by simp [find?_leaf, atRel, fresh.2], sub', atTop', ?_, ?_⟩
    · obtain ⟨parentDir', atRel'', atNew⟩ := Dir.find?_modify_self _ rel _ _ inner
      rw [atRel, Option.some.injEq] at atRel''
      subst atRel''
      obtain ⟨parentIno, entries⟩ := dir
      simp only [Dir.entries] at fresh
      rw [find?_leaf, atNew, Option.some_bind]
      simp [Dir.addEntry, Dir.entries, List.lookup_append, fresh.2, List.lookup_cons]
    refine after.trans ?_
    rw [Dir.addEntry_positions, List.map_append]
    refine List.Perm.trans ?_ (before.append_right _).symm
    simp only [Dir.positions, entriesPositions, List.map_cons, List.map_nil, below, List.append_nil,
      List.append_assoc]
    exact List.perm_append_comm.append_left _
  · cases made

/-- `rmdir` of the empty directory at `top/rel/leaf`: its one position goes. -/
theorem Fs.rmdir_positions {fs fs' : Fs} {p : Path} {gone : Ino} {top rel : List Path} {leaf : Path}
    {rootDir : Dir} (found : fs.root.find? top = some rootDir) (placed : canonical p = top ++ (rel ++ [leaf]))
    (removed : fs.rmdir p = some (fs', gone)) :
    ∃ rootDir', fs'.root.find? top = some rootDir' ∧
      rootDir.positions.Perm (rootDir'.positions ++ [(rel ++ [leaf], gone)]) := by
  simp only [Fs.rmdir, placed, ← List.append_assoc, List.getLast?_concat, List.dropLast_concat,
    Option.bind_eq_bind, Option.some_bind, Option.bind_eq_some] at removed
  obtain ⟨target, atTarget, removed⟩ := removed
  split at removed
  · next empty =>
    simp only [Option.bind_eq_some, Option.pure_def, Option.some.injEq, Prod.mk.injEq] at removed
    obtain ⟨root, changed, updated, made, rfl, rfl⟩ := removed
    rw [Fs.ofRoot_root made]
    have wf := Dir.find?_wellFormed fs.root top rootDir fs.wellFormed found
    obtain ⟨sub, sub', atTop, inner, atTop'⟩ := Dir.modify_append _ top rel fs.root root changed
    rw [found, Option.some.injEq] at atTop
    subst atTop
    obtain ⟨parentDir, rest, atRel, before, after, -⟩ := Dir.modify_positions _ rel _ _ wf inner
    rw [List.append_assoc, Dir.find?_append, found, Option.some_bind, find?_leaf, atRel,
      Option.some_bind] at atTarget
    have parentWf := Dir.find?_wellFormed rootDir rel parentDir wf atRel
    obtain ⟨split, -⟩ := Dir.removeEntry_positions parentWf atTarget
    obtain ⟨ino, entries⟩ := target
    simp only [Dir.entries, List.isEmpty_iff] at empty
    subst empty
    refine ⟨sub', atTop', before.trans ?_⟩
    refine List.Perm.trans ((split.map (below rel)).append_right _) ?_
    refine List.Perm.trans ?_ ((after.append_right _).symm)
    simp only [Dir.positions, entriesPositions, List.map_append, List.map_cons, List.map_nil, below,
      List.append_nil, List.append_assoc]
    exact List.perm_append_comm.append_left _
  · cases removed

/-- `rename` of `top/srel/sleaf` to `top/drel/dleaf`: the moved subtree's positions
leave `srel/sleaf` for `drel/dleaf`, and the empty directory it replaces, if any, goes.
`rest` holds the positions outside the moved subtree. -/
theorem Fs.rename_positions {fs fs' : Fs} {src dst : Path} {r : Renamed} {top srel drel : List Path}
    {sleaf dleaf : Path} {rootDir : Dir} (found : fs.root.find? top = some rootDir)
    (fromPlaced : canonical src = top ++ (srel ++ [sleaf]))
    (toPlaced : canonical dst = top ++ (drel ++ [dleaf]))
    (renamed : fs.rename src dst = some (fs', r)) :
    validName dleaf = true ∧ ¬ (srel ++ [sleaf]) <+: (drel ++ [dleaf]) ∧
      ∃ fromDir toDir moved, rootDir.find? srel = some fromDir ∧ rootDir.find? drel = some toDir ∧
        rootDir.find? (srel ++ [sleaf]) = some moved ∧
        r = ⟨fromDir.ino, sleaf, toDir.ino, dleaf, moved.ino,
          (rootDir.find? (drel ++ [dleaf])).map Dir.ino⟩ ∧
        ∃ rootDir' rest, fs'.root.find? top = some rootDir' ∧
          rootDir.positions.Perm (rest ++ moved.positions.map (below (srel ++ [sleaf]))) ∧
          (∀ entry ∈ rest, ¬ (srel ++ [sleaf]) <+: entry.1) ∧
          (rootDir'.positions ++
            ((rootDir.find? (drel ++ [dleaf])).map fun old => (drel ++ [dleaf], old.ino)).toList).Perm
            (rest ++ moved.positions.map (below (drel ++ [dleaf]))) := by
  simp only [Fs.rename, fromPlaced, toPlaced, ← List.append_assoc, List.getLast?_concat,
    List.dropLast_concat, Option.bind_eq_bind, Option.some_bind, Option.bind_eq_some] at renamed
  obtain ⟨moved, atMoved, fromDir, atFrom, toDir, atTo, renamed⟩ := renamed
  split at renamed
  · next allowed =>
    simp only [Option.bind_eq_some, Option.pure_def, Option.some.injEq, Prod.mk.injEq] at renamed
    obtain ⟨root1, removed, root2, added, updated, made, rfl, rfl⟩ := renamed
    simp only [Bool.and_eq_true, Bool.not_eq_true'] at allowed
    obtain ⟨⟨valid, notPrefix⟩, emptyTarget⟩ := allowed
    rw [Dir.find?_append, found, Option.some_bind] at atFrom atTo
    rw [List.append_assoc, Dir.find?_append, found, Option.some_bind] at atMoved
    have target : rootDir.find? (drel ++ [dleaf]) = toDir.entries.lookup dleaf := by
      rw [find?_leaf, atTo, Option.some_bind]
    have notBelow : ¬ (srel ++ [sleaf]) <+: (drel ++ [dleaf]) := fun prefixed => by
      have lifted := (List.prefix_append_right_inj top).mpr prefixed
      rw [← List.isPrefixOf_iff_prefix, ← List.append_assoc, ← List.append_assoc, notPrefix] at lifted
      cases lifted
    have notAbove : ¬ (drel ++ [dleaf]) <+: (srel ++ [sleaf]) := by
      rintro ⟨extra, split⟩
      cases extra with
      | nil =>
        rw [List.append_nil] at split
        exact notBelow ⟨[], by rw [List.append_nil, split]⟩
      | cons n more =>
        rw [← split, Dir.find?_append, Option.bind_eq_some] at atMoved
        obtain ⟨old, atOld, deeper⟩ := atMoved
        rw [target] at atOld
        rw [atOld, Option.all_some] at emptyTarget
        obtain ⟨ino, entries⟩ := old
        simp only [Dir.entries, List.isEmpty_iff] at emptyTarget
        subst emptyTarget
        simp [Dir.find?] at deeper
    refine ⟨valid, notBelow, fromDir, toDir, moved, atFrom, atTo, atMoved, by rw [target], ?_⟩
    rw [Fs.ofRoot_root made]
    have wf := Dir.find?_wellFormed fs.root top rootDir fs.wellFormed found
    obtain ⟨sub, rootDir1, atTop, inner1, atTop1⟩ := Dir.modify_append _ top srel fs.root root1 removed
    rw [found, Option.some.injEq] at atTop
    subst atTop
    obtain ⟨fromDir', rest1, atFrom', before1, after1, outside1⟩ :=
      Dir.modify_positions _ srel _ _ wf inner1
    rw [atFrom, Option.some.injEq] at atFrom'
    subst atFrom'
    have looked : fromDir.entries.lookup sleaf = some moved := by
      rwa [find?_leaf, atFrom, Option.some_bind] at atMoved
    obtain ⟨split1, outside1'⟩ :=
      Dir.removeEntry_positions (Dir.find?_wellFormed rootDir srel fromDir wf atFrom) looked
    have shift : ∀ tree : Dir, (tree.positions.map (below [sleaf])).map (below srel) =
        tree.positions.map (below (srel ++ [sleaf])) := fun tree => by
      simp [Function.comp_def, below_below]
    -- the tree without the moved subtree
    have pos1 : rootDir.positions.Perm
        (rootDir1.positions ++ moved.positions.map (below (srel ++ [sleaf]))) := by
      refine before1.trans (((split1.map (below srel)).append_right _).trans ?_)
      refine List.Perm.trans ?_ ((after1.append_right _).symm)
      rw [List.map_append, shift]
      rw [List.perm_iff_count]
      intro x
      simp only [List.count_append]
      omega
    have outside : ∀ entry ∈ rootDir1.positions, ¬ (srel ++ [sleaf]) <+: entry.1 := by
      intro entry member prefixed
      rcases List.mem_append.mp (after1.subset member) with inner | other
      · obtain ⟨e, kept, rfl⟩ := List.mem_map.mp inner
        exact outside1' e kept ((List.prefix_append_right_inj srel).mp prefixed)
      · exact outside1 entry other ((List.prefix_append srel [sleaf]).trans prefixed)
    -- the directory at the destination is the one before the call
    have target1 : rootDir1.find? (drel ++ [dleaf]) = rootDir.find? (drel ++ [dleaf]) := by
      by_cases under : srel <+: (drel ++ [dleaf])
      · obtain ⟨q, split⟩ := under
        cases q with
        | nil => exact absurd ⟨[sleaf], by rw [← split, List.append_nil]⟩ notAbove
        | cons n more =>
          have differs : n ≠ sleaf := fun same => notBelow ⟨more, by rw [← split, same]; simp⟩
          obtain ⟨sub, atSub, atSub'⟩ := Dir.find?_modify_self _ srel rootDir rootDir1 inner1
          rw [← split, Dir.find?_append, Dir.find?_append, atSub, atSub', Option.some_bind,
            Option.some_bind, Dir.removeEntry_find?_other differs]
      · exact Dir.find?_modify_other _ srel (drel ++ [dleaf]) rootDir rootDir1 inner1 under
          fun above => notAbove (above.trans (List.prefix_append srel [sleaf]))
    obtain ⟨sub, rootDir2, atTop1', inner2, atTop2⟩ := Dir.modify_append _ top drel root1 root2 added
    rw [atTop1, Option.some.injEq] at atTop1'
    subst atTop1'
    have wf1 := Dir.modify_wellFormed (fun sub wf => Dir.removeEntry_wellFormed _ sub wf) srel _ _ wf inner1
    obtain ⟨toDir1, rest2, atTo1, before2, after2, -⟩ := Dir.modify_positions _ drel _ _ wf1 inner2
    have looked1 : toDir1.entries.lookup dleaf = rootDir.find? (drel ++ [dleaf]) := by
      rw [← target1, find?_leaf, atTo1, Option.some_bind]
    rw [Dir.addEntry_positions, List.map_append] at after2
    have shift' : (moved.positions.map (below [dleaf])).map (below drel) =
        moved.positions.map (below (drel ++ [dleaf])) := by
      simp [Function.comp_def, below_below]
    rw [shift'] at after2
    refine ⟨rootDir2, rootDir1.positions, atTop2, pos1, outside, ?_⟩
    cases replaced : rootDir.find? (drel ++ [dleaf]) with
    | none =>
      rw [replaced] at looked1
      rw [Dir.removeEntry_of_lookup looked1] at after2
      refine ((after2.append_right _).trans ?_)
      refine List.Perm.trans ?_ ((before2.append_right _).symm)
      rw [List.perm_iff_count]
      intro x
      simp only [Option.map_none', Option.toList_none, List.count_append, List.count_nil]
      omega
    | some old =>
      rw [replaced] at looked1 target
      rw [← target, Option.all_some] at emptyTarget
      obtain ⟨split2, -⟩ := Dir.removeEntry_positions
        (Dir.find?_wellFormed rootDir1 drel toDir1 wf1 atTo1) looked1
      obtain ⟨ino, entries⟩ := old
      simp only [Dir.entries, List.isEmpty_iff] at emptyTarget
      subst emptyTarget
      refine ((after2.append_right _).trans ?_)
      refine List.Perm.trans ?_ ((before2.trans (((split2.map (below drel)).append_right _))).append_right _).symm
      simp only [Dir.positions, entriesPositions, List.map_append, List.map_cons, List.map_nil,
        below, List.append_nil, Option.map_some', Option.toList_some, Dir.ino]
      rw [List.perm_iff_count]
      intro x
      simp only [List.count_append, List.count_cons, List.count_nil]
      omega
  · cases renamed

end InotifyDtree
