import Xv6.Fs.Sequential

namespace Xv6.Fs.Paths

open Inodes (IBLOCK Dinode dinode T_DIR NDIRECT slotOf addr Covers setInode)
open Dirents (DIRSIZ literal slash element skipelem slots nameOf Aligned locate nameOf_skipelem)
open Calls (Prog remaining iunlockput namexLoop namexEnd namex namei nameiparent)
open Xv6.Fs.Sequential
open Function

/-!
# Path names

`skipelem`, called until nothing is left, takes the components of a path one by
one.  `namex` looks each of them up in the inode it has, which it locks for that.
It has one reference at a time: what it returns is the only inode with a
reference more than before.

An entry may name an inode that has been freed, as the entry `..` of a directory
that was removed while a process was in it.  `ilock` of such an inode panics.
So does `iget` of an inode that the table has no entry for.
-/

/-! ## Components -/

/-- The string at a pointer. -/
def string (path : List Byte) : List Byte := path.takeWhile fun b => b ≠ 0#8

/-- What is between slashes and not empty, cut to the size of a name. -/
def components (path : List Byte) : List Name :=
  ((path.splitOn slash).filter fun part => part ≠ []).map fun part => part.take DIRSIZ

variable {path : List Byte} {s : Sys} {i : Nat}

theorem remaining_lt (some : element path ≠ []) : (remaining path).length < path.length := by
  have whole := (List.dropWhile_sublist (fun b => decide (b = slash)) (l := path)).length_le
  have split := congrArg List.length (List.takeWhile_append_dropWhile
    (p := fun b => decide (b ≠ slash /\ b ≠ 0#8)) (l := path.dropWhile fun b => b = slash))
  have rest := (List.dropWhile_sublist (fun b => decide (b = slash))
    (l := (path.dropWhile fun b => b = slash).dropWhile fun b => b ≠ slash /\ b ≠ 0#8)).length_le
  have pos := List.length_pos_iff.mpr some
  rw [List.length_append] at split
  unfold element at pos
  unfold remaining
  omega

theorem skipelem_eq_none {name : Nat -> Byte} :
    skipelem path name = none <-> element path = [] := by
  unfold skipelem
  dsimp only
  split
  next none => exact ⟨fun _ => none, fun _ => rfl⟩
  next some =>
    split
    next => exact ⟨fun impossible => (by cases impossible), fun none => absurd none some⟩
    next => exact ⟨fun impossible => (by cases impossible), fun none => absurd none some⟩

theorem element_of_skipelem {name field : Nat -> Byte} (found : skipelem path name = some field) :
    element path ≠ [] := by
  intro none
  rw [skipelem_eq_none.mpr none] at found
  cases found

/-- The names that `skipelem` leaves, one call after the other. -/
def elements (path : List Byte) (name : Nat -> Byte) : List Name :=
  match _found : skipelem path name with
  | none => []
  | some field => nameOf field :: elements (remaining path) field
termination_by path.length
decreasing_by exact remaining_lt (element_of_skipelem _found)

theorem elements_none {name : Nat -> Byte} (done : skipelem path name = none) :
    elements path name = [] := by
  rw [elements]
  split
  next => rfl
  next found =>
    rw [done] at found
    cases found

theorem elements_some {name field : Nat -> Byte} (found : skipelem path name = some field) :
    elements path name = nameOf field :: elements (remaining path) field := by
  rw [elements]
  split
  next done =>
    rw [found] at done
    cases done
  next same =>
    rw [found] at same
    cases same
    rfl

/-! ### What is between the slashes -/

theorem elements_eq_nil {name : Nat -> Byte} :
    elements path name = [] <-> skipelem path name = none := by
  refine ⟨fun empty => ?_, elements_none⟩
  cases found : skipelem path name with
  | none => rfl
  | some field =>
    rw [elements_some found] at empty
    cases empty

theorem components_nil : components [] = [] := by decide

theorem components_slash (path : List Byte) : components (slash :: path) = components path := by
  unfold components List.splitOn
  have none : ∀ b : Byte, b ∈ [] -> (b == slash) = false := fun b listed => (List.not_mem_nil listed).elim
  have first := List.splitOnP_append_cons_of_forall_mem (p := fun b => b == slash) none slash
    (beq_self_eq_true slash) path
  rw [List.nil_append] at first
  rw [first, List.filter_cons_of_neg (by simp)]

variable {word : List Byte}

theorem components_word (some : word ≠ []) (plain : ∀ b, b ∈ word -> b ≠ slash) :
    components word = [word.take DIRSIZ] := by
  unfold components List.splitOn
  rw [List.splitOnP_eq_singleton (fun b listed => beq_eq_false_iff_ne.mpr (plain b listed)),
    List.filter_cons_of_pos (by simpa using some)]
  rfl

theorem components_word_slash (some : word ≠ []) (plain : ∀ b, b ∈ word -> b ≠ slash)
    (path : List Byte) :
    components (word ++ slash :: path) = word.take DIRSIZ :: components path := by
  unfold components List.splitOn
  rw [List.splitOnP_append_cons_of_forall_mem
    (fun b listed => beq_eq_false_iff_ne.mpr (plain b listed)) slash
    (beq_self_eq_true slash), List.filter_cons_of_pos (by simpa using some)]
  rfl

theorem string_cons {b : Byte} (used : b ≠ 0#8) (path : List Byte) :
    string (b :: path) = b :: string path :=
  List.takeWhile_cons_of_pos (by simpa using used)

/-- Slashes in front do not count. -/
theorem components_dropSlashes (path : List Byte) :
    components (string (path.dropWhile fun b => b = slash)) = components (string path) := by
  induction path with
  | nil => rfl
  | cons b rest ih =>
    by_cases here : b = slash
    · rw [List.dropWhile_cons_of_pos (by simpa using here), ih, here, string_cons (by decide),
        components_slash]
    · rw [List.dropWhile_cons_of_neg (by simpa using here)]

/-- A word in front is the first component. -/
theorem string_append (used : ∀ b, b ∈ word -> b ≠ 0#8) (path : List Byte) :
    string (word ++ path) = word ++ string path :=
  List.takeWhile_append_of_pos fun b listed => by simpa using used b listed

theorem components_string (path : List Byte) : components (string path) =
    if element path = [] then []
    else (element path).take DIRSIZ :: components (string (remaining path)) := by
  rw [<- components_dropSlashes path, element, remaining,
    components_dropSlashes ((path.dropWhile fun b => b = slash).dropWhile fun b => b ≠ slash /\ b ≠ 0#8)]
  have split := List.takeWhile_append_dropWhile (p := fun b => decide (b ≠ slash /\ b ≠ 0#8))
    (l := path.dropWhile fun b => b = slash)
  have start := List.head?_dropWhile_not (fun b => decide (b = slash)) path
  have stop := List.head?_dropWhile_not (fun b => decide (b ≠ slash /\ b ≠ 0#8))
      (path.dropWhile fun b => b = slash)
  have letters : ∀ b, b ∈ (path.dropWhile fun b => b = slash).takeWhile (fun b => b ≠ slash /\ b ≠ 0#8) ->
      b ≠ slash /\ b ≠ 0#8 := by
    intro b listed
    have kept := List.mem_takeWhile_imp listed
    exact of_decide_eq_true kept
  generalize path.dropWhile (fun b => b = slash) = rest at split start stop letters ⊢
  generalize rest.takeWhile (fun b => decide (b ≠ slash /\ b ≠ 0#8)) = word at split letters ⊢
  generalize rest.dropWhile (fun b => decide (b ≠ slash /\ b ≠ 0#8)) = after at split stop ⊢
  by_cases none : word = []
  · rw [if_pos none]
    rw [none, List.nil_append] at split
    subst split
    cases after with
    | nil => rfl
    | cons b more =>
      have notSlash : b ≠ slash := by simpa using start
      have zero : b = 0#8 := by simpa [notSlash] using stop
      rw [string, List.takeWhile_cons_of_neg (by simpa using zero)]
      exact components_nil
  · rw [if_neg none, <- split, string_append fun b listed => (letters b listed).2]
    cases after with
    | nil =>
      have empty : string [] = [] := rfl
      rw [empty, List.append_nil, components_word none fun b listed => (letters b listed).1,
        components_nil]
    | cons b more =>
      by_cases here : b = slash
      · rw [here, string_cons (by decide),
          components_word_slash none (fun b listed => (letters b listed).1), components_slash]
      · have zero : b = 0#8 := by simpa [here] using stop
        have empty : string (b :: more) = [] := List.takeWhile_cons_of_neg (by simpa using zero)
        rw [empty, List.append_nil, components_word none fun b listed => (letters b listed).1,
          components_nil]

/-- `skipelem` yields the components. -/
theorem elements_eq (n : Nat) : ∀ (path : List Byte) (name : Nat -> Byte), path.length <= n ->
    elements path name = components (string path) := by
  induction n with
  | zero =>
    intro path name short
    cases List.length_eq_zero_iff.mp (Nat.le_zero.mp short)
    rw [elements_none (skipelem_eq_none.mpr rfl)]
    exact components_nil.symm
  | succ n ih =>
    intro path name short
    rw [components_string]
    cases found : skipelem path name with
    | none => rw [elements_none found, if_pos (skipelem_eq_none.mp found)]
    | some field =>
      have some := element_of_skipelem found
      have shorter := remaining_lt some
      rw [elements_some found, if_neg some, nameOf_skipelem found,
        ih (remaining path) field (by omega)]

/-- `skipelem` leaves the path at its end exactly after the last component. -/
theorem remaining_end (path : List Byte) :
    (remaining path).headD 0#8 = 0#8 <-> element (remaining path) = [] := by
  have start := List.head?_dropWhile_not (fun b => decide (b = slash))
    ((path.dropWhile fun b => b = slash).dropWhile fun b => b ≠ slash /\ b ≠ 0#8)
  unfold element
  cases here : remaining path with
  | nil => exact ⟨fun _ => rfl, fun _ => rfl⟩
  | cons b rest =>
    unfold remaining at here
    rw [here] at start
    have plain : b ≠ slash := of_decide_eq_false start
    rw [List.dropWhile_cons_of_neg (by simpa using plain)]
    by_cases zero : b = 0#8
    · rw [List.takeWhile_cons_of_neg (by simp [zero])]
      exact ⟨fun _ => rfl, fun _ => zero⟩
    · rw [List.takeWhile_cons_of_pos (by simp [zero, plain])]
      exact ⟨fun same => absurd same zero, fun impossible => by cases impossible⟩

/-! ## The inodes on the way -/

/-- What inode `i` is, in memory or on the disk. -/
def current (s : Sys) (i : Nat) : Dinode :=
  if 0 < s.ref i /\ s.valid i = true then s.fs.inode i else dinode s.fs.disk i

/-- The entries of a directory. -/
def directory (s : Sys) (i : Nat) : List Dirent := slots (contents s.fs.disk (current s) i)

/-- The inode is in memory, or allocated on the disk. -/
def Lockable (s : Sys) (i : Nat) : Prop :=
  (0 < s.ref i /\ s.valid i = true) ∨ (dinode s.fs.disk i).type ≠ 0#16

/-- A reference more, given back, does not free the inode. -/
def Stays (s : Sys) (i : Nat) : Prop := (current s i).nlink ≠ 0#16 ∨ 0 < s.ref i

/-- The inode that the names lead to, one lookup after the other. -/
def walk (s : Sys) : Nat -> List Name -> Option Nat
  | i, [] => some i
  | i, name :: rest =>
    if (current s i).type = T_DIR then (Fs.dirlookup name (directory s i)).bind fun j =>
      walk s j rest else none

/-- The directory that all names but the last lead to, and the last name. -/
def parentOf (s : Sys) (i : Nat) (names : List Name) : Option (Nat × Name) :=
  names.getLast?.bind fun last => (walk s i names.dropLast).bind fun dp =>
    if (current s dp).type = T_DIR then some (dp, last) else none

/-- `iget` finds inode `j` in the table, or a free entry for it, while inode `i` is held. -/
def Slot (s : Sys) (i j : Nat) : Prop :=
  j = i ∨ 0 < s.ref j ∨ (insert i s.cached).card < NINODE

/-- Every inode in which a name is looked up can be locked, and what it has under the name gets
an entry of the table. -/
def Passable (s : Sys) (i : Nat) (names : List Name) : Prop :=
  ∀ front name back, names = front ++ name :: back -> ∀ j, walk s i front = some j ->
    Lockable s j /\ ∀ l, walk s j [name] = some l -> Slot s j l

/-- No inode is locked, the directories are whole, and what an entry names is linked or in use. -/
structure Resting (s : Sys) : Prop where
  table : ∀ i, i ∈ s.cached <-> 0 < s.ref i
  unlocked : ∀ i, s.busy i = false
  directories : ∀ i, (current s i).type = T_DIR ->
    Covers s.fs.disk (current s) i (current s i).size /\ Aligned (contents s.fs.disk (current s) i)
  named : ∀ d name i, (current s d).type = T_DIR -> Fs.dirlookup name (directory s d) = some i ->
    Lockable s i -> Stays s i
  root : Stays s ROOTINO
  cwd : 0 < s.ref s.cwd

theorem current_of_cached (used : 0 < s.ref i) (valid : s.valid i = true) :
    current s i = s.fs.inode i := if_pos ⟨used, valid⟩

theorem current_of_uncached (uncached : ¬ (0 < s.ref i /\ s.valid i = true)) :
    current s i = dinode s.fs.disk i := if_neg uncached

theorem current_congr {t : Sys} (ref : 0 < t.ref i <-> 0 < s.ref i) (valid : t.valid i = s.valid i)
    (inode : t.fs.inode i = s.fs.inode i) (disk : t.fs.disk = s.fs.disk) :
    current t i = current s i := by
  unfold current
  rw [inode, disk, valid]
  exact if_congr (and_congr_left fun _ => ref) rfl rfl

section Walk

variable {s : Sys} {i : Nat} {name : Name} {rest : List Name}

theorem passable_nil : Passable s i [] := by
  intro front name back whole
  cases (List.append_eq_nil_iff.mp whole.symm).2

theorem walk_cons (j : Nat) : walk s i (name :: rest) = some j <-> (current s i).type = T_DIR /\
    ∃ l, Fs.dirlookup name (directory s i) = some l /\ walk s l rest = some j := by
  rw [walk]
  by_cases isDir : (current s i).type = T_DIR
  · rw [if_pos isDir, Option.bind_eq_some_iff]
    exact (and_iff_right isDir).symm
  · rw [if_neg isDir]
    exact ⟨fun impossible => (by cases impossible), fun both => absurd both.1 isDir⟩

theorem passable_cons : Passable s i (name :: rest) <->
    Lockable s i /\ ((current s i).type = T_DIR ->
      ∀ j, Fs.dirlookup name (directory s i) = some j -> Slot s i j /\ Passable s j rest) := by
  constructor
  · intro passable
    have first := passable [] name rest rfl i rfl
    refine ⟨first.1, fun isDir j found => ⟨first.2 j ?_, ?_⟩⟩
    · exact (walk_cons j).mpr ⟨isDir, j, found, rfl⟩
    · intro front last back whole l reached
      exact passable (name :: front) last back (by rw [whole]; rfl) l
        ((walk_cons l).mpr ⟨isDir, j, found, reached⟩)
  · rintro ⟨lockable, later⟩ front last back whole j reached
    cases front with
    | nil =>
      cases reached
      cases whole
      refine ⟨lockable, fun l next => ?_⟩
      rcases (walk_cons l).mp next with ⟨isDir, m, found, same⟩
      cases same
      exact (later isDir l found).1
    | cons first front =>
      cases whole
      rcases (walk_cons j).mp reached with ⟨isDir, l, found, reached⟩
      exact (later isDir l found).2 front last back rfl j reached

theorem parentOf_single :
    parentOf s i [name] = if (current s i).type = T_DIR then some (i, name) else none := rfl

theorem parentOf_cons (more : rest ≠ []) : parentOf s i (name :: rest) =
    if (current s i).type = T_DIR then (Fs.dirlookup name (directory s i)).bind fun j =>
      parentOf s j rest
    else none := by
  unfold parentOf
  rw [List.getLast?_cons_of_ne_nil more, List.dropLast_cons_of_ne_nil more, walk]
  cases last : rest.getLast? with
  | none => exact absurd (List.getLast?_eq_none_iff.mp last) more
  | some l =>
    by_cases isDir : (current s i).type = T_DIR
    · rw [if_pos isDir, if_pos isDir, Option.bind_some, Option.bind_assoc]
      rfl
    · rw [if_neg isDir, if_neg isDir]
      rfl

end Walk

/-! ## References and locks -/

/-- The state `t` differs from `s` by the references `held`, by the lock, and by what has been read
into memory. -/
structure Holding (s t : Sys) (held : List Nat) (locked : Option Nat) : Prop where
  fs : t.fs = { s.fs with inode := t.fs.inode }
  view : ∀ i, current t i = current s i
  table : ∀ i, i ∈ t.cached <-> 0 < t.ref i
  ref : ∀ i, t.ref i = s.ref i + held.count i
  busy : ∀ i, t.busy i = decide (locked = some i)
  loaded : ∀ i, locked = some i -> i ∈ held /\ t.valid i = true
  lockable : ∀ i, 0 < t.ref i -> t.valid i = true -> Lockable s i
  kept : ∀ i, 0 < s.ref i -> s.valid i = true -> t.valid i = true
  cwd : t.cwd = s.cwd

namespace Holding

variable {s t : Sys} {held : List Nat} {locked : Option Nat} {i : Nat}

theorem start (resting : Resting s) : Holding s s [] none where
  fs := rfl
  view _ := rfl
  table := resting.table
  ref _ := rfl
  busy i := resting.unlocked i
  loaded _ impossible := by cases impossible
  lockable _ used valid := .inl ⟨used, valid⟩
  kept _ _ valid := valid
  cwd := rfl

theorem ref_pos (holding : Holding s t held locked) (member : i ∈ held) : 0 < t.ref i := by
  have some := List.count_pos_iff.mpr member
  rw [holding.ref]
  omega

/-- What a locked inode is. -/
theorem inode_eq (holding : Holding s t held (some i)) : t.fs.inode i = current s i := by
  rcases holding.loaded i rfl with ⟨member, valid⟩
  rw [<- holding.view, current, if_pos ⟨holding.ref_pos member, valid⟩]

/-- A reference to an inode that has one. -/
theorem again (holding : Holding s t held locked) (used : 0 < t.ref i) :
    Holding s (Sequential.idup i t) (i :: held) locked where
  fs := holding.fs
  view j := by
    rw [<- holding.view]
    refine current_congr ?_ rfl rfl rfl
    change 0 < update t.ref i (t.ref i + 1) j <-> _
    by_cases same : j = i
    · subst same
      rw [update_self]
      exact ⟨fun _ => used, fun _ => Nat.succ_pos _⟩
    · rw [update_of_ne same]
  table j := by
    change j ∈ t.cached <-> 0 < update t.ref i (t.ref i + 1) j
    rw [holding.table]
    by_cases same : j = i
    · subst same
      rw [update_self]
      exact ⟨fun _ => Nat.succ_pos _, fun _ => used⟩
    · rw [update_of_ne same]
  ref j := by
    change update t.ref i (t.ref i + 1) j = _
    by_cases same : j = i
    · subst same
      rw [update_self, holding.ref, List.count_cons_self, Nat.add_assoc]
    · rw [update_of_ne same, holding.ref, List.count_cons_of_ne (Ne.symm same)]
  busy := holding.busy
  loaded j own := ⟨List.mem_cons_of_mem i (holding.loaded j own).1, (holding.loaded j own).2⟩
  lockable j some valid := by
    refine holding.lockable j ?_ valid
    by_cases same : j = i
    · rw [same]
      exact used
    · change 0 < update t.ref i (t.ref i + 1) j at some
      rwa [update_of_ne same] at some
  kept := holding.kept
  cwd := holding.cwd

/-- A free entry becomes that of an inode. -/
theorem enter (holding : Holding s t held locked) (none : t.ref i = 0) :
    Holding s { t with
      ref := update t.ref i 1
      cached := insert i t.cached
      valid := update t.valid i false
      busy := update t.busy i false } (i :: held) locked := by
  have unlocked : locked ≠ some i := by
    intro own
    have some := holding.ref_pos (holding.loaded i own).1
    omega
  have before : s.ref i = 0 /\ held.count i = 0 := by
    have sum := holding.ref i
    omega
  constructor
  case fs => exact holding.fs
  case table =>
    intro j
    change j ∈ insert i t.cached <-> 0 < update t.ref i 1 j
    rw [Finset.mem_insert, holding.table]
    by_cases same : j = i
    · subst same
      rw [update_self]
      exact ⟨fun _ => Nat.one_pos, fun _ => .inl rfl⟩
    · rw [update_of_ne same]
      exact or_iff_right same
  case view =>
    intro j
    rw [<- holding.view]
    by_cases same : j = i
    · subst same
      rw [current_of_uncached (by simp), current_of_uncached (by simp [none])]
    · refine current_congr ?_ (update_of_ne same ..) rfl rfl
      dsimp only
      rw [update_of_ne same]
  case ref =>
    intro j
    dsimp only
    by_cases same : j = i
    · subst same
      rw [update_self, List.count_cons_self, before.1, before.2]
    · rw [update_of_ne same, holding.ref, List.count_cons_of_ne (Ne.symm same)]
  case busy =>
    intro j
    dsimp only
    by_cases same : j = i
    · subst same
      rw [update_self, decide_eq_false unlocked]
    · rw [update_of_ne same, holding.busy]
  case loaded =>
    intro j own
    have other : j ≠ i := by
      rintro rfl
      exact unlocked own
    dsimp only
    rw [update_of_ne other]
    exact ⟨List.mem_cons_of_mem i (holding.loaded j own).1, (holding.loaded j own).2⟩
  case lockable =>
    intro j some valid
    dsimp only at some valid
    by_cases same : j = i
    · subst same
      rw [update_self] at valid
      cases valid
    · rw [update_of_ne same] at some valid
      exact holding.lockable j some valid
  case kept =>
    intro j some valid
    have other : j ≠ i := by
      rintro rfl
      omega
    dsimp only
    rw [update_of_ne other]
    exact holding.kept j some valid
  case cwd => exact holding.cwd

theorem iget (holding : Holding s t held locked) (room : 0 < t.ref i ∨ t.cached.card < NINODE) :
    ∃ u, Sequential.iget i t = some u /\ Holding s u (i :: held) locked := by
  unfold Sequential.iget
  by_cases used : 0 < t.ref i
  · rw [if_pos used]
    exact ⟨_, rfl, holding.again used⟩
  · rw [if_neg used, if_pos (room.resolve_left used)]
    exact ⟨_, rfl, holding.enter (Nat.eq_zero_of_not_pos used)⟩

theorem iget_none (full : ¬ (0 < t.ref i ∨ t.cached.card < NINODE)) :
    Sequential.iget i t = none := by
  unfold Sequential.iget
  rw [if_neg fun used => full (.inl used), if_neg fun room => full (.inr room)]

/-- What `iget` needs while an inode is held. -/
theorem slot (holding : Holding s t [i] locked) (resting : Resting s) (j : Nat) :
    0 < t.ref j ∨ t.cached.card < NINODE <-> Slot s i j := by
  have entries : t.cached = insert i s.cached := by
    ext l
    rw [holding.table, holding.ref, Finset.mem_insert, resting.table, Nat.add_pos_iff_pos_or_pos,
      List.count_pos_iff, List.mem_singleton, or_comm]
  have used : 0 < t.ref j <-> j = i ∨ 0 < s.ref j := by
    rw [<- holding.table, entries, Finset.mem_insert, resting.table]
  rw [used, entries, or_assoc]
  rfl

/-- `ilock` reads an inode into memory unless it is free on the disk. -/
theorem ilock_none (holding : Holding s t held none) (member : i ∈ held) (free : ¬ Lockable s i) :
    Sequential.ilock i t = none := by
  have some := holding.ref_pos member
  have invalid : ¬ t.valid i = true := fun valid => free (holding.lockable i some valid)
  have type : (dinode s.fs.disk i).type = 0#16 := by
    by_contra used
    exact free (.inr used)
  have disk : t.fs.disk = s.fs.disk := by rw [holding.fs]
  have open' : t.busy i = false := holding.busy i
  unfold Sequential.ilock
  rw [if_neg (by rw [open']; simp; omega)]
  unfold load
  dsimp only
  rw [if_neg invalid, disk, if_pos type]

theorem busy_taken (holding : Holding s t held none) (j : Nat) :
    update t.busy i true j = decide (some i = some j) := by
  by_cases same : j = i
  · subst same
    simp
  · rw [update_of_ne same, holding.busy]
    simp [Ne.symm same]

/-- The locked inode is read from the disk. -/
theorem read (holding : Holding s t held none) (member : i ∈ held) (lockable : Lockable s i)
    (invalid : ¬ t.valid i = true) :
    Holding s { t with
      busy := update t.busy i true
      fs := setInode i (dinode t.fs.disk i) t.fs
      valid := update t.valid i true } held (some i) := by
  constructor
  case fs =>
    dsimp only
    unfold setInode
    rw [holding.fs]
  case view =>
    intro j
    rw [<- holding.view]
    by_cases same : j = i
    · subst same
      rw [current_of_uncached (s := t) fun both => invalid both.2]
      refine (current_of_cached ?_ ?_).trans (update_self ..)
      · exact holding.ref_pos member
      · exact update_self ..
    · exact current_congr Iff.rfl (update_of_ne same ..) (update_of_ne same ..) rfl
  case table => exact holding.table
  case ref => exact holding.ref
  case busy => exact holding.busy_taken
  case loaded =>
    rintro j own
    cases own
    exact ⟨member, update_self ..⟩
  case lockable =>
    intro j used known
    by_cases same : j = i
    · rw [same]
      exact lockable
    · dsimp only at known
      rw [update_of_ne same] at known
      exact holding.lockable j used known
  case kept =>
    intro j used known
    dsimp only
    by_cases same : j = i
    · rw [same, update_self]
    · rw [update_of_ne same]
      exact holding.kept j used known
  case cwd => exact holding.cwd

theorem ilock (holding : Holding s t held none) (member : i ∈ held) (lockable : Lockable s i) :
    ∃ u, Sequential.ilock i t = some u /\ Holding s u held (some i) := by
  have used := holding.ref_pos member
  have open' : t.busy i = false := holding.busy i
  unfold Sequential.ilock
  rw [if_neg (by rw [open']; simp; omega)]
  unfold load
  dsimp only
  by_cases valid : t.valid i = true
  · rw [if_pos valid]
    refine ⟨_, rfl, { holding with busy := holding.busy_taken, loaded := ?_ }⟩
    rintro j own
    cases own
    exact ⟨member, valid⟩
  · have type : (dinode t.fs.disk i).type ≠ 0#16 := by
      rcases lockable with ⟨used, known⟩ | used
      · exact absurd (holding.kept i used known) valid
      · rw [holding.fs]
        exact used
    rw [if_neg valid, if_neg type]
    exact ⟨_, rfl, holding.read member lockable valid⟩

theorem iunlock (holding : Holding s t held (some i)) :
    ∃ u, Sequential.iunlock i t = some u /\ Holding s u held none := by
  have used := holding.ref_pos (holding.loaded i rfl).1
  have own : t.busy i = true := (holding.busy i).trans (by simp)
  unfold Sequential.iunlock
  rw [if_neg (by rw [own]; simp; omega)]
  refine ⟨_, rfl, { holding with busy := ?_, loaded := fun j impossible => (by cases impossible) }⟩
  intro j
  dsimp only
  by_cases same : j = i
  · subst same
    rw [update_self]
    rfl
  · rw [update_of_ne same, holding.busy]
    simp [Ne.symm same]

/-- `iput` gives a reference back. -/
theorem iput (holding : Holding s t held none) (member : i ∈ held) (stays : Stays s i) :
    ∃ u, Sequential.iput i t = some u /\ Holding s u (held.erase i) none := by
  have some := List.count_pos_iff.mpr member
  have total := holding.ref i
  have linked : ¬ (t.ref i = 1 /\ t.valid i = true /\ (t.fs.inode i).nlink = 0#16) := by
    rintro ⟨one, valid, none⟩
    have now := holding.view i
    rw [current, if_pos ⟨by omega, valid⟩] at now
    rcases stays with linked | used
    · exact linked (by rw [<- now, none])
    · omega
  unfold Sequential.iput
  rw [if_neg linked]
  have given : ∀ j, (putRef i t).ref j = s.ref j + (held.erase i).count j := by
    intro j
    change update t.ref i (t.ref i - 1) j = _
    by_cases same : j = i
    · subst same
      rw [update_self, List.count_erase_self]
      omega
    · rw [update_of_ne same, List.count_erase_of_ne same, holding.ref]
  have fewer : ∀ j, (putRef i t).ref j <= t.ref j := by
    intro j
    have less := (List.erase_sublist : List.Sublist (held.erase i) held).count_le j
    rw [given, holding.ref]
    omega
  refine ⟨_, rfl, { holding with
    view := ?_
    table := ?_
    ref := given
    lockable := fun j used valid => holding.lockable j (Nat.lt_of_lt_of_le used (fewer j)) valid
    loaded := fun j impossible => (by cases impossible) }⟩
  · intro j
    have now := holding.ref j
    by_cases still : 0 < s.ref j ∨ 0 < (putRef i t).ref j
    · rw [<- holding.view]
      refine current_congr ?_ rfl rfl rfl
      have left := given j
      have less := fewer j
      omega
    · have disk : t.fs.disk = s.fs.disk := by rw [holding.fs]
      rw [current_of_uncached fun both => still (.inr both.1),
        current_of_uncached fun both => still (.inl both.1)]
      exact congrArg (dinode · j) disk
  · intro j
    change j ∈ (if t.ref i <= 1 then t.cached.erase i else t.cached) <->
      0 < update t.ref i (t.ref i - 1) j
    by_cases same : j = i
    · subst same
      rw [update_self]
      split
      next one => simp [Nat.sub_eq_zero_of_le one]
      next many => rw [holding.table]; omega
    · rw [update_of_ne same, <- holding.table]
      split
      next => rw [Finset.mem_erase, and_iff_right same]
      next => rfl

/-- `iunlockput` of the only inode held beside another one. -/
theorem iunlockput (holding : Holding s t held (some i)) (stays : Stays s i) :
    ∃ u, (Sequential.iunlock i t).bind (Sequential.iput i) = some u /\
    Holding s u (held.erase i) none := by
  rcases holding.iunlock with ⟨u, unlocked, next⟩
  rw [unlocked, Option.bind_some]
  exact next.iput (holding.loaded i rfl).1 stays

theorem addr_congr {disk : Disk} {inode inode' : Nat -> Dinode} (same : inode' i = inode i)
    (k : Nat) : addr disk inode' (i, k) = addr disk inode (i, k) := by
  simp only [addr, same]

theorem contents_congr {disk : Disk} {inode inode' : Nat -> Dinode} (same : inode' i = inode i) :
    contents disk inode' i = contents disk inode i := by
  simp only [contents, addr_congr same, same]

/-- The lookup in a locked directory. -/
theorem dirlookup (holding : Holding s t held (some i)) (resting : Resting s)
    (isDir : (current s i).type = T_DIR) (name : Nat -> Byte) :
    onFs (Sequential.dirlookup i name) t = some (locate (nameOf name) (directory s i) 0, t) := by
  have disk : t.fs.disk = s.fs.disk := by rw [holding.fs]
  have inode := holding.inode_eq
  rcases resting.directories i isDir with ⟨covers, aligned⟩
  have same : contents t.fs.disk t.fs.inode i = contents s.fs.disk (current s) i := by
    rw [disk]
    exact contents_congr inode
  have covered : Covers t.fs.disk t.fs.inode i (t.fs.inode i).size := by
    intro bn inside
    rw [inode] at inside
    rw [disk, addr_congr inode]
    exact covers bn inside
  unfold onFs
  rw [dirlookup_eq covered (by rw [inode]; exact isDir) (by rw [same]; exact aligned), same]
  rfl

end Holding

/-! ## `namex` -/

abbrev Code := Prog Nat

/-- What the caller of `namex` does with its result. -/
abbrev Caller := Option (Nat × (Nat -> Byte)) -> Code

/-- The inode that `namex` returns. -/
def reached (nameiparent : Bool) (s : Sys) (i : Nat) (names : List Name) : Option Nat :=
  if nameiparent then (parentOf s i names).map Prod.fst else walk s i names

/-- The caller goes on with the inode that the names lead to, and with one reference more, to that
inode. -/
def Yields (np : Bool) (s t : Sys) (i : Nat) (name : Nat -> Byte) (names : List Name)
    (program : Caller -> Code) : Prop :=
  ∃ u field, Holding s u (reached np s i names).toList none /\
    ((reached np s i names).isSome -> nameOf field = names.getLastD (nameOf name)) /\
    ∀ k, run (program k) t = run (k ((reached np s i names).map fun j => (j, field))) u

section Namex

variable {s t : Sys} {i : Nat} {np : Bool} {names rest : List Name}

theorem reached_cons (first : Name) (more : np = true -> rest ≠ []) :
    reached np s i (first :: rest) =
    if (current s i).type = T_DIR then (Fs.dirlookup first (directory s i)).bind fun j =>
      reached np s j rest
    else none := by
  unfold reached
  cases np with
  | false => rfl
  | true =>
    rw [if_pos rfl, parentOf_cons (more rfl)]
    by_cases isDir : (current s i).type = T_DIR
    · rw [if_pos isDir, if_pos isDir, Option.map_bind]
      rfl
    · rw [if_neg isDir, if_neg isDir]
      rfl

theorem reached_parent (first : Name) (isDir : (current s i).type = T_DIR) :
    reached true s i [first] = some i := by
  change (parentOf s i [first]).map Prod.fst = _
  rw [parentOf_single, if_pos isDir]
  rfl

theorem reached_of_not_dir {first : Name} (other : (current s i).type ≠ T_DIR) :
    reached np s i (first :: rest) = none := by
  by_cases stop : np = true /\ rest = []
  · rw [stop.1, stop.2]
    change (parentOf s i [first]).map Prod.fst = _
    rw [parentOf_single, if_neg other]
    rfl
  · rw [reached_cons first fun parent final => stop ⟨parent, final⟩, if_neg other]

theorem run_iunlockput (i : Nat) (k : Code) (t : Sys) :
    run (iunlockput i k) t = ((Sequential.iunlock i t).bind (Sequential.iput i)).bind (run k) :=
  (Option.bind_assoc ..).symm

variable {field : Nat -> Byte} {u : Sys}

namespace Yields

variable {name : Nat -> Byte} {program : Caller -> Code}

/-- The exits that return 0. -/
theorem fail (holding : Holding s u [i] (some i)) (stays : Stays s i)
    (failed : reached np s i names = none)
    (runs : ∀ k, run (program k) t = run (iunlockput i (k none)) u) :
    Yields np s t i name names program := by
  rcases holding.iunlockput stays with ⟨v, put, after⟩
  rw [List.erase_cons_head] at after
  refine ⟨v, name, ?_, ?_, fun k => ?_⟩
  · rw [failed]
    exact after
  · rw [failed]
    exact fun impossible => by cases impossible
  · rw [runs, run_iunlockput, put, failed]
    rfl

/-- The exit of `nameiparent`, one level early. -/
theorem parent (holding : Holding s u [i] (some i)) (isDir : (current s i).type = T_DIR)
    (runs : ∀ k, run (program k) t = run (.iunlock i (k (some (i, field)))) u) :
    Yields true s t i name [nameOf field] program := by
  rcases holding.iunlock with ⟨v, unlocked, after⟩
  have result := reached_parent (s := s) (i := i) (nameOf field) isDir
  refine ⟨v, field, ?_, fun _ => rfl, fun k => ?_⟩
  · rw [result]
    exact after
  · rw [runs, result]
    change (Sequential.iunlock i u).bind _ = _
    rw [unlocked]
    rfl

/-- A pass that goes on with another inode. -/
theorem later {next : Nat} {v : Sys} {program' : Caller -> Code}
    (after : Yields np s v next field rest program')
    (onwards : reached np s i (nameOf field :: rest) = reached np s next rest)
    (runs : ∀ k, run (program k) t = run (program' k) v) :
    Yields np s t i name (nameOf field :: rest) program := by
  rcases after with ⟨u, final, held, last, ends⟩
  refine ⟨u, final, ?_, ?_, fun k => ?_⟩
  · rw [onwards]
    exact held
  · rw [onwards, List.getLastD_cons]
    exact last
  · rw [runs, ends, onwards]

/-- No element is left. -/
theorem finish (holding : Holding s t [i] none) (stays : np = true -> Stays s i) :
    Yields np s t i name [] fun k => namexEnd np k name i := by
  cases np with
  | false => exact ⟨t, name, holding, fun _ => rfl, fun k => rfl⟩
  | true =>
    rcases holding.iput (List.mem_singleton_self i) (stays rfl) with ⟨u, put, after⟩
    rw [List.erase_cons_head] at after
    refine ⟨u, name, after, fun _ => rfl, fun k => ?_⟩
    change (Sequential.iput i t).bind (run (k none)) = _
    rw [put]
    rfl

end Yields

theorem erase_pair (i next : Nat) : (next :: [i]).erase i = [next] := by
  by_cases same : next = i
  · rw [same, List.erase_cons_head]
  · rw [List.erase_cons_tail (by simpa using same), List.erase_cons_head]

/-- The lookup of a pass, in a locked directory, and the passes after it. -/
theorem lookup_spec (resting : Resting s) {name : Nat -> Byte} {program : Caller -> Code}
    {next : Caller -> Nat -> Code} (inside : Holding s u [i] (some i)) (lockable : Lockable s i)
    (stays : Stays s i) (isDir : (current s i).type = T_DIR) (more : np = true -> rest ≠ [])
    (later : ∀ j v, Holding s v [j] none -> (Lockable s j -> Stays s j) ->
      (Passable s j rest -> Yields np s v j field rest fun k => next k j) /\
      (np = false -> ¬ Passable s j rest -> ∀ k, run (next k j) v = none))
    (runs : ∀ k, run (program k) t = run (.dirlookup i field fun found =>
      match found with
      | none => iunlockput i (k none)
      | some (j, _) => iunlockput i (next k j)) u) :
    (Passable s i (nameOf field :: rest) -> Yields np s t i name (nameOf field :: rest) program) /\
    (np = false -> ¬ Passable s i (nameOf field :: rest) -> ∀ k, run (program k) t = none) := by
  have result := reached_cons (s := s) (i := i) (nameOf field) more
  have lookup := inside.dirlookup resting isDir field
  have same := Dirents.locate_fst (nameOf field) (directory s i) 0
  cases here : locate (nameOf field) (directory s i) 0 with
  | none =>
    rw [here] at lookup same
    have missing : Fs.dirlookup (nameOf field) (directory s i) = none := same.symm
    refine ⟨fun _ => .fail inside stays ?_ fun k => ?_, fun _ blocked => absurd ?_ blocked⟩
    · rw [result, if_pos isDir, missing]
      rfl
    · rw [runs, run, lookup]
      rfl
    · refine passable_cons.mpr ⟨lockable, fun _ j known => ?_⟩
      rw [missing] at known
      cases known
  | some entry =>
    rcases entry with ⟨j, off⟩
    rw [here] at lookup same
    have known : Fs.dirlookup (nameOf field) (directory s i) = some j := same.symm
    have passes : Passable s i (nameOf field :: rest) <-> Slot s i j /\ Passable s j rest := by
      rw [passable_cons]
      refine ⟨fun both => both.2 isDir j known, fun free => ⟨lockable, fun _ l also => ?_⟩⟩
      rw [known] at also
      cases also
      exact free
    have looked : ∀ k, run (program k) t =
        (Sequential.iget j u).bind (run (iunlockput i (next k j))) := by
      intro k
      rw [runs, run, lookup]
      rfl
    rw [passes]
    by_cases slot : Slot s i j
    · rcases inside.iget ((inside.slot resting j).mpr slot) with ⟨w, got, both⟩
      rcases both.iunlockput stays with ⟨v, put, after⟩
      rw [erase_pair] at after
      have step : ∀ k, run (program k) t = run (next k j) v := by
        intro k
        rw [looked, got, Option.bind_some, run_iunlockput, put]
        rfl
      rcases later j v after (resting.named i (nameOf field) j isDir known) with ⟨yields, halts⟩
      refine ⟨fun passable => (yields passable.2).later ?_ step, fun plain blocked k => ?_⟩
      · rw [result, if_pos isDir, known]
        rfl
      · rw [step]
        exact halts plain (fun passable => blocked ⟨slot, passable⟩) k
    · refine ⟨fun passable => absurd passable.1 slot, fun _ _ k => ?_⟩
      rw [looked, Holding.iget_none fun room => slot ((inside.slot resting j).mp room)]
      rfl

/-- A pass of the loop. -/
theorem run_namexLoop {path : List Byte} {name field : Nat -> Byte}
    (found : skipelem path name = some field) (np : Bool) (k : Caller) (more i : Nat) (t : Sys) :
    run (namexLoop np k (more + 1) path name i) t =
      (Sequential.ilock i t).bind fun u =>
        run (if (u.fs.inode i).type ≠ T_DIR then iunlockput i (k none)
        else if np = true /\ (remaining path).headD 0#8 = 0#8 then .iunlock i (k (some (i, field)))
        else .dirlookup i field fun found =>
          match found with
          | none => iunlockput i (k none)
          | some (next, _) => iunlockput i (namexLoop np k more (remaining path) field next)) u := by
  rw [namexLoop, found]
  simp only [run]
  refine congrArg _ (funext fun u => ?_)
  congr 4
  funext entry
  cases entry with
  | none => rfl
  | some pair => rfl

/-- The loop, by induction on its passes.  One reference is held before a pass and after it. -/
theorem namexLoop_spec (resting : Resting s) (np : Bool) (more : Nat) :
    ∀ (path : List Byte) (name : Nat -> Byte)
    (i : Nat) (t : Sys), path.length <= more -> Holding s t [i] none ->
    (Lockable s i -> Stays s i) -> (np = true -> elements path name = [] -> Stays s i) ->
    (Passable s i (elements path name) ->
      Yields np s t i name (elements path name) fun k => namexLoop np k more path name i) /\
    (np = false -> ¬ Passable s i (elements path name) ->
      ∀ k, run (namexLoop np k more path name i) t = none) := by
  induction more with
  | zero =>
    intro path name i t short holding _ last
    have nothing : path = [] := List.length_eq_zero_iff.mp (Nat.le_zero.mp short)
    have empty : elements path name = [] := by
      rw [nothing]
      exact elements_none (skipelem_eq_none.mpr rfl)
    rw [empty]
    exact ⟨fun _ => .finish holding fun parent => last parent empty,
      fun _ blocked => absurd passable_nil blocked⟩
  | succ more ih =>
    intro path name i t short holding stays last
    cases found : skipelem path name with
    | none =>
      have empty := elements_none found
      have body : ∀ k : Caller, namexLoop np k (more + 1) path name i = namexEnd np k name i := by
        intro k
        rw [namexLoop, found]
      rw [empty, funext body]
      exact ⟨fun _ => .finish holding fun parent => last parent empty,
        fun _ blocked => absurd passable_nil blocked⟩
    | some field =>
      have shorter := remaining_lt (element_of_skipelem found)
      have body : ∀ k : Caller, _ := fun k => run_namexLoop found np k more i t
      rw [elements_some found]
      by_cases lockable : Lockable s i
      · rcases holding.ilock (List.mem_singleton_self i) lockable with ⟨u, locked, inside⟩
        simp only [locked, Option.bind_some, inside.inode_eq] at body
        by_cases isDir : (current s i).type = T_DIR
        · have final : (remaining path).headD 0#8 = 0#8 <-> elements (remaining path) field = [] := by
            rw [remaining_end, elements_eq_nil, skipelem_eq_none]
          simp only [isDir, ne_eq, not_true_eq_false, if_false, final] at body
          by_cases stop : np = true /\ elements (remaining path) field = []
          · simp only [if_pos stop] at body
            rw [stop.2]
            cases stop.1
            exact ⟨fun _ => .parent inside isDir body, fun plain => by cases plain⟩
          · simp only [if_neg stop] at body
            refine lookup_spec resting inside lockable (stays lockable) isDir
              (fun parent empty => stop ⟨parent, empty⟩) (fun j v after kept => ?_) body
            exact ih (remaining path) field j v (by omega) after kept
              fun parent empty => absurd ⟨parent, empty⟩ stop
        · simp only [isDir, ne_eq, not_false_eq_true, if_true] at body
          refine ⟨fun _ => .fail inside (stays lockable) (reached_of_not_dir isDir) body,
            fun _ blocked => ?_⟩
          refine absurd ?_ blocked
          exact passable_cons.mpr ⟨lockable, fun also => absurd also isDir⟩
      · refine ⟨fun passable => absurd (passable_cons.mp passable).1 lockable, fun _ _ k => ?_⟩
        rw [body, holding.ilock_none (List.mem_singleton_self i) lockable]
        rfl

end Namex

/-! ## The theorem -/

/-- Where a path starts. -/
def start (s : Sys) (path : List Byte) : Nat := if path.headD 0#8 = slash then ROOTINO else s.cwd

/-- No inode on the way is free, and the table has an entry for each of them.  The working directory
has one. -/
def Clear (s : Sys) (path : List Byte) : Prop :=
  (path.headD 0#8 = slash -> 0 < s.ref ROOTINO ∨ s.cached.card < NINODE) /\
    Passable s (start s path) (components (string path))

/-- `skipelem` takes the components in order.  `namei` and `nameiparent` follow them, and hold in
the end one reference more than before, to what they return. -/
structure Resolves (s : Sys) (path : List Byte) : Prop where
  elements : ∀ name, elements path name = components (string path)
  namei : ∃ t, Holding s t (walk s (start s path) (components (string path))).toList none /\
    ∀ k, run (namei path k) s = run (k (walk s (start s path) (components (string path)))) t
  nameiparent : ∃ t field,
    Holding s t ((parentOf s (start s path) (components (string path))).map Prod.fst).toList none /\
    (∀ dp last, parentOf s (start s path) (components (string path)) = some (dp, last) ->
      nameOf field = last) /\
    ∀ k, run (nameiparent path k) s =
      run (k ((parentOf s (start s path) (components (string path))).map fun parent =>
        (parent.1, field))) t

/-- `namex`, for both of its callers. -/
theorem namex_spec (resting : Resting s) (np : Bool) (path : List Byte) :
    (Clear s path ->
      Yields np s s (start s path) (literal []) (components (string path)) (namex np path)) /\
    (np = false -> ¬ Clear s path -> ∀ k, run (namex np path k) s = none) := by
  unfold Clear
  rw [<- elements_eq path.length path (literal []) (Nat.le_refl _)]
  unfold start
  by_cases absolute : path.headD 0#8 = slash
  · have body : ∀ k : Caller, run (namex np path k) s =
        (Sequential.iget ROOTINO s).bind (run
          (namexLoop np k path.length path (literal []) ROOTINO)) := by
      intro k
      rw [namex, if_pos absolute]
      rfl
    rw [if_pos absolute]
    by_cases room : 0 < s.ref ROOTINO ∨ s.cached.card < NINODE
    · rcases (Holding.start resting).iget room with ⟨t, got, holding⟩
      rcases namexLoop_spec resting np path.length path (literal []) ROOTINO t (Nat.le_refl _) holding
        (fun _ => resting.root) fun _ _ => resting.root with ⟨yields, halts⟩
      simp only [got, Option.bind_some] at body
      refine ⟨fun clear => ?_, fun plain blocked k => ?_⟩
      · rcases yields clear.2 with ⟨u, field, held, last, ends⟩
        exact ⟨u, field, held, last, fun k => (body k).trans (ends k)⟩
      · rw [body]
        exact halts plain (fun passable => blocked ⟨fun _ => room, passable⟩) k
    · refine ⟨fun clear => absurd (clear.1 absolute) room, fun _ _ k => ?_⟩
      rw [body, Holding.iget_none room]
      rfl
  · have body : ∀ k : Caller, namex np path k = .idup (namexLoop np k path.length path (literal [])) :=
      fun k => if_neg absolute
    rcases namexLoop_spec resting np path.length path (literal []) s.cwd _ (Nat.le_refl _)
      ((Holding.start resting).again resting.cwd) (fun _ => .inr resting.cwd)
      fun _ _ => .inr resting.cwd with ⟨yields, halts⟩
    rw [if_neg absolute, funext body]
    exact ⟨fun clear => yields clear.2,
      fun plain blocked => halts plain fun passable =>
        blocked ⟨fun same => absurd same absolute, passable⟩⟩

/-- A path is resolved exactly when no free inode is on its way and `iget` does not run out of
entries. -/
theorem resolves_iff {s : Sys} (resting : Resting s) (path : List Byte) :
    Resolves s path <-> Clear s path := by
  constructor
  · intro resolves
    by_contra blocked
    rcases resolves.namei with ⟨t, _, runs⟩
    have ends := runs fun _ => .done 0
    rw [namei, (namex_spec resting false path).2 rfl blocked] at ends
    cases ends
  · intro clear
    rcases (namex_spec resting false path).1 clear with ⟨t, field, held, _, runs⟩
    rcases (namex_spec resting true path).1 clear with ⟨u, name, kept, last, ends⟩
    refine ⟨fun _ => elements_eq path.length path _ (Nat.le_refl _), ⟨t, held, fun k => ?_⟩, u,
      name, kept, ?_, ?_⟩
    · rw [namei, runs, Option.map_map]
      exact congrArg (fun found => run (k found) t) Option.map_id'
    · intro dp final parent
      change ((parentOf s (start s path) (components (string path))).map Prod.fst).isSome -> _ at last
      rw [parent] at last
      rcases Option.bind_eq_some_iff.mp parent with ⟨l, whole, rest⟩
      rcases Option.bind_eq_some_iff.mp rest with ⟨dp', _, rest⟩
      have same : l = final := by
        split at rest
        next =>
          cases rest
          rfl
        next => cases rest
      rw [last rfl, List.getLastD_eq_getLast?, whole, same]
      rfl
    · intro k
      rw [nameiparent, ends]
      change run (k (((parentOf s (start s path) (components (string path))).map Prod.fst).map _)) u = _
      rw [Option.map_map]
      rfl

/-! ### A directory with an entry of a free inode -/

/-- The entry `b` with inode 2. -/
def entryBlock : Block := fun k => if k = 0 then 2#8 else if k = 2 then 98#8 else 0#8

/-- The root directory has one entry.  All inodes on the disk are free. -/
def dangling : Sys where
  fs := ⟨update (fun _ _ => 0#8) 29 entryBlock, [],
    fun _ => ⟨T_DIR, 0#16, 0#16, 1#16, 16, fun _ => 29⟩, []⟩
  ref i := if i = ROOTINO then 1 else 0
  cached := {ROOTINO}
  valid i := i = ROOTINO
  busy _ := false
  cwd := ROOTINO

theorem dangling_type (i : Nat) : (dinode dangling.fs.disk i).type ≠ T_DIR := by
  change BitVec.ofNat 16 (word (update (fun _ _ => 0#8) 29 entryBlock (IBLOCK i)) (i % IPB * 16)) ≠ T_DIR
  by_cases here : IBLOCK i = 29
  · have small : i % IPB < 8 := Nat.mod_lt i (by decide)
    rw [here, update_self]
    exact (by decide : ∀ r < 8, BitVec.ofNat 16 (word entryBlock (r * 16)) ≠ T_DIR) (i % IPB) small
  · rw [update_of_ne here]
    have zero (n : Nat) : word (fun _ => 0#8) n = 0 := by
      simp only [word, BitVec.toNat_ofNat, Nat.zero_mod, Nat.zero_mul]
    rw [zero]
    decide

theorem dangling_other (other : i ≠ ROOTINO) : current dangling i = dinode dangling.fs.disk i :=
  current_of_uncached fun both => other (of_decide_eq_true both.2)

theorem dangling_directory : directory dangling ROOTINO = [⟨2, [98#8]⟩] := by
  decide

theorem dangling_blocked : ¬ Lockable dangling 2 := by
  rintro (cached | used)
  · exact absurd cached.1 (by decide)
  · exact used (by decide)

theorem dangling_resting : Resting dangling := by
  have onlyRoot : ∀ {i}, (current dangling i).type = T_DIR -> i = ROOTINO := by
    intro i isDir
    by_contra other
    rw [dangling_other other] at isDir
    exact dangling_type i isDir
  constructor
  case table =>
    intro i
    rw [dangling, Finset.mem_singleton]
    by_cases root : i = ROOTINO
    · simp [root]
    · simp [root]
  case unlocked => exact fun _ => rfl
  case directories =>
    intro i isDir
    cases onlyRoot isDir
    refine ⟨fun bn inside => ?_, ⟨by decide, by decide⟩⟩
    have first : bn = 0 := by
      change bn * 512 < 16 at inside
      omega
    rw [first]
    decide
  case named =>
    intro d name i isDir found lockable
    cases onlyRoot isDir
    rw [dangling_directory, Fs.dirlookup] at found
    split at found
    next =>
      cases found
      exact absurd lockable dangling_blocked
    next => cases found
  case root => exact .inr Nat.one_pos
  case cwd => exact Nat.one_pos

/-- A path to the entry is resolved. -/
theorem resolves_last : Resolves dangling [slash, 98#8] := by
  refine (resolves_iff dangling_resting [slash, 98#8]).mpr ⟨fun _ => .inl Nat.one_pos, ?_⟩
  have one : components (string [slash, 98#8]) = [[98#8]] := by decide
  have free : (insert ROOTINO dangling.cached).card < NINODE := by decide
  rw [one]
  exact passable_cons.mpr ⟨.inl ⟨Nat.one_pos, rfl⟩, fun _ _ _ => ⟨.inr (.inr free), passable_nil⟩⟩

/-- A path through the entry makes `ilock` panic. -/
theorem resolves_fails_through :
    Resting dangling /\ ¬ Resolves dangling [slash, 98#8, slash, 120#8] := by
  refine ⟨dangling_resting, fun resolves => ?_⟩
  have two : components (string [slash, 98#8, slash, 120#8]) = [[98#8], [120#8]] := by decide
  have blocked : ¬ Passable dangling ROOTINO [[98#8], [120#8]] := by
    intro passable
    refine dangling_blocked (passable [[98#8]] [120#8] [] rfl 2 ?_).1
    rw [walk, dangling_directory]
    rfl
  have halts := (namex_spec dangling_resting false [slash, 98#8, slash, 120#8]).2 rfl
  rw [Clear, two] at halts
  rcases resolves.namei with ⟨t, _, runs⟩
  have ends := runs fun _ => .done 0
  rw [namei, halts fun clear => blocked clear.2] at ends
  cases ends

end Xv6.Fs.Paths
