import Xv6.Fs.Layout

namespace Xv6.Fs.Mkfs

open Inodes (Dinode dinode NDIRECT MAXFILE T_DIR T_FILE addr addr_direct slotOf getDinode putDinode
  IBLOCK Same Fits)
open Dirents (direntSize DIRSIZ encode literal slash)
open Function

/-!
# The image that `mkfs` writes

`Made` holds between the calls of `ialloc` and `iappend` in `main`: the inodes that
are allocated have their type, one link and the size of what was appended, and the
blocks that were taken are those that the files need.  At the end the contents are
those of the files of the command line, with one entry for each in the root.
-/

/-! ## Inodes on the image -/

variable {i : Nat}

theorem IBLOCK_lt (known : i < NINODES) : 2 <= IBLOCK i /\ IBLOCK i < 28 := by
  unfold IBLOCK IPB BSIZE
  unfold NINODES at known
  omega

theorem dinode_winode_self {din : Dinode} (fits : Fits din) (i : Nat) (s : State) :
    Same din (dinode (winode i din s).disk i) := by
  change Same din (getDinode (update s.disk (i2b i) _ (i2b i)) i)
  rw [update_self]
  exact Inodes.getDinode_putDinode fits

theorem dinode_winode_of_ne (din : Dinode) {i j : Nat} (other : j ≠ i) (s : State) :
    Same (dinode s.disk j) (dinode (winode i din s).disk j) := by
  change Same _ (getDinode (update s.disk (IBLOCK i) _ (IBLOCK j)) j)
  by_cases block : IBLOCK j = IBLOCK i
  · rw [block, update_self, dinode, block]
    exact Inodes.getDinode_putDinode_of_ne fun index => other (Inodes.inode_index block index)
  · rw [update_of_ne block]
    exact ⟨rfl, rfl, rfl, rfl, rfl, fun _ _ => rfl⟩

theorem winode_of_ne (din : Dinode) {i b : Nat} (other : b ≠ IBLOCK i) (s : State) :
    (winode i din s).disk b = s.disk b :=
  update_of_ne other _ _

/-! ## The blocks of all files -/

def total (content : Nat -> List Byte) : Nat :=
  (Finset.range NINODES).sum fun j => need (counts content j)

theorem total_update (content : Nat -> List Byte) (known : i < NINODES) (bytes : List Byte) :
    total (update content i bytes) + need (counts content i) =
      total content + need (blocksOf bytes.length) := by
  have listed : i ∈ Finset.range NINODES := Finset.mem_range.mpr known
  unfold total
  rw [<- Finset.add_sum_erase _ _ listed, <- Finset.add_sum_erase
    _ (fun j => need (counts content j)) listed, counts_update, update_self]
  have rest : ((Finset.range NINODES).erase i).sum
      (fun j => need (update (counts content) i (blocksOf bytes.length) j)) =
      ((Finset.range NINODES).erase i).sum fun j => need (counts content j) := by
    apply Finset.sum_congr rfl
    intro j within
    rw [update_of_ne (Finset.ne_of_mem_erase within)]
  rw [rest]
  omega

theorem need_empty : need (blocksOf 0) = 0 := by decide

theorem total_empty : total (fun _ => []) = 0 := Finset.sum_eq_zero fun _ _ => need_empty

theorem total_small {content : Nat -> List Byte}
    (fits : ∀ j, j < NINODES -> counts content j <= MAXFILE) :
    total content <= NINODES * (MAXFILE + 1) := by
  have each : ∀ j, j ∈ Finset.range NINODES -> need (counts content j) <= MAXFILE + 1 := by
    intro j within
    have bound := fits j (Finset.mem_range.mp within)
    unfold need
    split <;> omega
  have sum := Finset.sum_le_card_nsmul _ _ _ each
  rw [Finset.card_range] at sum
  exact sum

/-! ## Between the calls of `main` -/

/-- The type that inode `i` gets. -/
def kindOf (i : Nat) : BitVec 16 := if i = ROOTINO then T_DIR else T_FILE

structure Made (s : State) (content : Nat -> List Byte) : Prop where
  filed : Filed s.disk (dinode s.disk) (counts content) content s.freeblock
  total : s.freeblock <= 29 + total content
  used : s.usedblocks = s.freeblock
  super : s.disk 1 = mkfsSuperbytes
  inodes : s.freeinode <= NINODES
  fields : ∀ i, 0 < i -> i < s.freeinode ->
    (dinode s.disk i).type = kindOf i /\ (dinode s.disk i).nlink = 1#16 /\
    (dinode s.disk i).size = (content i).length
  fresh : ∀ i, s.freeinode <= i -> i < NINODES ->
    content i = [] /\ ∀ k, k <= NDIRECT -> (dinode s.disk i).addrs k = 0
  idle : ∀ i, i = 0 ∨ s.freeinode <= i -> i < NINODES -> (dinode s.disk i).size = 0

namespace Made

variable {s : State} {content : Nat -> List Byte}

theorem ialloc (made : Made s content) (some : 0 < s.freeinode) (room : s.freeinode < NINODES) :
    Made (ialloc (kindOf s.freeinode) s) content := by
  have fresh := made.fresh s.freeinode (le_refl _) room
  have fits : Fits ⟨kindOf s.freeinode, 0#16, 0#16, 1#16, 0, fun _ => 0⟩ :=
    ⟨Nat.two_pow_pos 32, fun _ _ => Nat.two_pow_pos 32⟩
  have self := dinode_winode_self fits s.freeinode { s with freeinode := s.freeinode + 1 }
  have others : ∀ j, j ≠ s.freeinode ->
      Same (dinode s.disk j) (dinode (Mkfs.ialloc (kindOf s.freeinode) s).disk j) :=
    fun j other => dinode_winode_of_ne _ other { s with freeinode := s.freeinode + 1 }
  have place := IBLOCK_lt room
  constructor
  case filed =>
    refine made.filed.congr (fun b high => winode_of_ne _ (by omega) _) ?_
    intro j inside k direct
    by_cases other : j = s.freeinode
    · rw [other, fresh.2 k direct]
      exact (self.addrs k direct).symm
    · exact ((others j other).addrs k direct).symm
  case total => exact made.total
  case used => exact made.used
  case super => exact (winode_of_ne _ (by omega) _).trans made.super
  case inodes => exact room
  case fields =>
    intro i pos allocated
    by_cases other : i = s.freeinode
    · subst other
      rw [fresh.1]
      exact ⟨self.type.symm, self.nlink.symm, self.size.symm⟩
    · have before : i < s.freeinode := Nat.lt_of_le_of_ne (Nat.le_of_lt_succ allocated) other
      have old := made.fields i pos before
      have same := others i other
      exact ⟨same.type ▸ old.1, same.nlink ▸ old.2.1, same.size ▸ old.2.2⟩
  case fresh =>
    intro i free inside
    have after : s.freeinode + 1 <= i := free
    have old := made.fresh i (by omega) inside
    refine ⟨old.1, fun k direct => ?_⟩
    rw [<- (others i (by omega)).addrs k direct]
    exact old.2 k direct
  case idle =>
    intro i free inside
    change i = 0 ∨ s.freeinode + 1 <= i at free
    rw [<- (others i (by omega)).size]
    exact made.idle i (by omega) inside

theorem dinode_low {disk disk' : Disk} (kept : ∀ b, b < 29 -> disk' b = disk b) {j : Nat}
    (inside : j < NINODES) : dinode disk' j = dinode disk j := by
  have place := IBLOCK_lt inside
  rw [dinode, dinode, kept _ (by omega)]

theorem iappend (made : Made s content) (pos : 0 < i) (allocated : i < s.freeinode) {p : List Byte}
    (fits : (content i).length + p.length <= BSIZE * MAXFILE) :
    ∃ s', iappend i p s = some s' /\ Made s' (update content i (content i ++ p)) /\
      s'.freeinode = s.freeinode := by
  have known : i < NINODES := allocated.trans_le made.inodes
  have sum := total_update content known (content i ++ p)
  have small : 29 + Mkfs.total (update content i (content i ++ p)) + 1 < 2 ^ 32 := by
    have bound : Mkfs.total (update content i (content i ++ p)) <= NINODES * (MAXFILE + 1) := by
      apply total_small
      intro j inside
      rw [counts_update]
      by_cases other : j = i
      · rw [other, update_self, List.length_append]
        unfold blocksOf
        unfold BSIZE at fits
        omega
      · rw [update_of_ne other]
        exact (made.filed.fits j inside).1
    have value : NINODES * (MAXFILE + 1) = 28200 := by decide
    omega
  have filed := made.filed
  rw [<- update_eq_self i (dinode s.disk)] at filed
  have before := made.total
  have old := made.fields i pos allocated
  have place := IBLOCK_lt known
  have room : s.freeblock + need (blocksOf ((content i).length + p.length)) <=
      29 + Mkfs.total (update content i (content i ++ p)) + need (blocksOf (content i).length) := by
    rw [List.length_append] at sum
    change s.freeblock + _ <= _ + need (counts content i)
    omega
  rcases iappendLoop_filed known small p.length (le_refl _) filed fits
    room with ⟨din, s', done, filed', extended, below⟩
  have fit : Fits { din with size := (content i).length + p.length } := by
    constructor
    · have largest : BSIZE * MAXFILE < 2 ^ 32 := by decide
      exact Nat.lt_of_le_of_lt fits largest
    · intro k direct
      have range := filed'.laid.range i k known (by unfold Inodes.SLOTS; omega)
      rw [addr_direct direct, update_self] at range
      change din.addrs k < 2 ^ 32
      by_cases none : din.addrs k = 0
      · rw [none]
        exact Nat.two_pow_pos 32
      · have less := (range none).2
        omega
  have self := dinode_winode_self fit i s'
  have others : ∀ j, j < NINODES -> j ≠ i ->
      Same (dinode s.disk j) (dinode (winode i { din with size := (content i).length + p.length }
        s').disk j) := by
    intro j inside other
    rw [<- dinode_low extended.low inside]
    exact dinode_winode_of_ne _ other s'
  refine ⟨winode i { din with size := (content i).length + p.length } s', ?_, ?_, extended.freeinode⟩
  · unfold Mkfs.iappend
    change (iappendLoop p.length p (dinode s.disk i).size (dinode s.disk i) s).map _ = _
    rw [old.2.2, done]
    rfl
  · constructor
    case filed =>
      refine filed'.congr (fun b high => winode_of_ne _ (by omega) _) ?_
      intro j inside k direct
      by_cases other : j = i
      · rw [other, update_self]
        exact (self.addrs k direct).symm
      · rw [update_of_ne other]
        exact ((others j inside other).addrs k direct).symm
    case total => exact below
    case used =>
      have added := extended.used
      rw [made.used] at added
      change s'.usedblocks = s'.freeblock
      omega
    case super =>
      exact (winode_of_ne _ (by omega) _).trans ((extended.low 1 (by decide)).trans made.super)
    case inodes =>
      change s'.freeinode <= NINODES
      rw [extended.freeinode]
      exact made.inodes
    case fields =>
      intro j positive' allocated'
      change j < s'.freeinode at allocated'
      rw [extended.freeinode] at allocated'
      by_cases other : j = i
      · subst other
        rw [update_self, List.length_append]
        exact ⟨self.type.symm.trans (extended.type.trans old.1),
          self.nlink.symm.trans (extended.nlink.trans old.2.1), self.size.symm⟩
      · rw [update_of_ne other]
        have same := others j (allocated'.trans_le made.inodes) other
        have kept := made.fields j positive' allocated'
        exact ⟨same.type ▸ kept.1, same.nlink ▸ kept.2.1, same.size ▸ kept.2.2⟩
    case fresh =>
      intro j free inside
      change s'.freeinode <= j at free
      rw [extended.freeinode] at free
      have other : j ≠ i := by omega
      rw [update_of_ne other]
      refine ⟨(made.fresh j free inside).1, fun k direct => ?_⟩
      rw [<- (others j inside other).addrs k direct]
      exact (made.fresh j free inside).2 k direct
    case idle =>
      intro j free inside
      change j = 0 ∨ s'.freeinode <= j at free
      rw [extended.freeinode] at free
      rw [<- (others j inside (by omega)).size]
      exact made.idle j free inside

theorem iappendAll (made : Made s content) (pos : 0 < i) (allocated : i < s.freeinode)
    (reads : List (List Byte)) : (content i).length + reads.flatten.length <= BSIZE * MAXFILE ->
    ∃ s', iappendAll i reads s = some s' /\
      Made s' (update content i (content i ++ reads.flatten)) /\ s'.freeinode = s.freeinode := by
  induction reads generalizing s content with
  | nil =>
    intro _
    rw [List.flatten_nil, List.append_nil, update_eq_self]
    exact ⟨s, rfl, made, rfl⟩
  | cons buf rest ih =>
    intro fits
    rw [List.flatten_cons, List.length_append] at fits
    rcases made.iappend pos allocated (p := buf) (by omega) with ⟨s', first, made', same⟩
    rcases ih made' (by rw [same]; exact allocated)
      (by rw [update_self, List.length_append]; omega) with ⟨s'', later, made'', same'⟩
    rw [update_self, update_idem, List.append_assoc, <- List.flatten_cons] at made''
    refine ⟨s'', ?_, made'', same'.trans same⟩
    unfold Mkfs.iappendAll
    rw [first]
    exact later

end Made

/-! ## The files of the command line -/

def File.content (file : File) : List Byte := file.reads.flatten

/-- The entries of the files in the root, from inode `inum` on. -/
def entries : Nat -> List File -> List Byte
  | _, [] => []
  | inum, file :: rest => encode inum (literal file.name) ++ entries (inum + 1) rest

def rootBytes (files : List File) : List Byte :=
  encode ROOTINO (literal dot) ++ encode ROOTINO (literal dotdot) ++ entries 2 files

/-- What is in inode `i` once the files are there. -/
def contentOf (files : List File) (i : Nat) : List Byte :=
  if i = ROOTINO then rootBytes files else if i < 2 then []
  else ((files[i - 2]?).map File.content).getD []

theorem encode_length (inum : Nat) (name : Nat -> Byte) :
    (encode inum name).length = direntSize := by
  change (Dirents.strncpy DIRSIZ name).length + 2 = _
  rw [Dirents.strncpy_length]
  rfl

theorem entries_append (files rest : List File) :
    ∀ inum, entries inum (files ++ rest) =
      entries inum files ++ entries (inum + files.length) rest := by
  induction files with
  | nil => exact fun _ => rfl
  | cons file files ih =>
    intro inum
    rw [List.cons_append, entries, entries, ih, List.append_assoc, List.length_cons]
    congr 3
    omega

section

variable (files : List File)

include files

theorem entries_length : ∀ inum, (entries inum files).length = direntSize * files.length := by
  induction files with
  | nil => exact fun _ => rfl
  | cons file files ih =>
    intro inum
    rw [entries, List.length_append, encode_length, ih, List.length_cons]
    exact (Nat.mul_succ _ _).symm ▸ Nat.add_comm _ _

theorem rootBytes_length : (rootBytes files).length = direntSize * (files.length + 2) := by
  rw [rootBytes, List.length_append, List.length_append, encode_length, encode_length, entries_length]
  unfold direntSize
  omega

/-- One more file is one more entry and one more inode. -/
theorem contentOf_append (file : File) : contentOf (files ++ [file]) =
    update (update (contentOf files) ROOTINO
      (contentOf files ROOTINO ++ encode (files.length + 2) (literal file.name))) (files.length + 2)
        file.content := by
  funext j
  by_cases new : j = files.length + 2
  · subst new
    rw [update_self, contentOf, if_neg (by unfold ROOTINO; omega), if_neg (by omega), Nat.add_sub_cancel,
      List.getElem?_concat_length]
    rfl
  · rw [update_of_ne new]
    by_cases root : j = ROOTINO
    · subst root
      rw [update_self, contentOf, if_pos rfl, contentOf, if_pos rfl, rootBytes, rootBytes, entries_append,
        List.append_assoc _ (entries 2 files), Nat.add_comm 2]
      change _ ++ (_ ++ (encode _ _ ++ [])) = _
      rw [List.append_nil]
    · rw [update_of_ne root, contentOf, if_neg root, contentOf, if_neg root]
      by_cases low : j < 2
      · rw [if_pos low, if_pos low]
      · rw [if_neg low, if_neg low]
        by_cases before : j - 2 < files.length
        · rw [List.getElem?_append_left before]
        · rw [List.getElem?_eq_none (by rw [List.length_append, List.length_singleton]; omega),
            List.getElem?_eq_none (Nat.le_of_not_lt before)]

theorem contentOf_after (after : files.length + 2 <= i) : contentOf files i = [] := by
  rw [contentOf, if_neg (by unfold ROOTINO; omega), if_neg (by omega), List.getElem?_eq_none (by omega)]
  rfl

/-- The blocks that the files and the root need. -/
def blocksNeeded (files : List File) : Nat :=
  need (blocksOf (direntSize * (files.length + 2))) +
    (files.map fun file => need (blocksOf file.content.length)).sum

omit files in
theorem contentOf_nil : contentOf [] = update (fun _ => []) ROOTINO (rootBytes []) := by
  funext j
  by_cases root : j = ROOTINO
  · rw [root, update_self, contentOf, if_pos rfl]
  · rw [update_of_ne root, contentOf, if_neg root]
    exact ite_self _

theorem counts_contentOf_root :
    counts (contentOf files) ROOTINO = blocksOf (direntSize * (files.length + 2)) := by
  rw [<- rootBytes_length]
  rfl

theorem total_contentOf :
    files.length + 2 <= NINODES -> total (contentOf files) = blocksNeeded files := by
  induction files using List.reverseRecOn with
  | nil =>
    intro _
    have root := total_update (fun _ => []) (show ROOTINO < NINODES by decide) (rootBytes [])
    have none : need (counts (fun _ => []) ROOTINO) = 0 := need_empty
    rw [total_empty, rootBytes_length, <- contentOf_nil, none, Nat.zero_add, Nat.add_zero] at root
    rw [root, blocksNeeded, List.map_nil, List.sum_nil]
    exact (Nat.add_zero _).symm
  | append_singleton files file ih =>
    intro room
    rw [List.length_append, List.length_singleton] at room
    have old := ih (by omega)
    have entry := total_update (contentOf files) (show ROOTINO < NINODES by decide)
      (contentOf files ROOTINO ++ encode (files.length + 2) (literal file.name))
    have inode := total_update (update (contentOf files) ROOTINO
      (contentOf files ROOTINO ++ encode (files.length + 2) (literal file.name)))
      (show files.length + 2 < NINODES by omega) file.content
    have root : (contentOf files ROOTINO ++ encode (files.length + 2) (literal file.name)).length =
        direntSize * (files.length + 1 + 2) := by
      rw [List.length_append, encode_length, contentOf, if_pos rfl, rootBytes_length]
      unfold direntSize
      omega
    have none : need (counts (update (contentOf files) ROOTINO
        (contentOf files ROOTINO ++ encode (files.length + 2) (literal file.name)))
          (files.length + 2)) = 0 := by
      rw [counts, update_of_ne (by unfold ROOTINO; omega), contentOf_after files (le_refl _)]
      exact need_empty
    rw [root, counts_contentOf_root] at entry
    rw [<- contentOf_append, none] at inode
    unfold blocksNeeded at old ⊢
    rw [List.length_append, List.length_singleton, List.map_append, List.sum_append, List.map_singleton,
      List.sum_singleton]
    omega

end

namespace Made

variable {s : State}

/-- A file gets the next inode and an entry in the root. -/
theorem addFile {files : List File} (made : Made s (contentOf files))
    (number : s.freeinode = files.length + 2) (room : files.length + 2 < NINODES) {file : File}
    (noSlash : slash ∉ file.arg) (fits : file.content.length <= BSIZE * MAXFILE) :
    ∃ s', addFile file s = some s' /\ Made s' (contentOf (files ++ [file])) /\
      s'.freeinode = files.length + 3 := by
  have kind : kindOf s.freeinode = T_FILE := if_neg (by unfold ROOTINO; omega)
  have made' := made.ialloc (by omega) (number ▸ room)
  rw [kind] at made'
  have more : (Mkfs.ialloc T_FILE s).freeinode = files.length + 3 := congrArg Nat.succ number
  have root : (contentOf files ROOTINO).length = direntSize * (files.length + 2) := rootBytes_length files
  rcases made'.iappend (i := ROOTINO) (p := encode s.freeinode (literal file.name)) (by decide)
    (by rw [more]; unfold ROOTINO; omega)
    (by rw [root, encode_length]
        have largest : direntSize * NINODES <= BSIZE * MAXFILE := by decide
        unfold direntSize at largest ⊢
        omega) with ⟨s', entered, made'', same⟩
  rcases made''.iappendAll (i := files.length + 2) (by omega) (by rw [same, more]; omega) file.reads
    (by rw [update_of_ne (by unfold ROOTINO; omega), contentOf_after files (le_refl _)]
        exact (Nat.zero_add _).le.trans fits) with ⟨s'', appended, written, same'⟩
  rw [update_of_ne (by unfold ROOTINO; omega), contentOf_after files (le_refl _), List.nil_append,
    number] at written
  refine ⟨s'', ?_, ?_, same'.trans (same.trans more)⟩
  · unfold Mkfs.addFile
    rw [if_neg noSlash]
    dsimp only
    rw [entered, number]
    exact appended
  · rw [contentOf_append]
    exact written

theorem addFiles (rest : List File) : ∀ {files : List File} {s : State}, Made s (contentOf files) ->
    s.freeinode = files.length + 2 -> (files ++ rest).length + 2 <= NINODES ->
    (∀ file, file ∈ rest -> slash ∉ file.arg /\ file.content.length <= BSIZE * MAXFILE) ->
    ∃ s', addFiles rest s = some s' /\ Made s' (contentOf (files ++ rest)) /\
      s'.freeinode = (files ++ rest).length + 2 := by
  induction rest with
  | nil =>
    intro files s made number _ _
    rw [List.append_nil]
    exact ⟨s, rfl, made, number⟩
  | cons file rest ih =>
    intro files s made number room good
    rw [List.length_append, List.length_cons] at room
    rcases made.addFile number (by omega) (good file List.mem_cons_self).1
      (good file List.mem_cons_self).2 with
      ⟨s', first, made', number'⟩
    rcases ih made' (by rw [number', List.length_append, List.length_singleton])
      (by rw [List.length_append, List.length_append, List.length_singleton]; omega)
      (fun other listed => good other (List.mem_cons_of_mem _ listed)) with ⟨s'', later, made'', number''⟩
    rw [List.append_assoc, List.singleton_append] at made'' number''
    refine ⟨s'', ?_, made'', number''⟩
    unfold Mkfs.addFiles
    rw [first]
    exact later

/-- The image before the root. -/
theorem blank : Made blank fun _ => [] := by
  have zero : ∀ b, b ≠ 1 -> Mkfs.blank.disk b = fun _ => 0#8 := fun b other => if_neg other
  have empty : ∀ i, dinode Mkfs.blank.disk i = dinode (fun _ _ => 0#8) i := by
    intro i
    have place : IBLOCK i ≠ 1 := Nat.ne_of_gt (Nat.le_add_left 2 _)
    rw [dinode, dinode, zero _ place]
  have addrs : ∀ i k, (dinode Mkfs.blank.disk i).addrs k = 0 := by
    intro i k
    rw [empty]
    exact Inodes.word_zero (i % IPB * 16 + 3 + k)
  have slots : ∀ i k, addr Mkfs.blank.disk (dinode Mkfs.blank.disk) (i, k) = 0 := by
    intro i k
    by_cases direct : k <= NDIRECT
    · rw [addr_direct direct, addrs]
    · rw [addr_indirect (Nat.lt_of_not_le direct), if_pos (addrs i NDIRECT)]
  have none : ∀ j, counts (fun _ => []) j = 0 := fun _ => show blocksOf 0 = 0 by decide
  constructor
  case filed =>
    refine ⟨⟨le_refl _, ?_, ?_, ?_⟩, ?_, ?_, ?_⟩
    · exact fun i k _ _ set => absurd (slots i k) set
    · exact fun i k _ _ _ _ _ _ set => absurd (slots i k) set
    · intro b high
      change 29 <= b at high
      exact zero b (by omega)
    · intro i bn _ _
      rw [slots, none]
      exact ⟨fun wrong => absurd rfl wrong, fun wrong => absurd wrong (Nat.not_lt_zero _)⟩
    · intro i _
      rw [none]
      exact ⟨Nat.zero_le _, Nat.zero_le _⟩
    · intro i bn r _ within
      rw [none] at within
      exact absurd within (Nat.not_lt_zero _)
  case total => exact Nat.le_add_right 29 _
  case used => rfl
  case super => rfl
  case inodes => decide
  case fields =>
    intro i pos allocated
    change i < 1 at allocated
    omega
  case fresh => exact fun i _ _ => ⟨rfl, fun k _ => addrs i k⟩
  case idle =>
    intro i _ _
    rw [empty]
    exact Inodes.word_zero (i % IPB * 16 + 2)

/-- The root has its first two entries. -/
theorem makeRoot :
    ∃ s, makeRoot Mkfs.blank = some s /\ Made s (contentOf []) /\ s.freeinode = 2 := by
  have kind : kindOf Mkfs.blank.freeinode = T_DIR := rfl
  have made := blank.ialloc (by decide) (by decide)
  rw [kind] at made
  have number : (Mkfs.ialloc T_DIR Mkfs.blank).freeinode = 2 := rfl
  rcases made.iappend (i := ROOTINO) (p := encode ROOTINO (literal dot)) (by decide)
    (by rw [number]; decide) (by rw [encode_length]; decide) with ⟨s, first, made', same⟩
  rcases made'.iappend (i := ROOTINO) (p := encode ROOTINO (literal dotdot)) (by decide)
    (by rw [same, number]; decide)
    (by rw [update_self, List.nil_append, encode_length, encode_length]; decide) with ⟨s', second,
      made'', same'⟩
  rw [update_self, update_idem, List.nil_append] at made''
  refine ⟨s', ?_, ?_, same'.trans (same.trans number)⟩
  · unfold Mkfs.makeRoot
    rw [first, Option.bind_some, second]
  · rw [contentOf_nil, rootBytes, entries, List.append_nil]
    exact made''

end Made

/-! ## `main` -/

/-- What is on the image. -/
structure Written (disk : Disk) (content : Nat -> List Byte) (inodes used : Nat) : Prop where
  filed : Filed disk (dinode disk) (counts content) content used
  image : Image mkfsSuperblock used disk
  fields : ∀ i, 0 < i -> i < inodes -> (dinode disk i).type = kindOf i /\ (dinode disk i).nlink = 1#16 /\
    (dinode disk i).size =
      if i = ROOTINO then ((content i).length / BSIZE + 1) * BSIZE else (content i).length
  idle : ∀ i, i = 0 ∨ inodes <= i -> i < NINODES -> (dinode disk i).size = 0
  taken : used <= 29 + total content

/-- The size of the root is rounded up, and the bitmap is written. -/
theorem Made.written {s : State} {content : Nat -> List Byte} (made : Made s content)
    (some : 1 < s.freeinode) (fits : s.freeblock < BPB) :
    ∃ s', balloc (fixRoot s) = Option.some s' /\
      Written s'.disk content s.freeinode s.freeblock := by
  have known : ROOTINO < NINODES := by decide
  have root := made.fields ROOTINO (by decide) some
  have filed := made.filed
  have size : ((content ROOTINO).length / BSIZE + 1) * BSIZE < 2 ^ 32 := by
    have bound := filed.fits ROOTINO known
    have largest : BSIZE * MAXFILE + BSIZE < 2 ^ 32 := by decide
    have whole := Nat.div_mul_le_self (content ROOTINO).length BSIZE
    have count := Nat.mul_le_mul_left BSIZE bound.1
    rw [Nat.add_mul, Nat.one_mul]
    omega
  have fit : Fits { rinode ROOTINO s with size := ((rinode ROOTINO s).size / BSIZE + 1) * BSIZE } := by
    refine ⟨?_, fun k _ => Inodes.word_lt _ _⟩
    change ((dinode s.disk ROOTINO).size / BSIZE + 1) * BSIZE < 2 ^ 32
    rw [root.2.2]
    exact size
  have self := dinode_winode_self fit ROOTINO s
  have bitmap : mkfsSuperblock.ninodes / IPB + 3 = 28 := by decide
  have place := IBLOCK_lt known
  have used : (fixRoot s).usedblocks = s.freeblock := made.used
  have inodes : ∀ j, j < NINODES ->
      dinode (update (fixRoot s).disk 28 (mkfsBits s.freeblock)) j = dinode (fixRoot s).disk j := by
    intro j inside
    have place := IBLOCK_lt inside
    rw [dinode, update_of_ne (by omega)]
    rfl
  have others : ∀ j, j ≠ ROOTINO -> Same (dinode s.disk j) (dinode (fixRoot s).disk j) :=
    fun j other => dinode_winode_of_ne _ other s
  refine ⟨wsect 28 (mkfsBits s.freeblock) (fixRoot s), ?_, ?_⟩
  · unfold balloc
    rw [used, bitmap]
    exact if_pos fits
  · constructor
    case filed =>
      refine filed.congr ?_ ?_
      · intro b high
        change update (fixRoot s).disk 28 _ b = _
        rw [update_of_ne (by omega)]
        exact winode_of_ne _ (by omega) _
      · intro j inside k direct
        change (dinode (update (fixRoot s).disk 28 _) j).addrs k = _
        rw [inodes j inside]
        by_cases other : j = ROOTINO
        · rw [other]
          exact (self.addrs k direct).symm
        · exact ((others j other).addrs k direct).symm
    case image =>
      constructor
      · have first : update (fixRoot s).disk 28 (mkfsBits s.freeblock) 1 = mkfsSuperbytes := by
          rw [update_of_ne (by decide)]
          exact (winode_of_ne _ (by omega) _).trans made.super
        change readsb (update (fixRoot s).disk 28 _) = _
        have same : readsb (update (fixRoot s).disk 28 (mkfsBits s.freeblock)) =
            readsb fun _ => mkfsSuperbytes := by
          unfold readsb
          rw [first]
        rw [same]
        decide
      · rw [bitmap]
        exact update_self 28 (mkfsBits s.freeblock) (fixRoot s).disk
      · exact filed.laid.start
      · exact fits
      · decide
    case fields =>
      intro i pos allocated
      have inside := allocated.trans_le made.inodes
      change (dinode (update (fixRoot s).disk 28 _) i).type = _ /\
        (dinode (update (fixRoot s).disk 28 _) i).nlink = _ /\
        (dinode (update (fixRoot s).disk 28 _) i).size = _
      rw [inodes i inside]
      have old := made.fields i pos allocated
      by_cases other : i = ROOTINO
      · subst other
        rw [if_pos rfl, <- root.2.2]
        exact ⟨self.type.symm.trans root.1, self.nlink.symm.trans root.2.1, self.size.symm⟩
      · rw [if_neg other]
        have same := others i other
        exact ⟨same.type ▸ old.1, same.nlink ▸ old.2.1, same.size ▸ old.2.2⟩
    case idle =>
      intro i free inside
      change (dinode (update (fixRoot s).disk 28 _) i).size = 0
      rw [inodes i inside, <- (others i (by unfold ROOTINO; omega)).size]
      exact made.idle i free inside
    case taken => exact made.total

/-- The state of `main` before the size of the root is rounded up. -/
theorem main_made {files : List File} (few : files.length + 2 <= NINODES)
    (good : ∀ file, file ∈ files -> slash ∉ file.arg /\ file.content.length <= BSIZE * MAXFILE) :
    ∃ s, (makeRoot blank).bind (addFiles files) = some s /\ Made s (contentOf files) /\
      s.freeinode = files.length + 2 := by
  rcases Made.makeRoot with ⟨s, root, made, number⟩
  rcases Made.addFiles files made number (by rw [List.nil_append]; exact few)
    good with ⟨s', added, made', number'⟩
  rw [List.nil_append] at made' number'
  exact ⟨s', by rw [root, Option.bind_some, added], made', number'⟩

/-- `main` succeeds on files that fit. -/
theorem main_written {files : List File} (few : files.length + 2 <= NINODES)
    (good : ∀ file, file ∈ files -> slash ∉ file.arg /\ file.content.length <= BSIZE * MAXFILE)
    (room : blocksNeeded files <= mkfsSuperblock.nblocks) : ∃ disk used,
      main files = some disk /\ Written disk (contentOf files) (files.length + 2) used /\
      used <= logStart mkfsSuperblock := by
  rcases main_made few good with ⟨s, added, made, number⟩
  have total := made.total
  rw [total_contentOf files few] at total
  have below : s.freeblock <= logStart mkfsSuperblock := by
    have limits : mkfsSuperblock.nblocks + 29 = logStart mkfsSuperblock := by decide
    omega
  have bits : logStart mkfsSuperblock < BPB := by decide
  rcases made.written (by omega) (by omega) with ⟨s', fixed, written⟩
  rw [number] at written
  refine ⟨s'.disk, s.freeblock, ?_, written, below⟩
  unfold main
  rw [added, Option.bind_some, fixed, Option.map_some]

end Xv6.Fs.Mkfs
