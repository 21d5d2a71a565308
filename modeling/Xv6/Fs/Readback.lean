import Xv6.Fs.Written

namespace Xv6.Fs.Mkfs

open Inodes (Dinode dinode NDIRECT MAXFILE T_DIR T_DEV T_FILE addr slotOf bmap chunk Covers
  addLogged setAddr)
open Dirents (direntSize DIRSIZ encode literal slash namecmp nameOf decode)
open Xv6.Fs.Sequential (R ofM bind_some bind_get map_some dirlookupLoop)
open Function

/-!
# The kernel on the image of `mkfs`

`dirlookup` and `readi` of the kernel on the image that `main` leaves.  The entry of
a file is found before any free entry.  A name that is not there is compared with
every entry, and the size of the root is rounded up past its last block when that
block is full: `bmap` then allocates a block for the directory, and the entries
there are free.
-/

/-! ## Reading one entry -/

/-- `de` for the bytes that `readi` copied. -/
def entryOf (bytes : List Byte) : Nat × (Nat -> Byte) :=
  ((bytes.getD 0 0#8).toNat + 256 * (bytes.getD 1 0#8).toNat, fun k => bytes.getD (k + 2) 0#8)

/-- The bytes of a `struct dirent` in a block. -/
def direntBytes (data : Block) (first : Nat) : List Byte :=
  (List.range direntSize).map fun j => data (first + j)

/-- The entry of a directory at an offset, in the block that has it. -/
def entryAt (data : Block) (off : Nat) : Nat × (Nat -> Byte) :=
  entryOf (direntBytes data (off % BSIZE))

section Reading

variable {s t : Inodes.State} {dp off b : Nat}

section

variable (run : ofM (bmap dp (off / BSIZE)) s = some (b, t)) (notDevice : (s.inode dp).type ≠ T_DEV)
  (aligned : off % direntSize = 0) (inside : off + direntSize <= (s.inode dp).size)
  (small : (s.inode dp).size < 2 ^ 32)

include run notDevice aligned inside small

/-- An entry is in one block. -/
theorem readDirent_run : Sequential.readDirent dp off s = some (entryAt (t.disk b) off, t) := by
  have whole : chunk off direntSize = direntSize := by
    unfold chunk BSIZE
    unfold direntSize at aligned ⊢
    omega
  have loop : Sequential.readiLoop dp direntSize off direntSize s =
      some (direntBytes (t.disk b) (off % BSIZE), t) := by
    change Sequential.readiLoop dp (15 + 1) off direntSize s = _
    rw [Sequential.readiLoop, if_neg (by decide), bind_some run, bind_get, whole, Nat.sub_self]
    have rest : Sequential.readiLoop dp 15 (off + direntSize) 0 t = some ([], t) := rfl
    rw [bind_some rest, List.append_nil]
    rfl
  have offset : (BitVec.ofNat 32 off).toNat = off := by
    rw [BitVec.toNat_ofNat]
    exact Nat.mod_eq_of_lt (by unfold direntSize at inside; omega)
  have read : Sequential.readi dp (BitVec.ofNat 32 off) direntSize s =
      some (some (direntBytes (t.disk b) (off % BSIZE)), t) := by
    have bounded : (BitVec.ofNat 32 off).toNat + direntSize < 2 ^ 32 := by
      rw [offset]
      omega
    rcases Contents.toNat_add_length bounded with ⟨stays, sum⟩
    unfold Sequential.readi
    rw [bind_get]
    rw [if_neg notDevice, offset, if_neg (not_or.mpr ⟨by omega, stays⟩), sum, offset, if_neg (by omega)]
    exact map_some loop
  unfold Sequential.readDirent
  rw [bind_some read]
  have length : (direntBytes (t.disk b) (off % BSIZE)).length = direntSize := by
    rw [direntBytes, List.length_map, List.length_range]
  dsimp only
  rw [if_pos length]
  rfl

variable (name : Nat -> Byte)

/-- An entry that is free or has another name. -/
theorem dirlookupLoop_pass
    (differs : (entryAt (t.disk b) off).1 = 0 ∨ namecmp name (entryAt (t.disk b) off).2 ≠ 0)
    (more : Nat) :
    dirlookupLoop dp name (more + 1) off s = dirlookupLoop dp name more (off + direntSize) t := by
  have less : off < (s.inode dp).size := by
    unfold direntSize at inside
    omega
  rw [dirlookupLoop, bind_get, if_pos less, bind_some (readDirent_run run notDevice aligned inside small)]
  by_cases free : (entryAt (t.disk b) off).1 = 0
  · rw [if_pos free]
  · rw [if_neg free, if_neg (differs.resolve_left free)]

/-- The entry that has the name. -/
theorem dirlookupLoop_hit (used : (entryAt (t.disk b) off).1 ≠ 0)
    (same : namecmp name (entryAt (t.disk b) off).2 = 0) (more : Nat) :
    dirlookupLoop dp name (more + 1) off s = some (some ((entryAt (t.disk b) off).1, off), t) := by
  have less : off < (s.inode dp).size := by
    unfold direntSize at inside
    omega
  rw [dirlookupLoop, bind_get, if_pos less, bind_some (readDirent_run run notDevice aligned inside small),
    if_neg used, if_pos same]
  rfl

end

/-- Entries that are free or have other names, in blocks that the directory has. -/
theorem dirlookupLoop_skip (name : Nat -> Byte) (notDevice : (s.inode dp).type ≠ T_DEV)
    (small : (s.inode dp).size < 2 ^ 32) (more count : Nat) : ∀ first,
      direntSize * (first + count) <= (s.inode dp).size ->
      (∀ m, first <= m -> m < first + count -> ∃ b,
        ofM (bmap dp (direntSize * m / BSIZE)) s = some (b, s) /\
        ((entryAt (s.disk b) (direntSize * m)).1 = 0 ∨
          namecmp name (entryAt (s.disk b) (direntSize * m)).2 ≠ 0)) ->
      dirlookupLoop dp name (count + more) (direntSize * first) s =
        dirlookupLoop dp name more (direntSize * (first + count)) s := by
  induction count with
  | zero =>
    intro first _ _
    rw [Nat.zero_add, Nat.add_zero]
  | succ count ih =>
    intro first inside entries
    rcases entries first (le_refl _) (by omega) with ⟨b, run, differs⟩
    have here : direntSize * first + direntSize <= (s.inode dp).size := by
      unfold direntSize at inside ⊢
      omega
    have next : direntSize * first + direntSize = direntSize * (first + 1) := rfl
    have shift : first + 1 + count = first + (count + 1) := by omega
    rw [Nat.succ_add, dirlookupLoop_pass run notDevice (Nat.mul_mod_right _ _) here small name
      differs, next, ih (first + 1) (by rw [shift]; exact inside)
        (fun m low high => entries m (by omega) (by omega)), shift]

end Reading

/-! ## The entries of the root -/

/-- Entry `m` of the root. -/
def rootEntry (files : List File) : Nat -> Option (Nat × List Byte)
  | 0 => some (ROOTINO, dot)
  | 1 => some (ROOTINO, dotdot)
  | k + 2 => (files[k]?).map fun file => (k + 2, file.name)

theorem entries_getD (files : List File) : ∀ inum {k : Nat} {file : File}, files[k]? = some file ->
    ∀ j, j < direntSize ->
      (entries inum files).getD (direntSize * k + j) 0#8 =
        (encode (inum + k) (literal file.name)).getD j 0#8 := by
  induction files with
  | nil => exact fun _ _ _ found => nomatch found
  | cons first files ih =>
    intro inum k file found j less
    rw [entries]
    cases k with
    | zero =>
      cases found
      rw [Nat.mul_zero, Nat.zero_add, Nat.add_zero]
      exact List.getD_append _ _ _ _ (by rw [encode_length]; exact less)
    | succ k =>
      have later := ih (inum + 1) (k := k) found j less
      rw [List.getD_append_right _ _ _ _ (by rw [encode_length]; unfold direntSize; omega), encode_length]
      have place : direntSize * (k + 1) + j - direntSize = direntSize * k + j := by
        unfold direntSize
        omega
      rw [place, later, Nat.add_assoc, Nat.add_comm 1]

variable {inum : Nat} {chars : List Byte} {j : Nat}

theorem rootBytes_getD {files : List File} {m : Nat} {name : List Byte}
    (found : rootEntry files m = some (inum, name)) (less : j < direntSize) :
    (rootBytes files).getD (direntSize * m + j) 0#8 = (encode inum (literal name)).getD j 0#8 := by
  have front : (encode ROOTINO (literal dot) ++ encode ROOTINO (literal dotdot)).length =
      2 * direntSize := by
    rw [List.length_append, encode_length, encode_length]
    rfl
  rw [rootBytes]
  rcases m with _ | _ | k
  · cases found
    rw [List.append_assoc, List.getD_append _ _ _ _ (by rw [encode_length]; omega), Nat.mul_zero,
      Nat.zero_add]
  · cases found
    rw [List.append_assoc, List.getD_append_right _ _ _ _ (by rw [encode_length]; omega),
      List.getD_append _ _ _ _ (by rw [encode_length, encode_length]; omega), encode_length, Nat.mul_one,
      Nat.add_sub_cancel_left]
  · rcases Option.map_eq_some_iff.mp found with ⟨file, listed, pair⟩
    cases pair
    rw [List.getD_append_right _ _ _ _ (by rw [front]; unfold direntSize; omega), front]
    have place : direntSize * (k + 2) + j - 2 * direntSize = direntSize * k + j := by
      unfold direntSize
      omega
    rw [place, entries_getD files 2 listed j less, Nat.add_comm 2]

/-- What an entry of the root decodes to. -/
theorem entryOf_encode (fits : inum < 2 ^ 16) {name bytes : List Byte}
    (length : bytes.length = direntSize)
    (same : ∀ j, j < direntSize -> bytes.getD j 0#8 = (encode inum (literal name)).getD j 0#8) :
    (entryOf bytes).1 = inum /\ nameOf (entryOf bytes).2 = nameOf (literal name) := by
  have equal : bytes = encode inum (literal name) := by
    apply List.ext_getElem (length.trans (encode_length _ _).symm)
    intro j inside inside'
    have here := same j (length ▸ inside)
    rwa [List.getD_eq_getElem _ _ inside, List.getD_eq_getElem _ _ inside'] at here
  have decoded := Dirents.decode_encode fits (literal name)
  rw [<- equal] at decoded
  exact ⟨congrArg Dirent.inum decoded, congrArg Dirent.name decoded⟩

theorem direntBytes_getD (data : Block) (first : Nat) (less : j < direntSize) :
    (direntBytes data first).getD j 0#8 = data (first + j) := by
  unfold direntBytes
  rw [List.getD_eq_getElem _ _ (by rw [List.length_map, List.length_range]; exact less), List.getElem_map,
    List.getElem_range]

/-! ## A block for the directory -/

section Allocation

variable {s : Inodes.State}

theorem bind_ok {ε σ α β : Type} {first : EStateM ε σ α} {next : α -> EStateM ε σ β} {s t : σ}
    {value : α} (run : first s = .ok value t) : (first >>= next) s = next value t := by
  change EStateM.bind first next s = _
  rw [EStateM.bind, run]

theorem logWrite_ok (super : readsb s.disk = mkfsSuperblock) (few : s.logged.length < 29)
    (b : Nat) : Inodes.logWrite b s = .ok () (addLogged b s) := by
  have room : ¬ (Inodes.LOGSIZE <= s.logged.length ∨ mkfsSuperblock.nlog - 1 <= s.logged.length) := by
    unfold Inodes.LOGSIZE
    change ¬ (30 <= s.logged.length ∨ 29 <= s.logged.length)
    omega
  change (if Inodes.LOGSIZE <= s.logged.length ∨ (readsb s.disk).nlog - 1 <= s.logged.length then throw _
    else modify (addLogged b) : Inodes.M Unit) s = _
  rw [super, if_neg room]
  rfl

theorem addLogged_length (b : Nat) (s : Inodes.State) :
    (addLogged b s).logged.length <= s.logged.length + 1 := by
  unfold addLogged
  dsimp only
  split
  · exact Nat.le_succ _
  · rw [List.length_append, List.length_singleton]

/-- `balloc` in an operation that has logged nothing. -/
theorem ballocOp_ok {b : Nat} {after : Disk} (found : Fs.balloc s.disk = .ok (b, after))
    (super : readsb after = mkfsSuperblock) (none : s.logged = []) :
    ∃ t, Inodes.ballocOp s = .ok b t /\ t.disk = after /\ t.inode = s.inode := by
  have first := logWrite_ok (s := { s with disk := after, taken := b :: s.taken }) super
    (by change s.logged.length < 29; rw [none]; decide) (BBLOCK b (readsb after).ninodes)
  have second := logWrite_ok (s := addLogged (BBLOCK b (readsb after).ninodes)
    { s with disk := after, taken := b :: s.taken }) super
    (by refine Nat.lt_of_le_of_lt (addLogged_length _ _) ?_
        change s.logged.length + 1 < 29
        rw [none]
        decide) b
  have taken : Inodes.take (.ok (b, after)) s = .ok b (addLogged b
      (addLogged (BBLOCK b (readsb after).ninodes) { s with disk := after, taken := b :: s.taken })) := by
    change (Inodes.logWrite (BBLOCK b (readsb after).ninodes) >>= fun _ =>
      Inodes.logWrite b >>= fun _ => pure b :
      Inodes.M Nat) { s with disk := after, taken := b :: s.taken } = _
    rw [bind_ok first, bind_ok second]
    rfl
  refine ⟨addLogged b (addLogged (BBLOCK b (readsb after).ninodes)
    { s with disk := after, taken := b :: s.taken }), ?_, rfl, rfl⟩
  have state : (get : Inodes.M Inodes.State) s = .ok s s := rfl
  unfold Inodes.ballocOp
  rw [bind_ok state, found]
  exact taken

theorem addrOf_new {i k b : Nat} {t : Inodes.State} (empty : (s.inode i).addrs k = 0)
    (allocated : Inodes.ballocOp s = .ok b t) : Inodes.addrOf i k s = .ok b (setAddr i k b t) := by
  have state : (get : Inodes.M Inodes.State) s = .ok s s := rfl
  unfold Inodes.addrOf
  rw [bind_ok state, if_pos empty, bind_ok allocated]
  rfl

end Allocation

variable {file : File}

/-- The block that has entry `m` of the root. -/
def rootBlock (disk : Disk) (m : Nat) : Block :=
  disk (addr disk (dinode disk) (ROOTINO, slotOf (direntSize * m / BSIZE)))

section Image

variable {disk : Disk} {files : List File} {used : Nat}
  (written : Written disk (contentOf files) (files.length + 2) used)

include written

variable {m : Nat}

/-- The byte `j` of entry `m`, when the root has its block. -/
theorem root_byte (inside : direntSize * m / BSIZE < counts (contentOf files) ROOTINO)
    (less : j < direntSize) : rootBlock disk m (direntSize * m % BSIZE + j) =
      (rootBytes files).getD (direntSize * m + j) 0#8 := by
  have byte := written.filed.bytes ROOTINO _ (direntSize * m % BSIZE + j) (by decide) inside
    (by unfold BSIZE direntSize at *; omega)
  rw [rootBlock, byte]
  change (rootBytes files).getD _ _ = _
  congr 1
  rw [<- Nat.add_assoc, Nat.div_add_mod]

theorem root_bmap {bn : Nat} (inside : bn < counts (contentOf files) ROOTINO) :
    ofM (bmap ROOTINO bn) (Inodes.started disk) =
      some (addr disk (dinode disk) (ROOTINO, slotOf bn), Inodes.started disk) := by
  have bounded := inside.trans_le (written.filed.fits ROOTINO (by decide)).1
  have set := (written.filed.mapped ROOTINO bn (by decide) bounded).mpr inside
  unfold ofM
  rw [(Inodes.reads_bmap (s := Inodes.started disk) bounded set).eq_ok]
  rfl

/-- Entry `m` as `readi` copies it. -/
theorem root_entry (few : files.length + 2 <= NINODES) {inum : Nat} {chars : List Byte}
    (inside : direntSize * m / BSIZE < counts (contentOf files) ROOTINO)
    (found : rootEntry files m = some (inum, chars)) :
    (entryAt (rootBlock disk m) (direntSize * m)).1 = inum /\
      nameOf (entryAt (rootBlock disk m) (direntSize * m)).2 = nameOf (literal chars) := by
  have fits : inum < 2 ^ 16 := by
    unfold NINODES at few
    match m with
    | 0 =>
      cases found
      decide
    | 1 =>
      cases found
      decide
    | k + 2 =>
      rcases Option.map_eq_some_iff.mp found with ⟨file, listed, pair⟩
      cases pair
      have below := (List.getElem?_eq_some_iff.mp listed).1
      omega
  apply entryOf_encode fits
  · rw [direntBytes, List.length_map, List.length_range]
  · intro j less
    rw [direntBytes_getD _ _ less, root_byte written inside less, rootBytes_getD found less]

variable {name : Nat -> Byte}

/-- A free entry, or one with another name. -/
theorem root_differs (few : files.length + 2 <= NINODES)
    (inside : direntSize * m / BSIZE < counts (contentOf files) ROOTINO)
    (other : ∀ inum chars, rootEntry files m = some (inum, chars) ->
      nameOf name ≠ nameOf (literal chars)) :
    (entryAt (rootBlock disk m) (direntSize * m)).1 = 0 ∨
      namecmp name (entryAt (rootBlock disk m) (direntSize * m)).2 ≠ 0 := by
  cases found : rootEntry files m with
  | some pair =>
    rcases pair with ⟨inum, chars⟩
    right
    intro same
    rw [Dirents.namecmp_eq_zero, (root_entry written few inside found).2] at same
    exact other inum chars found same
  | none =>
    left
    have after : files.length + 2 <= m := by
      by_contra before
      match m with
      | 0 => cases found
      | 1 => cases found
      | k + 2 =>
        have listed := List.getElem?_eq_none_iff.mp (Option.map_eq_none_iff.mp found)
        omega
    have zero : ∀ j, j < direntSize ->
        (direntBytes (rootBlock disk m) (direntSize * m % BSIZE)).getD j 0#8 = 0#8 := by
      intro j less
      rw [direntBytes_getD _ _ less, root_byte written inside less, List.getD_eq_default]
      rw [rootBytes_length]
      unfold direntSize
      omega
    unfold entryAt entryOf
    rw [zero 0 (by decide), zero 1 (by decide)]
    rfl

theorem root_fields : (dinode disk ROOTINO).type = T_DIR /\
    (dinode disk ROOTINO).size = (direntSize * (files.length + 2) / BSIZE + 1) * BSIZE := by
  have fields := written.fields ROOTINO (by decide) (by unfold ROOTINO; omega)
  have length : (contentOf files ROOTINO).length = direntSize * (files.length + 2) :=
    rootBytes_length files
  rw [if_pos rfl, length] at fields
  exact ⟨fields.1, fields.2.2⟩

theorem dirlookup_root (name : Nat -> Byte) :
    Sequential.dirlookup ROOTINO name (Inodes.started disk) =
    dirlookupLoop ROOTINO name ((dinode disk ROOTINO).size / direntSize + 1) 0
      (Inodes.started disk) := by
  have isDir : ¬ ((Inodes.started disk).inode ROOTINO).type ≠ T_DIR := not_not.mpr (root_fields written).1
  unfold Sequential.dirlookup
  rw [bind_get, if_neg isDir]
  rfl

theorem root_notDevice : ((Inodes.started disk).inode ROOTINO).type ≠ T_DEV := by
  change (dinode disk ROOTINO).type ≠ T_DEV
  rw [(root_fields written).1]
  decide

/-- A name of a file is found, and nothing changes. -/
theorem dirlookup_found (few : files.length + 2 <= NINODES) {k : Nat}
    (listed : files[k]? = some file) (same : nameOf name = nameOf (literal file.name))
    (first : ∀ m, m < k + 2 -> ∀ inum chars, rootEntry files m = some (inum, chars) ->
      nameOf name ≠ nameOf (literal chars)) :
    Sequential.dirlookup ROOTINO name (Inodes.started disk) =
      some (some (k + 2, direntSize * (k + 2)), Inodes.started disk) := by
  have below := (List.getElem?_eq_some_iff.mp listed).1
  have size := (root_fields written).2
  have blocks := counts_contentOf_root files
  have notDevice := root_notDevice written
  have bound : (dinode disk ROOTINO).size < 2 ^ 32 := Inodes.word_lt _ _
  have place : ∀ m, m <= k + 2 -> direntSize * m / BSIZE < counts (contentOf files) ROOTINO := by
    intro m low
    rw [blocks]
    unfold blocksOf BSIZE direntSize
    omega
  have inside : direntSize * (k + 2) + direntSize <= (dinode disk ROOTINO).size := by
    rw [size]
    unfold BSIZE direntSize
    omega
  have fuel : (dinode disk ROOTINO).size / direntSize + 1 =
      k + 2 + ((dinode disk ROOTINO).size / direntSize - (k + 2) + 1) := by
    unfold direntSize at inside ⊢
    omega
  have skipped := dirlookupLoop_skip name notDevice bound
    ((dinode disk ROOTINO).size / direntSize - (k + 2) + 1) (k + 2) 0
    (by rw [Nat.zero_add]; exact (Nat.le_add_right _ _).trans inside)
    (fun m _ high => ⟨_, root_bmap written (place m (by omega)),
      root_differs written few (place m (by omega)) (first m (by omega))⟩)
  have entry := root_entry written few (place (k + 2) (le_refl _))
      (show rootEntry files (k + 2) = some (k + 2, file.name) by
    change (files[k]?).map _ = _
    rw [listed]
    rfl)
  have hit := dirlookupLoop_hit (root_bmap written (place (k + 2) (le_refl _))) notDevice
    (Nat.mul_mod_right _ _) inside bound name (by
      intro zero
      have number := entry.1.symm.trans zero
      omega)
    (Dirents.namecmp_eq_zero.mpr (same.trans entry.2.symm))
      ((dinode disk ROOTINO).size / direntSize - (k + 2))
  rw [Nat.mul_zero, Nat.zero_add] at skipped
  rw [dirlookup_root written, fuel, skipped, hit]
  exact congrArg (fun number => some (some (number, direntSize * (k + 2)), Inodes.started disk)) entry.1

/-- The first use of a block after the last one of the root allocates it. -/
theorem root_bmap_new (below : used < mkfsSuperblock.size) {bn : Nat} (direct : bn < NDIRECT)
    (last : counts (contentOf files) ROOTINO = bn) : ∃ t,
      ofM (bmap ROOTINO bn) (Inodes.started disk) = some (used, t) /\
      ofM (bmap ROOTINO bn) t = some (used, t) /\ (t.disk used = fun _ => 0#8) /\
      (t.inode ROOTINO).type = (dinode disk ROOTINO).type /\
      (t.inode ROOTINO).size = (dinode disk ROOTINO).size := by
  rcases written.image.balloc_first below with ⟨after, found⟩
  have marks : ∀ c, c < dataStart mkfsSuperblock -> Inodes.Used mkfsSuperblock disk c := by
    intro c low
    have limits : dataStart mkfsSuperblock = 29 := by decide
    have start := written.image.prefixed
    refine ⟨by omega, ?_⟩
    rw [written.image.marked (by have := written.image.fits; omega)]
    exact decide_eq_true (by omega)
  have took := Inodes.Took.of_balloc written.image.super marks found
  have empty : (dinode disk ROOTINO).addrs bn = 0 := by
    have slot : slotOf bn = bn := if_pos direct
    have unmapped := written.filed.unmapped (i := ROOTINO) (by decide)
        (by rw [last]; exact direct.trans_le (by decide))
    rw [last, slot, Inodes.addr_direct (Nat.le_of_lt direct)] at unmapped
    exact unmapped
  rcases ballocOp_ok (s := Inodes.started disk) found took.super
    rfl with ⟨t, allocated, sameDisk, sameInode⟩
  have low : 0 < used := Nat.lt_of_lt_of_le (by decide) written.image.prefixed
  have run : Inodes.bmap ROOTINO bn (Inodes.started disk) = .ok used (setAddr ROOTINO bn used t) := by
    unfold Inodes.bmap
    rw [if_pos direct]
    exact addrOf_new empty allocated
  have pointer : ((setAddr ROOTINO bn used t).inode ROOTINO).addrs bn = used := by
    change (update t.inode ROOTINO { t.inode ROOTINO with addrs := _ } ROOTINO).addrs bn = used
    rw [update_self]
    exact update_self _ _ _
  have again : Inodes.bmap ROOTINO bn (setAddr ROOTINO bn used t) =
      .ok used (setAddr ROOTINO bn used t) := by
    have slot : slotOf bn = bn := if_pos direct
    have set := Inodes.reads_bmap (s := setAddr ROOTINO bn used t) (i := ROOTINO)
        (direct.trans_le (by decide))
      (by rw [slot, Inodes.addr_direct (Nat.le_of_lt direct), pointer]; omega)
    rw [slot, Inodes.addr_direct (Nat.le_of_lt direct), pointer] at set
    exact set.eq_ok
  refine ⟨setAddr ROOTINO bn used t, ?_, ?_, ?_, ?_, ?_⟩
  · unfold ofM
    rw [run]
  · unfold ofM
    rw [again]
  · change t.disk used = _
    rw [sameDisk]
    exact took.zero
  · change (update t.inode ROOTINO { t.inode ROOTINO with addrs := _ } ROOTINO).type = _
    rw [update_self, sameInode]
    rfl
  · change (update t.inode ROOTINO { t.inode ROOTINO with addrs := _ } ROOTINO).size = _
    rw [update_self, sameInode]
    rfl

/-- Another name is compared with every entry.  The root may get one more block. -/
theorem dirlookup_missing (few : files.length + 2 <= NINODES) (below : used < mkfsSuperblock.size)
    (other : ∀ m inum chars, rootEntry files m = some (inum, chars) ->
      nameOf name ≠ nameOf (literal chars)) :
    ∃ t, Sequential.dirlookup ROOTINO name (Inodes.started disk) = some (none, t) := by
  have size := (root_fields written).2
  have blocks := counts_contentOf_root files
  have notDevice := root_notDevice written
  have bound : (dinode disk ROOTINO).size < 2 ^ 32 := Inodes.word_lt _ _
  have ending : ∀ {t : Inodes.State} {off : Nat}, (t.inode ROOTINO).size <= off ->
      dirlookupLoop ROOTINO name 1 off t = some (none, t) := by
    intro t off past
    rw [dirlookupLoop, bind_get, if_neg (Nat.not_lt.mpr past)]
    rfl
  have skipped : ∀ (count more : Nat), direntSize * count <= (dinode disk ROOTINO).size ->
      direntSize * count <= BSIZE * counts (contentOf files) ROOTINO ->
      dirlookupLoop ROOTINO name (count + more) 0 (Inodes.started disk) =
        dirlookupLoop ROOTINO name more (direntSize * count) (Inodes.started disk) := by
    intro count more inside within
    have place : ∀ m, m < count -> direntSize * m / BSIZE < counts (contentOf files) ROOTINO := by
      intro m low
      rw [Nat.div_lt_iff_lt_mul (by decide)]
      have less : direntSize * m < direntSize * count := Nat.mul_lt_mul_of_pos_left low (by decide)
      rw [Nat.mul_comm _ BSIZE]
      omega
    have skip := dirlookupLoop_skip name notDevice bound more count 0 (by rw [Nat.zero_add]; exact inside)
      (fun m _ high => ⟨_, root_bmap written (place m (by omega)),
        root_differs written few (place m (by omega)) (other m)⟩)
    rwa [Nat.mul_zero, Nat.zero_add] at skip
  rw [dirlookup_root written]
  unfold NINODES at few
  by_cases full : direntSize * (files.length + 2) % BSIZE = 0
  · have last : counts (contentOf files) ROOTINO = direntSize * (files.length + 2) / BSIZE := by
      rw [blocks]
      unfold blocksOf
      unfold BSIZE at full ⊢
      omega
    generalize number : direntSize * (files.length + 2) / BSIZE = q at size last
    have direct : q < NDIRECT := by
      unfold direntSize BSIZE at number
      unfold NDIRECT
      omega
    rcases root_bmap_new written below direct last with ⟨t, run, again, zero, sameType, sameSize⟩
    have offset : ∀ m, 32 * q <= m -> m < 32 * q + 32 -> direntSize * m / BSIZE = q := by
      intro m low high
      unfold direntSize BSIZE
      omega
    have free : ∀ off, (entryAt (t.disk used) off).1 = 0 := by
      intro off
      rw [zero]
      rfl
    have fuel : (dinode disk ROOTINO).size / direntSize + 1 = 32 * q + (32 + 1) := by
      rw [size]
      unfold direntSize BSIZE
      omega
    have start := skipped (32 * q) (32 + 1)
      (by rw [size]; unfold direntSize BSIZE; omega) (by rw [last]; unfold direntSize BSIZE; omega)
    have first : ofM (bmap ROOTINO (direntSize * (32 * q) / BSIZE)) (Inodes.started disk) =
        some (used, t) := by
      rw [offset _ (le_refl _) (by omega)]
      exact run
    have new := dirlookupLoop_pass first notDevice (Nat.mul_mod_right _ _)
      (by change _ <= (dinode disk ROOTINO).size; rw [size]; unfold direntSize BSIZE; omega) bound name
      (.inl (free _)) 32
    have rest := dirlookupLoop_skip name (s := t) (by rw [sameType]; exact notDevice)
        (by rw [sameSize]; exact bound) 1 31
      (32 * q + 1) (by rw [sameSize, size]; unfold direntSize BSIZE; omega)
      (fun m low high => ⟨used, by rw [offset m (by omega) (by omega)]; exact again, .inl (free _)⟩)
    refine ⟨t, ?_⟩
    rw [fuel, start, new]
    exact rest.trans (ending (by rw [sameSize, size]; unfold direntSize BSIZE; omega))
  · have whole : (dinode disk ROOTINO).size = BSIZE * counts (contentOf files) ROOTINO := by
      rw [size, blocks]
      unfold blocksOf
      unfold BSIZE at full ⊢
      omega
    have count : direntSize * ((dinode disk ROOTINO).size / direntSize) = (dinode disk ROOTINO).size := by
      rw [size]
      unfold direntSize BSIZE
      omega
    refine ⟨Inodes.started disk, ?_⟩
    rw [skipped _ _ (by rw [count]) (by rw [count, whole]), count]
    exact ending (le_refl _)

/-- The bytes of a file. -/
theorem readi_file {i : Nat} (allocated : i < files.length + 2) (inside : i < NINODES)
    (file : 1 < i) :
    Sequential.readi i 0#32 (contentOf files i).length (Inodes.started disk) =
      some (some (contentOf files i), Inodes.started disk) := by
  have other : i ≠ ROOTINO := Nat.ne_of_gt file
  have fields := written.fields i (by omega) allocated
  rw [if_neg other, kindOf, if_neg other] at fields
  have size : ((Inodes.started disk).inode i).size = (contentOf files i).length := fields.2.2
  have small : (contentOf files i).length < 2 ^ 32 := by
    rw [<- size]
    exact Inodes.word_lt _ _
  have mapped : ∀ bn, bn * BSIZE < (contentOf files i).length -> bn < counts (contentOf files) i := by
    intro bn less
    unfold counts blocksOf
    unfold BSIZE at less
    omega
  have covers : Covers (Inodes.started disk).disk (Inodes.started disk).inode i
      ((Inodes.started disk).inode i).size := by
    rw [size]
    intro bn less
    have bounded := (mapped bn less).trans_le (written.filed.fits i inside).1
    exact ⟨bounded, (written.filed.mapped i bn inside bounded).mpr (mapped bn less)⟩
  have notDevice : ((Inodes.started disk).inode i).type ≠ T_DEV := by
    change (dinode disk i).type ≠ T_DEV
    rw [fields.1]
    decide
  rw [Sequential.readi_eq covers notDevice _ _ small]
  have all : (0#32).toNat + (contentOf files i).length <=
      (Sequential.contents (Inodes.started disk).disk (Inodes.started disk).inode i).size := by
    change 0 + _ <= ((Inodes.started disk).inode i).size
    omega
  rw [Contents.readi_inside all (by change ((Inodes.started disk).inode i).size < _; omega)]
  congr 3
  apply List.ext_getElem
  · rw [List.length_map, List.length_range]
  · intro j low high
    rw [List.getElem_map, List.getElem_range]
    have byte := written.filed.bytes i (j / BSIZE) (j % BSIZE) inside
      (mapped _ (Nat.lt_of_le_of_lt (Nat.div_mul_le_self _ _) high)) (Nat.mod_lt _ (by decide))
    rw [Nat.div_add_mod, List.getD_eq_getElem _ _ high] at byte
    change Contents.byteAt _ (0 + j) = _
    rw [Nat.zero_add]
    exact byte

end Image

/-! ## Names of files -/

/-- What the kernel compares of a name of any length. -/
theorem nameOf_take (nonzero : ∀ b, b ∈ chars -> b ≠ 0#8) :
    nameOf (literal chars) = chars.take DIRSIZ := by
  have short : nameOf (literal (chars.take DIRSIZ)) = chars.take DIRSIZ :=
    Dirents.nameOf_literal (List.length_take_le _ _) fun b listed =>
      nonzero b (List.mem_of_mem_take listed)
  refine Eq.trans ?_ short
  apply Dirents.nameOf_congr
  intro k below
  unfold literal
  rw [List.getD_eq_getElem?_getD, List.getD_eq_getElem?_getD, List.getElem?_take_of_lt below]

/-- A short name is its own first part. -/
theorem take_ne {special : List Byte} (short : special.length < DIRSIZ) (other : chars ≠ special) :
    chars.take DIRSIZ ≠ special := by
  intro same
  have length := congrArg List.length same
  rw [List.length_take] at length
  rw [List.take_of_length_le (by omega)] at same
  exact other same

/-- Files that fit into the image, with names that the kernel can tell apart. -/
structure Acceptable (files : List File) : Prop where
  few : files.length <= mkfsSuperblock.ninodes - 2
  sizes : ∀ file, file ∈ files -> file.content.length <= MAXFILE * BSIZE
  /-- An argument ends at its first NUL. -/
  strings : ∀ file, file ∈ files -> 0#8 ∉ file.arg
  names : ∀ file, file ∈ files ->
    file.name ≠ [] /\ slash ∉ file.name /\ file.name ≠ dot /\ file.name ≠ dotdot
  distinct : files.Pairwise fun file other => file.name.take DIRSIZ ≠ other.name.take DIRSIZ
  room : blocksNeeded files <= mkfsSuperblock.nblocks

namespace Acceptable

variable {files : List File} (accepted : Acceptable files)

include accepted

theorem nameOf_name (listed : file ∈ files) :
    nameOf (literal file.name) = file.name.take DIRSIZ := by
  apply nameOf_take
  intro b inside zero
  subst zero
  refine accepted.strings file listed ?_
  unfold File.name at inside
  split at inside
  next => exact List.mem_of_mem_tail inside
  next => exact inside

theorem noSlash (listed : file ∈ files) : slash ∉ file.arg := by
  intro inside
  have clean := (accepted.names file listed).2.1
  unfold File.name at clean
  split at clean
  next underscored =>
    cases shape : file.arg with
    | nil =>
      rw [shape] at inside
      cases inside
    | cons first rest =>
      rw [shape] at inside clean underscored
      cases underscored
      rcases List.mem_cons.mp inside with same | later
      · exact absurd same (by decide)
      · exact clean later
  next => exact clean inside

end Acceptable

theorem rootEntry_some {files : List File} {m : Nat}
    (found : rootEntry files m = some (inum, chars)) :
    chars = dot ∨ chars = dotdot ∨ ∃ file,
      files[m - 2]? = some file /\ 2 <= m /\ chars = file.name := by
  match m with
  | 0 =>
    cases found
    exact .inl rfl
  | 1 =>
    cases found
    exact .inr (.inl rfl)
  | k + 2 =>
    rcases Option.map_eq_some_iff.mp found with ⟨file, listed, pair⟩
    cases pair
    exact .inr (.inr ⟨file, listed, Nat.le_add_left _ _, rfl⟩)

theorem nameOf_dot : nameOf (literal dot) = dot := by decide

theorem nameOf_dotdot : nameOf (literal dotdot) = dotdot := by decide

/-- The kernel reads back what `mkfs` wrote. -/
theorem kernel_reads_back {files : List File} (accepted : Acceptable files) : ∃ disk,
    main files = some disk /\
      (∀ file, file ∈ files -> ∀ name, nameOf name = file.name.take DIRSIZ ->
        ∃ inum off,
          Sequential.dirlookup ROOTINO name (Inodes.started disk) =
            some (some (inum, off), Inodes.started disk) /\
          (dinode disk inum).type = T_FILE /\ (dinode disk inum).nlink = 1#16 /\
          (dinode disk inum).size = file.content.length /\
          Sequential.readi inum 0#32 file.content.length (Inodes.started disk) =
            some (some file.content, Inodes.started disk)) /\
      ∀ name, nameOf name ≠ dot -> nameOf name ≠ dotdot ->
        (∀ file, file ∈ files -> nameOf name ≠ file.name.take DIRSIZ) ->
        ∃ t, Sequential.dirlookup ROOTINO name (Inodes.started disk) = some (none, t) := by
  have few : files.length + 2 <= NINODES := by
    have bound := accepted.few
    change files.length <= 198 at bound
    unfold NINODES
    omega
  have good : ∀ file, file ∈ files -> slash ∉ file.arg /\ file.content.length <= BSIZE * MAXFILE :=
    fun file listed => ⟨accepted.noSlash listed, Nat.mul_comm MAXFILE BSIZE ▸ accepted.sizes file listed⟩
  rcases main_written few good accepted.room with ⟨disk, used, made, written, below⟩
  have inside : used < mkfsSuperblock.size := Nat.lt_of_le_of_lt below (by decide)
  refine ⟨disk, made, ?_, ?_⟩
  · intro file listed name same
    rcases List.getElem?_of_mem listed with ⟨k, found⟩
    have bound := (List.getElem?_eq_some_iff.mp found).1
    have content : contentOf files (k + 2) = file.content := by
      rw [contentOf, if_neg (by unfold ROOTINO; omega), if_neg (by omega), Nat.add_sub_cancel, found]
      rfl
    have fields := written.fields (k + 2) (by omega) (by omega)
    rw [kindOf, if_neg (by unfold ROOTINO; omega), if_neg (by unfold ROOTINO; omega), content] at fields
    have read := readi_file written (show k + 2 < files.length + 2 by omega) (by omega) (by omega)
    rw [content] at read
    have special := accepted.names file listed
    refine ⟨k + 2, direntSize * (k + 2), ?_, fields.1, fields.2.1, fields.2.2, read⟩
    apply dirlookup_found written few found (same.trans (accepted.nameOf_name listed).symm)
    intro m before inum chars entry equal
    rw [same] at equal
    rcases rootEntry_some entry with rfl | rfl | ⟨other, found', low, rfl⟩
    · rw [nameOf_dot] at equal
      exact take_ne (by decide) special.2.2.1 equal
    · rw [nameOf_dotdot] at equal
      exact take_ne (by decide) special.2.2.2 equal
    · rw [accepted.nameOf_name (List.mem_of_getElem? found')] at equal
      rcases List.getElem?_eq_some_iff.mp found with ⟨kBound, kValue⟩
      rcases List.getElem?_eq_some_iff.mp found' with ⟨mBound, mValue⟩
      have apart := List.pairwise_iff_getElem.mp accepted.distinct (m - 2) k mBound kBound (by omega)
      rw [kValue, mValue] at apart
      exact apart equal.symm
  · intro name notDot notDotdot others
    apply dirlookup_missing written few inside
    intro m inum chars entry equal
    rcases rootEntry_some entry with rfl | rfl | ⟨other, found', _, rfl⟩
    · exact notDot (equal.trans nameOf_dot)
    · exact notDotdot (equal.trans nameOf_dotdot)
    · have listed := List.mem_of_getElem? found'
      exact others other listed (equal.trans (accepted.nameOf_name listed))

/-- `_cat` with two bytes, and an empty file `sh`. -/
def twoFiles : List File := [⟨[95#8, 99#8, 97#8, 116#8], [[1#8], [2#8]]⟩, ⟨[115#8, 104#8], []⟩]

theorem kernel_reads_back_twoFiles : Acceptable twoFiles /\ ∃ disk, main twoFiles = some disk /\
    ∃ inum off, Sequential.dirlookup ROOTINO (literal [99#8, 97#8, 116#8]) (Inodes.started disk) =
      some (some (inum, off), Inodes.started disk) /\
      Sequential.readi inum 0#32 2 (Inodes.started disk) =
        some (some [1#8, 2#8], Inodes.started disk) := by
  have accepted : Acceptable twoFiles := by
    refine ⟨by decide, ?_, ?_, ?_, by decide, by decide⟩
    all_goals
      intro file listed
      rcases List.mem_cons.mp listed with rfl | later
      · decide
      · rcases List.mem_singleton.mp later with rfl
        decide
  rcases kernel_reads_back accepted with ⟨disk, made, found, _⟩
  rcases found ⟨[95#8, 99#8, 97#8, 116#8], [[1#8], [2#8]]⟩ List.mem_cons_self
    (literal [99#8, 97#8, 116#8]) (by decide) with ⟨inum, off, entry, _, _, _, bytes⟩
  exact ⟨accepted, disk, made, inum, off, entry, bytes⟩

end Xv6.Fs.Mkfs
