import Xv6.Fs.Inodes

namespace Xv6.Fs.Inodes

open Function

/-!
# Reading back what was written

Words, inodes and the state of an inode block after a change of one of them,
and the blocks that a commit leaves as they were.
-/

/-! ## Words and inodes in bytes -/

variable {data : Block} {i j : Nat} {d : Dinode}

theorem word_of_bytes {w : Nat} (small : w < 2 ^ 32)
    (bytes : ∀ m, m < 4 -> data (4 * i + m) = byteOf w m) : word data i = w := by
  have first := bytes 0 (by decide)
  have second := bytes 1 (by decide)
  have third := bytes 2 (by decide)
  have fourth := bytes 3 (by decide)
  rw [Nat.add_zero] at first
  rw [word, first, second, third, fourth]
  simp only [byteOf, BitVec.toNat_ofNat]
  omega

theorem word_congr {data' : Block} (same : ∀ m, m < 4 -> data' (4 * i + m) = data (4 * i + m)) :
    word data' i = word data i := by
  have first := same 0 (by decide)
  have second := same 1 (by decide)
  have third := same 2 (by decide)
  have fourth := same 3 (by decide)
  rw [Nat.add_zero] at first
  rw [word, word, first, second, third, fourth]

theorem word_lt (data : Block) (i : Nat) : word data i < 2 ^ 32 := by
  have first := (data (4 * i)).isLt
  have second := (data (4 * i + 1)).isLt
  have third := (data (4 * i + 2)).isLt
  have fourth := (data (4 * i + 3)).isLt
  rw [word]
  omega

theorem word_setWord {w : Nat} (small : w < 2 ^ 32) :
    word (setWord data i w) j = if j = i then w else word data j := by
  by_cases same : j = i
  · rw [if_pos same, same]
    apply word_of_bytes small
    intro m less
    rw [setWord, if_pos (by omega)]
    congr 1
    omega
  · rw [if_neg same]
    apply word_congr
    intro m less
    rw [setWord, if_neg (by omega)]

theorem word_zero (i : Nat) : word (fun _ => 0#8) i = 0 := by
  simp [word]

theorem word_putDinode {k : Nat} (bound : k < 16) (small : d.word k < 2 ^ 32) :
    word (putDinode data i d) (i % IPB * 16 + k) = d.word k := by
  apply word_of_bytes small
  intro m less
  rw [putDinode, if_pos (by omega)]
  congr 1
  · congr 1
    omega
  · omega

theorem word_putDinode_of_ne {k : Nat} (bound : k < 16) (other : j % IPB ≠ i % IPB) :
    word (putDinode data i d) (j % IPB * 16 + k) = word data (j % IPB * 16 + k) := by
  apply word_congr
  intro m less
  rw [putDinode, if_neg (by omega)]

/-- The fields that matter agree. -/
structure Same (d e : Dinode) : Prop where
  type : d.type = e.type
  major : d.major = e.major
  minor : d.minor = e.minor
  nlink : d.nlink = e.nlink
  size : d.size = e.size
  addrs : ∀ k, k <= NDIRECT -> d.addrs k = e.addrs k

/-- The numbers of an inode fit into its words. -/
def Fits (d : Dinode) : Prop := d.size < 2 ^ 32 /\ ∀ k, k <= NDIRECT -> d.addrs k < 2 ^ 32

theorem Dinode.word_zero (d : Dinode) : d.word 0 = d.type.toNat + d.major.toNat * 2 ^ 16 := rfl

theorem Dinode.word_one (d : Dinode) : d.word 1 = d.minor.toNat + d.nlink.toNat * 2 ^ 16 := rfl

theorem halves (low high : BitVec 16) :
    low.toNat + high.toNat * 2 ^ 16 < 2 ^ 32 /\
    BitVec.ofNat 16 (low.toNat + high.toNat * 2 ^ 16) = low /\
      BitVec.ofNat 16 ((low.toNat + high.toNat * 2 ^ 16) / 2 ^ 16) = high := by
  have lowSmall := low.isLt
  have highSmall := high.isLt
  refine ⟨by omega, ?_, ?_⟩
  · apply BitVec.eq_of_toNat_eq
    rw [BitVec.toNat_ofNat]
    omega
  · apply BitVec.eq_of_toNat_eq
    rw [BitVec.toNat_ofNat]
    omega

theorem getDinode_putDinode (fits : Fits d) : Same d (getDinode (putDinode data i d) i) := by
  rcases halves d.type d.major with ⟨small, low, high⟩
  rcases halves d.minor d.nlink with ⟨small', low', high'⟩
  rw [<- d.word_zero] at small low high
  rw [<- d.word_one] at small' low' high'
  have words : ∀ k, k < 16 -> d.word k < 2 ^ 32 ->
      word (putDinode data i d) (i % IPB * 16 + k) = d.word k :=
    fun k bound fit => word_putDinode bound fit
  have first := words 0 (by decide) small
  rw [Nat.add_zero] at first
  have second := words 1 (by decide) small'
  have third := words 2 (by decide) fits.1
  constructor
  case type =>
    simp only [getDinode, first]
    exact low.symm
  case major =>
    simp only [getDinode, first]
    exact high.symm
  case minor =>
    simp only [getDinode, second]
    exact low'.symm
  case nlink =>
    simp only [getDinode, second]
    exact high'.symm
  case size =>
    simp only [getDinode, third]
    rfl
  case addrs =>
    intro k bound
    have rest := words (3 + k) (by unfold NDIRECT at bound; omega)
        (by rw [Nat.add_comm]; exact fits.2 k bound)
    rw [<- Nat.add_assoc] at rest
    simp only [getDinode, rest]
    rw [Nat.add_comm]
    rfl

theorem getDinode_putDinode_of_ne (other : j % IPB ≠ i % IPB) :
    Same (getDinode data j) (getDinode (putDinode data i d) j) := by
  have words : ∀ k, k < 16 -> word (putDinode data i d) (j % IPB * 16 + k) =
      word data (j % IPB * 16 + k) :=
    fun k bound => word_putDinode_of_ne bound other
  have first := words 0 (by decide)
  rw [Nat.add_zero] at first
  constructor
  case type => rw [getDinode, getDinode, first]
  case major => rw [getDinode, getDinode, first]
  case minor => rw [getDinode, getDinode, words 1 (by decide)]
  case nlink => rw [getDinode, getDinode, words 1 (by decide)]
  case size => rw [getDinode, getDinode, words 2 (by decide)]
  case addrs =>
    intro k bound
    have rest := words (3 + k) (by unfold NDIRECT at bound; omega)
    rw [<- Nat.add_assoc] at rest
    rw [getDinode, getDinode]
    exact rest.symm

theorem type_putDinode (data : Block) (i : Nat) (d : Dinode) :
    (getDinode (putDinode data i d) i).type = d.type := by
  have first : word (putDinode data i d) (i % IPB * 16 + 0) = d.word 0 :=
    word_putDinode (by decide) (halves d.type d.major).1
  rw [Nat.add_zero] at first
  rw [getDinode]
  dsimp only
  rw [first, Dinode.word_zero]
  exact (halves d.type d.major).2.1

/-- An inode is at one place of one block. -/
theorem inode_index (block : IBLOCK j = IBLOCK i) (index : j % IPB = i % IPB) : j = i := by
  have quotient : j / IPB = i / IPB := by
    unfold IBLOCK at block
    omega
  rw [<- Nat.div_add_mod j IPB, quotient, index, Nat.div_add_mod]

theorem type_update (disk : Disk) (i j : Nat) (d : Dinode) :
    (dinode (update disk (IBLOCK i) (putDinode (disk (IBLOCK i)) i d)) j).type =
      if j = i then d.type else (dinode disk j).type := by
  unfold dinode
  by_cases same : j = i
  · rw [if_pos same, same, update_self, type_putDinode]
  · rw [if_neg same]
    by_cases block : IBLOCK j = IBLOCK i
    · rw [block, update_self]
      exact (getDinode_putDinode_of_ne fun index => same (inode_index block index)).type.symm
    · rw [update_of_ne block]

/-! ## Where the bitmap is -/

theorem BBLOCK_low (b ninodes : Nat) : ninodes / IPB + 3 <= BBLOCK b ninodes := by
  have bits := Nat.zero_le (b / BPB)
  unfold BBLOCK
  omega

theorem dataStart_low (sb : Superblock) : sb.ninodes / IPB + 3 < dataStart sb := by
  have bits := Nat.zero_le (sb.size / BPB)
  unfold dataStart
  omega

/-! ## What a commit leaves -/

section Commit

variable {start : Nat}

theorem writeLog_low (sectors : List Nat) :
    ∀ (tail : Nat) (disk : Disk) {b : Nat}, b <= start + tail ->
    writeLog start tail sectors disk b = disk b := by
  induction sectors with
  | nil => exact fun _ _ _ _ => rfl
  | cons sector rest ih =>
    intro tail disk b low
    rw [writeLog, ih (tail + 1) _ (by omega), update_of_ne (by omega)]

theorem writeLog_copies (sectors : List Nat) : ∀ (tail : Nat) (disk : Disk),
    (∀ sector, sector ∈ sectors -> sector < start) -> ∀ k sector, sectors[k]? = some sector ->
      writeLog start tail sectors disk (start + (tail + k) + 1) = disk sector := by
  induction sectors with
  | nil => exact fun _ _ _ _ _ found => nomatch found
  | cons first rest ih =>
    intro tail disk low k sector found
    rw [writeLog]
    cases k with
    | zero =>
      cases found
      change writeLog start (tail + 1) rest _ (start + tail + 1) = _
      rw [writeLog_low rest (tail + 1) _ (by omega), update_self]
    | succ k =>
      have later : ∀ sector, sector ∈ rest -> sector < start :=
        fun sector listed => low sector (List.mem_cons_of_mem _ listed)
      have listed : sector ∈ rest := List.mem_of_getElem? found
      have copied := ih (tail + 1) (update disk (start + tail + 1) (disk first)) later k
        sector found
      rw [update_of_ne (by have := later sector listed; omega)] at copied
      rw [<- copied]
      congr 1
      omega

/-- Nothing changes when the blocks of the log are copies of their sectors. -/
theorem installTrans_eq (sectors : List Nat) : ∀ (tail : Nat) (disk : Disk),
    (∀ k sector, sectors[k]? = some sector -> disk (start + (tail + k) + 1) = disk sector) ->
      installTrans start tail sectors disk = disk := by
  induction sectors with
  | nil => exact fun _ _ _ => rfl
  | cons first rest ih =>
    intro tail disk copies
    have same : update disk first (disk (start + tail + 1)) = disk := by
      rw [update_eq_self_iff]
      exact copies 0 first rfl
    rw [installTrans, same]
    apply ih (tail + 1) disk
    intro k sector found
    rw [<- copies (k + 1) sector found]
    congr 1
    omega

theorem commit_low {disk : Disk} {sectors : List Nat}
    (low : ∀ sector, sector ∈ sectors -> sector < logStart (readsb disk)) {b : Nat}
    (below : b < logStart (readsb disk)) : commit disk sectors b = disk b := by
  unfold commit
  split
  next => rfl
  next =>
    have head : ∀ (sectors : List Nat) (disk' : Disk) {c : Nat}, c ≠ logStart (readsb disk) ->
        writeHead (logStart (readsb disk)) sectors disk' c = disk' c :=
      fun _ _ _ other => update_of_ne other _ _
    have kept : ∀ {c : Nat}, c < logStart (readsb disk) ->
        writeHead (logStart (readsb disk)) sectors
          (writeLog (logStart (readsb disk)) 0 sectors disk) c = disk c := by
      intro c below
      rw [head _ _ (Nat.ne_of_lt below), writeLog_low sectors 0 disk (by omega)]
    rw [head _ _ (Nat.ne_of_lt below), installTrans_eq sectors 0, kept below]
    intro k sector found
    rw [kept (low sector (List.mem_of_getElem? found)), head _ _ (by omega),
      writeLog_copies sectors 0 disk low k sector found]

end Commit

end Xv6.Fs.Inodes
