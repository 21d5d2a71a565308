import Xv6.Boot.Mp

namespace Xv6.Boot

open Machine

/-!
# Loading the kernel, `bootmain.c`

The disk is a function from byte numbers to bytes and sectors are read correctly.
`readseg` reads whole sectors, so a segment also brings the bytes that are before
it in its first sector and behind it in its last one, and the loop does not end if
the last sector reaches the end of the address space.  After the loop each byte
is what the last segment that covers it has brought.
-/

abbrev Disk := Nat -> BitVec 8

def readsect (disk : Disk) (mem : Bytes) (dst offset : Word) : Bytes := fun a =>
  if (a - dst).toNat < 512 then disk (offset.toNat * 512 + (a - dst).toNat) else mem a

/-- At most `turns` passes of the loop of `readseg`. -/
def readsects (disk : Disk) (epa : Word) : Nat -> Bytes -> Word -> Word -> Option Bytes
  | 0, mem, pa, _ => if pa < epa then none else some mem
  | turns + 1, mem, pa, offset =>
      if pa < epa then readsects disk epa turns (readsect disk mem pa offset) (pa + 512)
        (offset + 1) else some mem

def readseg (disk : Disk) (turns : Nat) (mem : Bytes) (pa count offset : Word) : Option Bytes :=
  readsects disk (pa + count) turns mem (pa - offset % 512) (offset / 512 + 1)

def stosb (mem : Bytes) (addr : Word) (data : BitVec 8) (cnt : Word) : Bytes := fun a =>
  if a - addr < cnt then data else mem a

/-- The fields of a program header that are used. -/
structure Proghdr where
  off : Word
  paddr : Word
  filesz : Word
  memsz : Word
deriving DecidableEq

def proghdr (mem : Bytes) (ph : Word) : Proghdr :=
  ⟨uint mem (ph + 4), uint mem (ph + 12), uint mem (ph + 16), uint mem (ph + 20)⟩

/-- The body of the loop of `bootmain`. -/
def loadSegment (disk : Disk) (turns : Nat) (mem : Bytes) (ph : Proghdr) : Option Bytes :=
  (readseg disk turns mem ph.paddr ph.filesz ph.off).map fun mem =>
    if ph.memsz > ph.filesz then stosb mem (ph.paddr + ph.filesz) 0 (ph.memsz - ph.filesz) else mem

/-- At most `more` passes of the loop of `bootmain`.  The headers are read from memory. -/
def segments (disk : Disk) (turns : Nat) (eph : Word) : Nat -> Bytes -> Word -> Option Bytes
  | 0, mem, ph => if ph < eph then none else some mem
  | more + 1, mem, ph =>
      if ph < eph then
        (loadSegment disk turns mem (proghdr mem ph)).bind fun mem =>
          segments disk turns eph more mem (ph + 32)
      else
        some mem

def ELF_MAGIC : Word := 0x464C457F

/-- The scratch space. -/
def elf : Word := 0x10000

/-- The memory and the entry point to which `bootmain` jumps, or nothing if it returns. -/
def bootmain (disk : Disk) (turns : Nat) (mem : Bytes) : Option (Option (Bytes × Word)) :=
  (readseg disk turns mem elf 4096 0).bind fun mem =>
    if uint mem elf ≠ ELF_MAGIC then
      some none
    else
      let ph := elf + uint mem (elf + 28)
      let eph := ph + 32 * (ushort mem (elf + 44)).setWidth 32
      (segments disk turns eph turns mem ph).map fun mem => some (mem, uint mem (elf + 24))

/-! ## What belongs in memory -/

/-- The bytes of the file, which starts at sector 1. -/
def file (disk : Disk) : Bytes := fun i => disk (512 + i.toNat)

def phoff (disk : Disk) : Word := uint (file disk) 28

def phnum (disk : Disk) : Nat := (ushort (file disk) 44).toNat

def headersFrom (disk : Disk) : Nat -> Word -> List Proghdr
  | 0, _ => []
  | n + 1, i => proghdr (file disk) i :: headersFrom disk n (i + 32)

def headers (disk : Disk) : List Proghdr := headersFrom disk (phnum disk) (phoff disk)

namespace Proghdr

/-- The byte that belongs at address `a`, if it is an address of the segment. -/
def wants (disk : Disk) (ph : Proghdr) (a : Word) : Option (BitVec 8) :=
  if a - ph.paddr < ph.filesz then some (disk (512 + ph.off.toNat + (a - ph.paddr).toNat))
  else if a - ph.paddr < ph.memsz then some 0
  else none

/-- The address of the first sector. -/
def start (ph : Proghdr) : Word := ph.paddr - ph.off % 512

/-- The number of sectors. -/
def sectors (ph : Proghdr) : Nat := ((ph.paddr + ph.filesz).toNat - ph.start.toNat + 511) / 512

/-- The sectors end before the end of the address space. -/
def Fits (ph : Proghdr) : Prop := ph.start.toNat + 512 * ph.sectors < 2 ^ 32

instance (ph : Proghdr) : Decidable ph.Fits := inferInstanceAs (Decidable (_ < _))

/-- The byte that loading the segment leaves at address `a`, if it covers `a`. -/
def brings (disk : Disk) (ph : Proghdr) (a : Word) : Option (BitVec 8) :=
  if ph.filesz < ph.memsz /\ a - (ph.paddr + ph.filesz) < ph.memsz - ph.filesz then some 0
  else if (a - ph.start).toNat < 512 * ph.sectors then
    some (disk ((ph.off.toNat / 512 + 1) * 512 + (a - ph.start).toNat))
  else none

end Proghdr

/-- The byte that the last of the segments that cover `a` leaves there. -/
def lastBrings (disk : Disk) (phs : List Proghdr) (a : Word) : Option (BitVec 8) :=
  phs.reverse.findSome? fun ph => ph.brings disk a

/-- The memory after `n` sectors have been read to `pa`. -/
def filled (disk : Disk) (mem : Bytes) (pa : Word) (offset n : Nat) : Bytes := fun a =>
  if (a - pa).toNat < 512 * n then disk (offset * 512 + (a - pa).toNat) else mem a

/-- The memory after the page of headers and all segments have been read. -/
def loaded (disk : Disk) (mem : Bytes) : Bytes := fun a =>
  (lastBrings disk (headers disk) a).getD (filled disk mem elf 1 8 a)

/-! ## Sectors -/

section Sectors

variable {disk : Disk} {epa : Word}

theorem filled_succ {mem : Bytes} {pa offset : Word} {n : Nat}
    (room : pa.toNat + 512 * (n + 1) < 2 ^ 32) :
    filled disk (readsect disk mem pa offset) (pa + 512) (offset.toNat + 1) n =
      filled disk mem pa offset.toNat (n + 1) := by
  funext a
  unfold filled readsect
  by_cases first : (a - pa).toNat < 512
  · have before : ¬ (a - (pa + 512)).toNat < 512 * n := by bv_omega
    rw [if_neg before, if_pos first, if_pos (by omega)]
  · have later : (a - (pa + 512)).toNat = (a - pa).toNat - 512 := by bv_omega
    rw [if_neg first, later]
    by_cases inside : (a - pa).toNat < 512 * (n + 1)
    · have index : (offset.toNat + 1) * 512 + ((a - pa).toNat - 512) =
          offset.toNat * 512 + (a - pa).toNat := by omega
      rw [if_pos (by omega), if_pos inside, index]
    · rw [if_neg (by omega), if_neg inside]

/-- The loop of `readseg` with `n` sectors. -/
theorem readsects_eq (n : Nat) : ∀ (turns : Nat) (mem : Bytes) (pa offset : Word),
    pa.toNat + 512 * n < 2 ^ 32 -> offset.toNat + n < 2 ^ 32 ->
    (epa.toNat - pa.toNat + 511) / 512 = n ->
    readsects disk epa turns mem pa offset =
      if n <= turns then some (filled disk mem pa offset.toNat n) else none := by
  induction n with
  | zero =>
    intro turns mem pa offset _ _ count
    have stop : ¬ pa < epa := by
      rw [BitVec.lt_def]
      omega
    have nothing : filled disk mem pa offset.toNat 0 = mem := funext fun a => if_neg (Nat.not_lt_zero _)
    rw [if_pos (Nat.zero_le turns), nothing]
    cases turns <;> rw [readsects, if_neg stop]
  | succ n ih =>
    intro turns mem pa offset room small count
    have more : pa < epa := by
      rw [BitVec.lt_def]
      omega
    cases turns with
    | zero => rw [readsects, if_pos more, if_neg (Nat.not_succ_le_zero n)]
    | succ turns =>
      have next : (pa + 512).toNat = pa.toNat + 512 := by bv_omega
      have sector : (offset + 1).toNat = offset.toNat + 1 := by bv_omega
      rw [readsects, if_pos more, ih turns _ _ _ (by omega) (by omega) (by omega), sector,
        filled_succ room]
      simp only [Nat.succ_le_succ_iff]

/-- The loop of `readseg` does not end if its pointers pass the end of the address space. -/
theorem readsects_endless {rest : Nat} (below : ∀ pa : Word, pa.toNat % 512 = rest -> pa < epa)
    (turns : Nat) :
    ∀ (mem : Bytes) (pa offset : Word), pa.toNat % 512 = rest ->
      readsects disk epa turns mem pa offset = none := by
  induction turns with
  | zero =>
    intro mem pa offset same
    exact if_pos (below pa same)
  | succ turns ih =>
    intro mem pa offset same
    rw [readsects, if_pos (below pa same)]
    exact ih _ _ _ (by bv_omega)

end Sectors

/-! ## Segments -/

namespace Proghdr

variable {disk : Disk} {ph : Proghdr} {mem : Bytes}

/-- The ranges of the segment are above 1 MB and do not wrap. -/
structure High (ph : Proghdr) : Prop where
  low : 2 ^ 20 <= ph.paddr.toNat
  inFile : ph.paddr.toNat + ph.filesz.toNat <= 2 ^ 32
  inMemory : ph.paddr.toNat + ph.memsz.toNat <= 2 ^ 32

theorem High.start (high : ph.High) : ph.start.toNat = ph.paddr.toNat - ph.off.toNat % 512 := by
  have low := high.low
  have rest : (ph.off % 512).toNat = ph.off.toNat % 512 := BitVec.toNat_umod
  rw [Proghdr.start, BitVec.toNat_sub_of_le (by rw [BitVec.le_def]; omega), rest]

/-- If the sectors reach the end of the address space, no pointer of the loop is at or behind the
end. -/
theorem below_of_not_fits (fits : ¬ ph.Fits) (pa : Word)
    (same : pa.toNat % 512 = ph.start.toNat % 512) : pa < ph.paddr + ph.filesz := by
  unfold Fits sectors at fits
  rw [BitVec.lt_def]
  omega

/-- Loading a segment leaves what it brings. -/
theorem loadSegment_eq (ph : Proghdr) (turns : Nat) : loadSegment disk turns mem ph =
    if ph.Fits /\ ph.sectors <= turns then some fun a => (ph.brings disk a).getD (mem a)
    else none := by
  have sector : (ph.off / 512 + 1).toNat = ph.off.toNat / 512 + 1 := by
    have quotient : (ph.off / 512).toNat = ph.off.toNat / 512 := BitVec.toNat_udiv
    rw [BitVec.toNat_add_of_lt, quotient]
    · rfl
    · rw [quotient]
      exact Nat.lt_of_lt_of_le (Nat.add_lt_add_right
        (Nat.div_lt_of_lt_mul (show _ < 512 * 2 ^ 23 from ph.off.isLt)) 1) (by decide)
  have effect (a : Word) : (if ph.memsz > ph.filesz then
      stosb (filled disk mem ph.start (ph.off.toNat / 512 + 1) ph.sectors) (ph.paddr + ph.filesz) 0
        (ph.memsz - ph.filesz)
      else filled disk mem ph.start (ph.off.toNat / 512 + 1) ph.sectors) a =
        (ph.brings disk a).getD (mem a) := by
    unfold brings
    by_cases more : ph.filesz < ph.memsz
    · rw [if_pos more, stosb]
      by_cases zero : a - (ph.paddr + ph.filesz) < ph.memsz - ph.filesz
      · rw [if_pos zero, if_pos ⟨more, zero⟩, Option.getD_some]
      · rw [if_neg zero, if_neg fun both => zero both.2, filled]
        split <;> rfl
    · rw [if_neg more, if_neg fun both => more both.1, filled]
      split <;> rfl
  unfold loadSegment readseg
  change ((readsects disk (ph.paddr + ph.filesz) turns mem ph.start (ph.off / 512 + 1)).map _) = _
  by_cases fits : ph.Fits
  · have room : (ph.off / 512 + 1).toNat + ph.sectors < 2 ^ 32 := by
      unfold Fits at fits
      omega
    rw [readsects_eq ph.sectors turns mem _ _ fits room rfl, sector]
    by_cases enough : ph.sectors <= turns
    · rw [if_pos enough, if_pos ⟨fits, enough⟩, Option.map_some, funext effect]
    · rw [if_neg enough, if_neg fun both => enough both.2, Option.map_none]
  · rw [if_neg fun both => fits both.1,
      readsects_endless (below_of_not_fits fits) turns mem _ _ rfl, Option.map_none]

/-- Nothing is brought below the first sector. -/
theorem High.brings (high : ph.High) (fits : ph.Fits) {a : Word} (below : a.toNat + 512 <= 2 ^ 20) :
    ph.brings disk a = none := by
  have start := high.start
  have low := high.low
  have first := high.inFile
  have last := high.inMemory
  unfold Fits at fits
  rw [Proghdr.brings, if_neg, if_neg]
  · bv_omega
  · rintro ⟨more, inside⟩
    bv_omega

/-- What belongs in a segment is above 1 MB. -/
theorem High.wants (high : ph.High) {a : Word} {b : BitVec 8}
    (wanted : ph.wants disk a = some b) : 2 ^ 20 <= a.toNat := by
  have low := high.low
  have first := high.inFile
  have last := high.inMemory
  unfold Proghdr.wants at wanted
  split_ifs at wanted <;> bv_omega

/-- A segment alone brings what belongs in it. -/
theorem High.brings_of_wants (high : ph.High) (whole : ph.paddr.toNat + ph.filesz.toNat < 2 ^ 32)
    {a : Word} {b : BitVec 8} (wanted : ph.wants disk a = some b) : ph.brings disk a = some b := by
  have start := high.start
  have low := high.low
  have last := high.inMemory
  unfold Proghdr.wants at wanted
  unfold Proghdr.brings
  by_cases inside : a - ph.paddr < ph.filesz
  · have offset : (a - ph.start).toNat = (a - ph.paddr).toNat + ph.off.toNat % 512 := by bv_omega
    have stop : (ph.paddr + ph.filesz).toNat = ph.paddr.toNat + ph.filesz.toNat :=
      BitVec.toNat_add_of_lt whole
    have index : (ph.off.toNat / 512 + 1) * 512 + (a - ph.start).toNat =
        512 + ph.off.toNat + (a - ph.paddr).toNat := by
      omega
    have covered : (a - ph.start).toNat < 512 * ph.sectors := by
      rw [BitVec.lt_def] at inside
      unfold sectors
      omega
    rw [if_pos inside] at wanted
    rw [if_neg (by bv_omega), if_pos covered, index]
    exact wanted
  · rw [if_neg inside, Option.ite_none_right_eq_some] at wanted
    rw [if_pos ⟨by bv_omega, by bv_omega⟩]
    exact wanted.2

end Proghdr

/-! ## The loop -/

/-- The scratch space holds the start of the file. -/
def Scratch (disk : Disk) (mem : Bytes) : Prop :=
  ∀ i : Word, i.toNat < 4096 -> mem (elf + i) = file disk i

section Loop

variable {disk : Disk} {mem : Bytes}

theorem Scratch.uint (scratch : Scratch disk mem) {i : Word} (inside : i.toNat + 4 <= 4096) :
    uint mem (elf + i) = Boot.uint (file disk) i := by
  unfold Boot.uint
  rw [BitVec.add_assoc, BitVec.add_assoc, BitVec.add_assoc, scratch i (by omega),
    scratch (i + 1) (by bv_omega), scratch (i + 2) (by bv_omega), scratch (i + 3) (by bv_omega)]

theorem Scratch.proghdr (scratch : Scratch disk mem) {i : Word} (inside : i.toNat + 32 <= 4096) :
    proghdr mem (elf + i) = Boot.proghdr (file disk) i := by
  have field (k : Word) (low : k.toNat <= 28) :
      Boot.uint mem (elf + i + k) = Boot.uint (file disk) (i + k) := by
    rw [BitVec.add_assoc]
    exact scratch.uint (by bv_omega)
  unfold Boot.proghdr
  rw [field 4 (by decide), field 12 (by decide), field 16 (by decide), field 20 (by decide)]

theorem lastBrings_cons (ph : Proghdr) (phs : List Proghdr) (a : Word) (b : BitVec 8) :
    (lastBrings disk (ph :: phs) a).getD b =
      (lastBrings disk phs a).getD ((ph.brings disk a).getD b) := by
  unfold lastBrings
  rw [List.reverse_cons, List.findSome?_append, List.findSome?_singleton]
  cases phs.reverse.findSome? fun ph => ph.brings disk a <;> rfl

/-- The loop of `bootmain` leaves what the last of the segments brings. -/
theorem segments_eq (turns n : Nat) : ∀ (more : Nat) (mem : Bytes) (i : Word), Scratch disk mem ->
    i.toNat + 32 * n <= 4096 -> (∀ ph, ph ∈ headersFrom disk n i -> ph.High) ->
    segments disk turns (elf + i + 32 * BitVec.ofNat 32 n) more mem (elf + i) =
      if n <= more /\ ∀ ph, ph ∈ headersFrom disk n i -> ph.Fits /\ ph.sectors <= turns then
        some fun a => (lastBrings disk (headersFrom disk n i) a).getD (mem a)
      else none := by
  induction n with
  | zero =>
    intro more mem i _ _ _
    rw [if_pos ⟨Nat.zero_le more, nofun⟩]
    have stop : ¬ elf + i < elf + i + 32 * BitVec.ofNat 32 0 := by bv_omega
    cases more <;> exact if_neg stop
  | succ n ih =>
    intro more mem i scratch room high
    have first : Boot.proghdr mem (elf + i) = Boot.proghdr (file disk) i := scratch.proghdr (by omega)
    have next : elf + i + 32 = elf + (i + 32) := BitVec.add_assoc ..
    have stop : elf + i + 32 * BitVec.ofNat 32 (n + 1) =
        elf + (i + 32) + 32 * BitVec.ofNat 32 n := by bv_omega
    have test : elf + i < elf + i + 32 * BitVec.ofNat 32 (n + 1) := by
      unfold elf
      bv_omega
    rcases List.forall_mem_cons.mp high with ⟨here, later⟩
    cases more with
    | zero => rw [segments, if_pos test, if_neg fun both => Nat.not_succ_le_zero n both.1]
    | succ more =>
      rw [segments, if_pos test, first, Proghdr.loadSegment_eq, stop, next]
      by_cases fits : (Boot.proghdr (file disk) i).Fits /\ (Boot.proghdr (file disk) i).sectors <= turns
      · have kept : Scratch disk fun a => ((Boot.proghdr (file disk) i).brings disk a).getD (mem a) := by
          intro j inside
          have below : (elf + j).toNat + 512 <= 2 ^ 20 := by
            unfold elf
            bv_omega
          change ((Boot.proghdr (file disk) i).brings disk (elf + j)).getD _ = _
          rw [here.brings fits.1 below, Option.getD_none, scratch j inside]
        rw [if_pos fits, Option.bind_some, ih more _ _ kept (by bv_omega) later]
        simp only [headersFrom, List.forall_mem_cons, Nat.succ_le_succ_iff, lastBrings_cons, fits,
          true_and, and_true]
      · rw [if_neg fits, if_neg fun both => fits (both.2 _ List.mem_cons_self), Option.bind_none]

/-- `bootmain` jumps to the kernel if all segments end before the end of the address space. -/
theorem bootmain_eq (turns : Nat) (mem : Bytes) (magic : Boot.uint (file disk) 0 = ELF_MAGIC)
    (inside : (phoff disk).toNat + 32 * phnum disk <= 4096)
    (high : ∀ ph, ph ∈ headers disk -> ph.High) :
    bootmain disk turns mem =
      if 8 <= turns /\ phnum disk <= turns /\ ∀ ph, ph ∈ headers disk ->
      ph.Fits /\ ph.sectors <= turns then
        some (some (loaded disk mem, Boot.uint (loaded disk mem) (elf + 24)))
      else none := by
  have scratch : Scratch disk (filled disk mem elf 1 8) := by
    intro i inside
    have offset : elf + i - elf = i := by bv_omega
    rw [filled, offset, if_pos inside, file]
  have page : readseg disk turns mem elf 4096 0 =
      if 8 <= turns then some (filled disk mem elf 1 8) else none :=
    readsects_eq 8 turns mem elf 1 (by decide) (by decide) (by decide)
  have here : Boot.uint (filled disk mem elf 1 8) elf = ELF_MAGIC :=
    (scratch.uint (i := 0) (by decide)).trans magic
  have offset : Boot.uint (filled disk mem elf 1 8) (elf + 28) = phoff disk := scratch.uint (by decide)
  have count : ushort (filled disk mem elf 1 8) (elf + 44) = ushort (file disk) 44 :=
    congrArg₂ (· ++ ·) (scratch 45 (by decide)) (scratch 44 (by decide))
  rw [bootmain, page]
  by_cases enough : 8 <= turns
  · simp only [if_pos enough, Option.bind_some, here, ne_eq, not_true_eq_false, if_false, offset, count]
    rw [<- BitVec.ofNat_toNat, <- phnum, segments_eq turns (phnum disk) turns _ _ scratch inside high]
    simp only [enough, true_and, headers]
    split <;> rfl
  · rw [if_neg enough, if_neg fun both => enough both.1, Option.bind_none]

/-- `bootmain` jumps to the kernel with every segment in memory, whatever memory held before. -/
def Loads (disk : Disk) : Prop :=
  ∀ mem, ∃ turns after entry,
    bootmain disk turns mem = some (some (after, entry)) /\
      ∀ ph, ph ∈ headers disk -> ∀ a b, ph.wants disk a = some b -> after a = b

theorem lastBrings_of_loads (loads : Loads disk) (magic : Boot.uint (file disk) 0 = ELF_MAGIC)
    (inside : (phoff disk).toNat + 32 * phnum disk <= 4096)
    (high : ∀ ph, ph ∈ headers disk -> ph.High) {ph : Proghdr} (member : ph ∈ headers disk) :
    ph.Fits /\ ∀ a b, ph.wants disk a = some b -> lastBrings disk (headers disk) a = some b := by
  constructor
  · rcases loads fun _ => 0 with ⟨turns, after, entry, run, _⟩
    rw [bootmain_eq turns _ magic inside high, Option.ite_none_right_eq_some] at run
    exact (run.1.2.2 ph member).1
  · intro a b wanted
    -- A memory that does not hold the byte shows that it was brought.
    rcases loads fun _ => b + 1 with ⟨turns, after, entry, run, held⟩
    rw [bootmain_eq turns _ magic inside high, Option.ite_none_right_eq_some] at run
    cases run.2
    have above := (high ph member).wants wanted
    have outside : ¬ (a - elf).toNat < 512 * 8 := by
      unfold elf
      bv_omega
    have byte := held ph member a b wanted
    rw [loaded, filled, if_neg outside] at byte
    cases found : lastBrings disk (headers disk) a with
    | none =>
      rw [found, Option.getD_none] at byte
      bv_omega
    | some c =>
      rw [found, Option.getD_some] at byte
      rw [byte]

end Loop

/-- All segments are loaded only if no segment's sectors reach the end of the address space and the
last segment that covers an address brings what belongs there. -/
theorem loads_iff (disk : Disk) (magic : uint (file disk) 0 = ELF_MAGIC)
    (inside : (phoff disk).toNat + 32 * phnum disk <= 4096)
    (high : ∀ ph, ph ∈ headers disk -> ph.High) :
    Loads disk ↔ ∀ ph, ph ∈ headers disk -> ph.Fits /\
      ∀ a b, ph.wants disk a = some b -> lastBrings disk (headers disk) a = some b := by
  constructor
  · intro loads ph member
    exact lastBrings_of_loads loads magic inside high member
  · intro right mem
    have enough : 8 <= 2 ^ 32 /\ phnum disk <= 2 ^ 32 /\
        ∀ ph, ph ∈ headers disk -> ph.Fits /\ ph.sectors <= 2 ^ 32 := by
      refine ⟨by decide, by omega, fun ph member => ⟨(right ph member).1, ?_⟩⟩
      have fits := (right ph member).1
      unfold Proghdr.Fits at fits
      omega
    refine ⟨2 ^ 32, _, _, (bootmain_eq _ mem magic inside high).trans (if_pos enough), ?_⟩
    intro ph member a b wanted
    rw [loaded, (right ph member).2 a b wanted, Option.getD_some]

/-- An image whose program headers are at byte 52. -/
private def image (phnum : BitVec 8) (headers : List (BitVec 8)) : Disk := fun i =>
  if 1536 <= i then 7 else
    ([0x7F, 0x45, 0x4C, 0x46] ++ List.replicate 24 0 ++ [52] ++ List.replicate 15 0 ++ [phnum] ++
      List.replicate 7 0 ++ headers).getD (i - 512) 0

/-- 16 bytes from byte 512 of the file are loaded at 1 MB. -/
private def lower : List (BitVec 8) :=
  [1, 0, 0, 0, 0, 2, 0, 0, 0, 0, 0, 0, 0, 0, 0x10, 0, 16, 0, 0, 0, 16, 0, 0, 0] ++ List.replicate 8 0

/-- 16 bytes from byte 1040 of the file are loaded directly behind them. -/
private def upper : List (BitVec 8) :=
  [1, 0, 0, 0, 16, 4, 0, 0, 0, 0, 0, 0, 16, 0, 0x10, 0, 16, 0, 0, 0, 16, 0, 0, 0] ++ List.replicate 8 0

private theorem high_image (ph : Proghdr)
    (member : ph ∈ [Proghdr.mk 512 0x100000 16 16, ⟨1040, 0x100010, 16, 16⟩]) : ph.High := by
  simp only [List.mem_cons, List.not_mem_nil, or_false] at member
  rcases member with rfl | rfl <;> exact ⟨by decide, by decide, by decide⟩

theorem loads_lower :
    headers (image 1 lower) = [⟨512, 0x100000, 16, 16⟩] /\ Loads (image 1 lower) := by
  have one : headers (image 1 lower) = [⟨512, 0x100000, 16, 16⟩] := by decide +kernel
  refine ⟨one, (loads_iff _ (by decide +kernel) (by decide +kernel) ?_).mpr ?_⟩
  · rw [one]
    exact fun ph member => high_image ph (List.mem_cons.mpr (.inl (List.mem_singleton.mp member)))
  · rw [one]
    intro ph member
    cases List.mem_singleton.mp member
    refine ⟨by decide, fun a b wanted => ?_⟩
    rw [lastBrings, List.reverse_singleton, List.findSome?_singleton]
    exact (high_image _ List.mem_cons_self).brings_of_wants (by decide) wanted

/-- The first sector of the second segment overwrites the first segment. -/
theorem upper_overwrites_lower : uint (file (image 2 (lower ++ upper))) 0 = ELF_MAGIC /\
    (phoff (image 2 (lower ++ upper))).toNat + 32 * phnum (image 2 (lower ++ upper)) <= 4096 /\
    headers (image 2 (lower ++ upper)) = [⟨512, 0x100000, 16, 16⟩, ⟨1040, 0x100010, 16, 16⟩] /\
    ¬ Loads (image 2 (lower ++ upper)) := by
  have magic : uint (file (image 2 (lower ++ upper))) 0 = ELF_MAGIC := by decide +kernel
  have inside : (phoff (image 2 (lower ++ upper))).toNat + 32 * phnum (image 2 (lower ++ upper)) <=
      4096 := by
    decide +kernel
  have both : headers (image 2 (lower ++ upper)) =
      [⟨512, 0x100000, 16, 16⟩, ⟨1040, 0x100010, 16, 16⟩] := by
    decide +kernel
  refine ⟨magic, inside, both, fun loads => ?_⟩
  have first := (lastBrings_of_loads loads magic inside (both ▸ high_image)
    (both ▸ List.mem_cons_self)).2 0x100000 0 (by decide +kernel)
  rw [both] at first
  revert first
  decide +kernel

end Xv6.Boot
