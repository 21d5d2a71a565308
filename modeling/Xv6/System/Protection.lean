import Xv6.System.FaultType

namespace Xv6.System

open Library Machine Memory Process Ownership
open Function

/-!
# `mprotect` on a range of pages that are there

The loop of `mprotect` starts at the page of `addr` and compares the next page
with `addr + len`, so that it visits the pages with a byte of the range.  It
returns when every such page is present, and a second call on the same range
leaves nothing of the first.
-/

/-- Page `v` has a byte of `[addr, addr + len)`. -/
def Overlaps (addr len : Word) (v : Nat) : Prop :=
  v * 4096 < addr.toNat + len.toNat /\ addr.toNat < (v + 1) * 4096

structure ValidRange (m : Memory) (d : Nat) (addr len : Word) : Prop where
  positive : 0 < len.toInt
  below : addr.toNat + len.toNat <= KERNBASE
  present : ∀ v, Overlaps addr len v -> HasFlag (entry m d v) PTE_P = true

/-- A protection built from `PROT_READ` and `PROT_WRITE`. -/
def protOf (read write : Bool) : Word :=
  (if read then PROT_READ else PROT_NONE) ||| (if write then PROT_WRITE else PROT_NONE)

/-- The pages of the range have the new protection, and every other entry is the same. -/
structure Exactly (d : Nat) (addr len : Word) (read write : Bool) (s t : Kernel) : Prop where
  present : ∀ v, Overlaps addr len v -> HasFlag (entry t.mem d v) PTE_P = true
  user : ∀ v, Overlaps addr len v -> HasFlag (entry t.mem d v) PTE_U = read
  writable : ∀ v, Overlaps addr len v -> HasFlag (entry t.mem d v) PTE_W = write
  others : ∀ v, Overlaps addr len v ->
    entry t.mem d v &&& ~~~(PTE_W ||| PTE_U) = entry s.mem d v &&& ~~~(PTE_W ||| PTE_U)
  outside : ∀ v, v < 0x100000 -> ¬ Overlaps addr len v -> entry t.mem d v = entry s.mem d v
  dir : t.mem d = s.mem d

variable {m : Memory}

section Loop

variable {d bound : Nat} {prot : Word}

theorem table_of_entry {v : Nat} (present : HasFlag (entry m d v) PTE_P = true) :
    HasFlag (m d (v / 1024)) PTE_P = true := by
  by_contra none
  unfold entry at present
  rw [if_neg none, hasFlag_zero] at present
  cases present

/-- The loop ends when the tables of its pages are there. -/
theorem mprotectLoop_returns (reachable : bound <= KERNBASE) (passes : Nat) :
    ∀ (s : Kernel) (c : Nat), c * 4096 < bound -> bound <= (c + passes) * 4096 -> Proper s.mem d ->
      (∀ w, c <= w -> w * 4096 < bound -> HasFlag (s.mem d (w / 1024)) PTE_P = true) ->
      Ensures (mprotectLoop d prot bound passes (c * 4096)) s (fun _ _ => True)
        (fun _ _ => False) := by
  unfold KERNBASE at reachable
  induction passes with
  | zero =>
    intro s c start enough
    omega
  | succ passes ih =>
    intro s c start enough proper there
    have page : c * 4096 / 4096 = c := by omega
    have onward : bound <= (c + 1 + passes) * 4096 := by
      rw [Nat.add_assoc, Nat.add_comm 1]
      exact enough
    have next : (c * 4096 + PGSIZE) % 2 ^ 32 = (c + 1) * 4096 := by
      unfold PGSIZE
      omega
    have table := there c (Nat.le_refl c) start
    have first := reprotects_page prot proper table
    rw [mprotectLoop, ensures_bind, ensures_walkpgdir (by omega), page, if_pos table]
    simp only [ensures_bind, ensures_readWord, ensures_writeWord]
    rw [<- entry_of_table (target_of_present table), next]
    change Ensures _ (protecting s (frameOf (s.mem d (c / 1024))) (c % 1024) prot (entry s.mem d c)) _ _
    generalize protecting s (frameOf (s.mem d (c / 1024))) (c % 1024) prot (entry s.mem d c) =
      t at first ⊢
    by_cases more : (c + 1) * 4096 < bound
    · rw [if_pos more]
      apply ih t (c + 1) more onward (proper.congr first.dir)
      intro w later inside
      rw [first.dir]
      exact there w (Nat.le_of_succ_le later) inside
    · rw [if_neg more, ensures_pure]
      trivial

end Loop

section Range

variable {d : Nat} {s : Kernel} {addr len : Word}

/-- The sum does not wrap. -/
theorem ValidRange.toNat_add (range : ValidRange m d addr len) :
    (addr + len).toNat = addr.toNat + len.toNat /\ 0 < len.toNat := by
  have below := range.below
  have pos := range.positive
  unfold KERNBASE at below
  constructor
  · rw [BitVec.toNat_add]
    omega
  · rcases Nat.eq_zero_or_pos len.toNat with none | some
    · rw [BitVec.eq_of_toNat_eq (y := 0#32) none] at pos
      cases pos
    · exact some

/-- The pages that the loop visits are those of the range. -/
theorem ValidRange.visits_iff (range : ValidRange m d addr len) (v : Nat) :
    Visits addr len v <-> Overlaps addr len v := by
  rcases range.toNat_add with ⟨sum, pos⟩
  have below := range.below
  unfold KERNBASE at below
  unfold Visits VisitsFrom Overlaps
  rw [sum]
  omega

theorem ValidRange.returns (range : ValidRange s.mem d addr len) (proper : Proper s.mem d)
    (prot : Word) : ∃ t, mprotect d addr len prot s = .ok 0 t := by
  rcases range.toNat_add with ⟨sum, pos⟩
  have below := range.below
  have start : PGROUNDDOWN addr.toNat = addr.toNat / 4096 * 4096 := rfl
  have bounded : addr.toNat + len.toNat <= (addr.toNat / 4096 + 2 ^ 20) * 4096 := by
    unfold KERNBASE at below
    rw [Nat.add_mul]
    omega
  have spec : Ensures (mprotect d addr len prot) s (fun result _ => result = 0) (fun _ _ => False) := by
    rw [mprotect, ensures_bind, start, sum]
    have first : addr.toNat / 4096 * 4096 < addr.toNat + len.toNat := by omega
    have tables : ∀ w, addr.toNat / 4096 <= w -> w * 4096 < addr.toNat + len.toNat ->
        HasFlag (s.mem d (w / 1024)) PTE_P = true :=
      fun w later inside => table_of_entry (range.present w ⟨inside, by omega⟩)
    generalize 2 ^ 20 = passes at bounded ⊢
    refine (mprotectLoop_returns below passes s _ first bounded proper tables).mono ?_
      fun _ _ never => never
    intro _ t _
    rw [ensures_bind, ensures_lcr3, ensures_pure]
  rcases spec.exists_ok with ⟨result, t, run, rfl⟩
  exact ⟨t, run⟩

theorem protFlags_protOf (read write : Bool) :
    protFlags (protOf read write) ≠ 0#32 /\ HasFlag (protFlags (protOf read write)) PTE_U = read /\
      HasFlag (protFlags (protOf read write)) PTE_W = write /\
      protFlags (protOf read write) &&& ~~~(PTE_W ||| PTE_U) = PTE_P := by
  cases read <;> cases write <;> decide

/-- The other bits of an entry stay; the page was present before. -/
theorem reprotected_others {e : Word} (present : HasFlag e PTE_P = true) (read write : Bool) :
    reprotected (protOf read write) e &&& ~~~(PTE_W ||| PTE_U) = e &&& ~~~(PTE_W ||| PTE_U) := by
  have mask : (0xfffffff9#32 : Word) &&& ~~~(PTE_W ||| PTE_U) = ~~~(PTE_W ||| PTE_U) := by decide
  have one : PTE_P = BitVec.twoPow 32 0 := by decide
  have set : e.getLsbD 0 = true := by
    unfold HasFlag at present
    rw [one, BitVec.and_twoPow] at present
    by_contra clear
    rw [if_neg clear] at present
    cases present
  have flag : e &&& ~~~(PTE_W ||| PTE_U) ||| PTE_P = e &&& ~~~(PTE_W ||| PTE_U) := by
    apply BitVec.eq_of_getLsbD_eq
    intro i inside
    rw [BitVec.getLsbD_or, one, BitVec.getLsbD_twoPow]
    by_cases first : i = 0
    · subst first
      rw [BitVec.getLsbD_and, set]
      decide
    · rw [decide_eq_false (Ne.symm first), Bool.and_false, Bool.or_false]
  unfold reprotected
  calc ((e &&& 0xfffffff9#32) ||| protFlags (protOf read write)) &&& ~~~(PTE_W ||| PTE_U)
      = (e &&& 0xfffffff9#32) &&& ~~~(PTE_W ||| PTE_U) ||| protFlags
        (protOf read write) &&& ~~~(PTE_W ||| PTE_U) := by
        apply BitVec.eq_of_getLsbD_eq
        intro i inside
        simp only [BitVec.getLsbD_and, BitVec.getLsbD_or, Bool.and_or_distrib_right]
    _ = e &&& ~~~(PTE_W ||| PTE_U) ||| PTE_P := by
        rw [(protFlags_protOf read write).2.2.2, BitVec.and_assoc, mask]
    _ = e &&& ~~~(PTE_W ||| PTE_U) := flag

/-- The new entry does not depend on the flags that `mprotect` clears. -/
theorem reprotected_congr {e e' : Word}
    (same : e' &&& ~~~(PTE_W ||| PTE_U) = e &&& ~~~(PTE_W ||| PTE_U)) (prot : Word) :
    reprotected prot e' = reprotected prot e := by
  have mask : (0xfffffff9#32 : Word) = ~~~(PTE_W ||| PTE_U) := by decide
  unfold reprotected
  rw [mask, same]

theorem Exactly.of_run (range : ValidRange s.mem d addr len) (proper : Proper s.mem d)
    {read write : Bool} {result : Int} {t : Kernel}
    (run : mprotect d addr len (protOf read write) s = .ok result t) :
    Exactly d addr len read write s t := by
  have done := mprotect_entries proper run
  have below := range.below
  unfold KERNBASE at below
  rcases protFlags_protOf read write with ⟨known, user, writable, _⟩
  have changed : ∀ v, Overlaps addr len v ->
      entry t.mem d v = reprotected (protOf read write) (entry s.mem d v) := by
    intro v inside
    rw [done.entries v (by unfold Overlaps at inside; omega), if_pos ((range.visits_iff v).mpr inside)]
  constructor
  case present =>
    intro v inside
    rw [changed v inside]
    exact (carries_reprotected _ _ known).1
  case user =>
    intro v inside
    rw [changed v inside, (carries_reprotected _ _ known).2.1, user]
  case writable =>
    intro v inside
    rw [changed v inside, (carries_reprotected _ _ known).2.2, writable]
  case others =>
    intro v inside
    rw [changed v inside]
    exact reprotected_others (range.present v inside) read write
  case outside =>
    intro v small outside
    rw [done.entries v small, if_neg fun visited => outside ((range.visits_iff v).mp visited)]
  case dir => exact done.dir

/-- On a valid range `mprotect` returns, gives exactly the pages of the range the protection that
was asked for, and keeps every other entry and every other bit.  What an earlier call on the same
range did is gone after a second one. -/
theorem mprotect_exact (proper : Proper s.mem d) (range : ValidRange s.mem d addr len)
    (read write : Bool) :
    ∃ t, mprotect d addr len (protOf read write) s = .ok 0 t /\ Exactly d addr len read write s t /\
      ∀ read' write' : Bool, ∃ both once,
        mprotect d addr len (protOf read' write') t = .ok 0 both /\
        mprotect d addr len (protOf read' write') s = .ok 0 once /\
        both.mem d = once.mem d /\ ∀ v, v < 0x100000 ->
        entry both.mem d v = entry once.mem d v := by
  rcases range.returns proper (protOf read write) with ⟨t, run⟩
  have done := Exactly.of_run range proper run
  refine ⟨t, run, done, ?_⟩
  intro read' write'
  have after : Proper t.mem d := proper.congr done.dir
  have still : ValidRange t.mem d addr len := ⟨range.positive, range.below, done.present⟩
  rcases still.returns after (protOf read' write') with ⟨both, second⟩
  rcases range.returns proper (protOf read' write') with ⟨once, alone⟩
  have later := mprotect_entries after second
  have direct := mprotect_entries proper alone
  refine ⟨both, once, second, alone, ?_, ?_⟩
  · rw [later.dir, done.dir, direct.dir]
  · intro v small
    rw [later.entries v small, direct.entries v small]
    by_cases inside : Overlaps addr len v
    · have visited := (range.visits_iff v).mpr inside
      rw [if_pos visited, if_pos visited]
      exact reprotected_congr (done.others v inside) _
    · rw [if_neg fun visited => inside ((range.visits_iff v).mp visited),
        if_neg fun visited => inside ((range.visits_iff v).mp visited), done.outside v small inside]

end Range

/-! ## Calls that should fail -/

/-- The length is negative, the end wraps or is above `KERNBASE`, or a page of the range is not a
user page. -/
def BadRange (m : Memory) (d : Nat) (addr len : Word) : Prop :=
  len.toInt < 0 ∨ KERNBASE < addr.toNat + len.toNat ∨
    ∃ v, 0 < len.toNat /\ Overlaps addr len v /\ permits m d (v * 4096) true false = false

/-- A call with a bad range fails and changes nothing, and a call with an empty range changes no
entry. -/
structure FailsCleanly (s : Kernel) (d : Nat) (addr len prot : Word) : Prop where
  bad : BadRange s.mem d addr len -> ∃ result t,
    mprotect d addr len prot s = .ok result t /\ result < 0 /\ t.mem = s.mem
  empty : len = 0#32 -> ∃ result t,
    mprotect d addr len prot s = .ok result t /\ ∀ v, v < 0x100000 -> entry t.mem d v = entry s.mem d v

section Failing

variable {d : Nat} {s : Kernel} {addr len prot : Word}

theorem mprotect_result {result : Int} {t : Kernel}
    (run : mprotect d addr len prot s = .ok result t) : result = 0 := by
  have spec : Ensures (mprotect d addr len prot) s (fun result _ => result = 0) (fun _ _ => True) := by
    rw [mprotect, ensures_bind]
    generalize 2 ^ 20 = passes
    unfold Ensures
    split
    next => rfl
    next => trivial
  exact spec.of_ok run

/-- The two writes of one pass leave the word at the entry with the new flags. -/
theorem protecting_mem (table index : Nat) (e : Word) :
    (protecting s table index prot e).mem = setWord s.mem table index (reprotected prot e) := by
  unfold protecting
  change setWord (setWord s.mem table index _) table index _ = _
  unfold setWord
  rw [update_self, update_idem, update_idem]

/-- An empty range below `KERNBASE` is one pass. -/
theorem mprotect_empty (below : addr.toNat <= KERNBASE) :
    Ensures (mprotect d addr 0#32 prot) s
      (fun _ t => HasFlag (s.mem d (addr.toNat / 4096 / 1024)) PTE_P = true /\
        t.mem = setWord s.mem (frameOf (s.mem d (addr.toNat / 4096 / 1024)))
          (addr.toNat / 4096 % 1024) (reprotected prot (entry s.mem d (addr.toNat / 4096))))
      (fun _ _ => HasFlag (s.mem d (addr.toNat / 4096 / 1024)) PTE_P = false) := by
  unfold KERNBASE at below
  have start : PGROUNDDOWN addr.toNat = addr.toNat / 4096 * 4096 := rfl
  have page : addr.toNat / 4096 * 4096 / 4096 = addr.toNat / 4096 := by omega
  have passes : (2 ^ 20 : Nat) = 1048575 + 1 := rfl
  rw [mprotect, ensures_bind, BitVec.add_zero, start, passes]
  generalize 1048575 = more
  rw [mprotectLoop, ensures_bind, ensures_walkpgdir (by omega), page]
  by_cases table : HasFlag (s.mem d (addr.toNat / 4096 / 1024)) PTE_P = true
  · have last : ¬ (addr.toNat / 4096 * 4096 + PGSIZE) % 2 ^ 32 < addr.toNat := by
      unfold PGSIZE
      omega
    rw [if_pos table]
    simp only [ensures_bind, ensures_readWord, ensures_writeWord]
    rw [<- entry_of_table (target_of_present table), if_neg last, ensures_pure, ensures_lcr3,
      ensures_pure]
    exact ⟨table, protecting_mem _ _ _⟩
  · rw [if_neg table, ensures_throw]
    exact Bool.eq_false_iff.mpr table

/-- The entry reads back, even when the directory is its own table. -/
theorem entry_reprotected {v : Nat} (table : HasFlag (m d (v / 1024)) PTE_P = true) :
    entry (setWord m (frameOf (m d (v / 1024))) (v % 1024) (reprotected prot (entry m d v))) d v =
      reprotected prot (entry m d v) := by
  have old := entry_of_table (target_of_present table)
  have written : setWord m (frameOf (m d (v / 1024))) (v % 1024) (reprotected prot (entry m d v))
      (frameOf (m d (v / 1024))) (v % 1024) = reprotected prot (entry m d v) := by
    unfold setWord
    rw [update_self, update_self]
  have same : target (setWord m (frameOf (m d (v / 1024))) (v % 1024)
      (reprotected prot (entry m d v)) d (v / 1024)) = some (frameOf (m d (v / 1024))) := by
    by_cases cell : d = frameOf (m d (v / 1024)) /\ v / 1024 = v % 1024
    · have itself : entry m d v = m d (v / 1024) := by
        rw [old, <- cell.1, <- cell.2]
      rw [<- cell.1, <- cell.2] at written
      rw [<- cell.1, <- cell.2, written, itself, target_reprotected, target_of_present table, <- cell.1]
      intro _ none
      rw [target_of_present table] at none
      cases none
    · have kept : setWord m (frameOf (m d (v / 1024))) (v % 1024) (reprotected prot (entry m d v)) d
          (v / 1024) = m d (v / 1024) := by
        unfold setWord
        by_cases frame : d = frameOf (m d (v / 1024))
        · rw [<- frame, update_self, update_of_ne fun index => cell ⟨frame, index⟩]
        · rw [update_of_ne frame]
      rw [kept, target_of_present table]
  rw [entry_of_table same, written]

/-- `mprotect` never fails, and it rewrites the entry at `addr` even for an empty range: a call is
as it should be exactly when its range is good and, if it is empty, the entry has the protection
already. -/
theorem mprotect_fails_cleanly_iff (s : Kernel) (d : Nat) (addr len prot : Word) :
    FailsCleanly s d addr len prot <-> ¬ BadRange s.mem d addr len /\
      (len = 0#32 -> HasFlag (s.mem d (addr.toNat / 4096 / 1024)) PTE_P = true /\
        reprotected prot (entry s.mem d (addr.toNat / 4096)) =
          entry s.mem d (addr.toNat / 4096)) := by
  constructor
  · intro clean
    have good : ¬ BadRange s.mem d addr len := by
      intro bad
      rcases clean.bad bad with ⟨result, t, run, negative, _⟩
      rw [mprotect_result run] at negative
      exact absurd negative (by decide)
    refine ⟨good, ?_⟩
    rintro rfl
    rcases clean.empty rfl with ⟨result, t, run, kept⟩
    have below : addr.toNat <= KERNBASE := by
      by_contra above
      exact good (.inr (.inl (Nat.lt_of_not_le above)))
    rcases (mprotect_empty below).of_ok run with ⟨table, memory⟩
    have here := kept (addr.toNat / 4096) (by unfold KERNBASE at below; omega)
    rw [memory, entry_reprotected table] at here
    exact ⟨table, here⟩
  · rintro ⟨good, empty⟩
    refine ⟨fun bad => absurd bad good, ?_⟩
    rintro rfl
    have below : addr.toNat <= KERNBASE := by
      by_contra above
      exact good (.inr (.inl (Nat.lt_of_not_le above)))
    rcases empty rfl with ⟨table, same⟩
    have spec := @mprotect_empty d s addr prot below
    cases run : mprotect d addr 0#32 prot s with
    | error stop t =>
      have absent := spec.of_error run
      rw [table] at absent
      cases absent
    | ok result t =>
      have memory := (spec.of_ok run).2
      have nothing : t.mem = s.mem := by
        rw [memory, same, entry_of_table (target_of_present table)]
        unfold setWord
        rw [update_eq_self, update_eq_self]
      refine ⟨result, t, rfl, fun v _ => ?_⟩
      rw [nothing]

end Failing

/-- Two pages, of which the process has the first: the call returns zero, and the second page
becomes a page that refers to frame zero. -/
theorem mprotect_absent_page : ∃ t,
    mprotect 1 0x1000#32 0x2000#32 PROT_READ onePage = .ok 0 t /\
    BadRange onePage.mem 1 0x1000#32 0x2000#32 /\
      entry onePage.mem 1 2 = 0#32 /\ entry t.mem 1 2 = PTE_P ||| PTE_U /\
      ¬ FailsCleanly onePage 1 0x1000#32 0x2000#32 PROT_READ := by
  have bad : BadRange onePage.mem 1 0x1000#32 0x2000#32 := by
    refine .inr (.inr ⟨2, by decide, ?_, by decide⟩)
    unfold Overlaps
    decide
  refine ⟨_, rfl, bad, by decide, by decide +kernel, ?_⟩
  intro clean
  rcases clean.bad bad with ⟨result, t, run, negative, _⟩
  rw [mprotect_result run] at negative
  exact absurd negative (by decide)

/-! ## A range across two page tables -/

/-- Frame 1 is the directory, frames 2 and 3 are its tables, and the pages are the last of one table
and the first of the other. -/
def boundaryMemory : Memory := fun frame index =>
  if frame = 1 /\ index = 0 then 0x2007#32 else if frame = 1 /\ index = 1 then 0x3007#32
  else if frame = 2 /\ index = 1023 then 0x4007#32 else if frame = 3 /\ index = 0 then 0x5007#32 else 0#32

def boundary : Kernel := { onePage with mem := boundaryMemory }

theorem boundary_proper : Proper boundary.mem 1 := by
  have only : ∀ i, HasFlag (boundary.mem 1 i) PTE_P = true -> i = 0 ∨ i = 1 := by
    intro i present
    by_contra other
    rcases not_or.mp other with ⟨notFirst, notSecond⟩
    have zero : boundary.mem 1 i = 0#32 := by
      change boundaryMemory 1 i = _
      simp [boundaryMemory, notFirst, notSecond]
    rw [zero, hasFlag_zero] at present
    cases present
  constructor
  · intro i present
    rcases only i present with rfl | rfl <;> decide
  · intro i j first second
    rcases only i first with rfl | rfl <;> rcases only j second with rfl | rfl <;> decide

/-- Thirty-two bytes, sixteen on each side of the boundary, become read-only. -/
theorem mprotect_exact_boundary : ∃ t, mprotect 1 0x3ffff0#32 32#32 PROT_READ boundary = .ok 0 t /\
    HasFlag (entry t.mem 1 1023) PTE_W = false /\ HasFlag (entry t.mem 1 1024) PTE_W = false /\
      entry t.mem 1 1025 = 0#32 := by
  have pages : ∀ v, Overlaps 0x3ffff0#32 32#32 v -> v = 1023 ∨ v = 1024 := by
    intro v inside
    unfold Overlaps at inside
    simp only [BitVec.toNat_ofNat] at inside
    omega
  have range : ValidRange boundary.mem 1 0x3ffff0#32 32#32 := by
    refine ⟨by decide, by decide, ?_⟩
    intro v inside
    rcases pages v inside with rfl | rfl <;> decide
  rcases mprotect_exact boundary_proper range true false with ⟨t, run, done, _⟩
  refine ⟨t, run, done.writable 1023 ?_, done.writable 1024 ?_, ?_⟩
  · unfold Overlaps
    decide
  · unfold Overlaps
    decide
  · rw [done.outside 1025 (by decide) (by unfold Overlaps; decide)]
    decide

end Xv6.System
