import Xv6.Ownership.Growth
import Xv6.Ownership.Setup

namespace Xv6.Ownership

open Library Machine Memory

/-!
# Reading and changing entries: `copyuvm`, `mprotect`, `clearpteu` and `handle_cow_fault`

Both copying functions panic over a page of the parent that is not there.  `mprotect` and
`clearpteu` change the flags of entries that are there, and `handle_cow_fault` puts the entry of
a copy in the place of an entry.
-/

variable [L : Layout]

/-- The panics of the two copying functions. -/
def MissingPage (reason : Stop) : Prop :=
  reason = .panic "copyuvm: pte should exist" ∨ reason = .panic "copyuvm: page not present"

/-- The panics of a page table that does not fit the size of its process. -/
def Mismatch (reason : Stop) : Prop :=
  MissingPage reason ∨ reason = .panic "remap"

/-! ## The pages of the parent -/

section Parent

variable {ρ ρ₁ : Nat -> Role} {dirs : Finset Nat} {pgdir : Nat} {s t : Kernel}

omit L in
theorem PTE_FLAGS_lt (pte : Word) : (PTE_FLAGS pte).toNat < 2 ^ 12 := by
  rw [PTE_FLAGS, BitVec.toNat_and]
  exact Nat.lt_of_le_of_lt Nat.and_le_right (by decide)

omit L in
/-- How both loops start a pass: they panic unless the parent's page is there. -/
theorem parent_entry {v : Nat} {next : Nat -> Nat -> Word -> K (Option Nat)}
    (bounded : v < 0x100000) {returned : Option Nat -> Kernel -> Prop}
    {stopped : Stop -> Kernel -> Prop}
    (missing : target (entry t.mem pgdir v) = none -> ∀ reason, MissingPage reason ->
      stopped reason t)
    (found : ∀ f table, target (entry t.mem pgdir v) = some f ->
      target (t.mem pgdir (v / 1024)) = some table ->
      Ensures (next table (v % 1024) (entry t.mem pgdir v)) t returned stopped) :
    Ensures (walkpgdir pgdir (v * 4096) false >>= fun found =>
      match found with
      | none => throw (.panic "copyuvm: pte should exist")
      | some (table, index) => readWord table index >>= fun pte =>
        if HasFlag pte PTE_P then next table index pte
        else throw (.panic "copyuvm: page not present")) t returned stopped := by
  have page : v * 4096 / 4096 = v := by omega
  rw [ensures_bind, ensures_walkpgdir (by omega), page]
  by_cases table : HasFlag (t.mem pgdir (v / 1024)) PTE_P = true
  · have tabled := target_of_present table
    rw [if_pos table]
    simp only [ensures_bind, ensures_readWord]
    rw [<- entry_of_table tabled]
    by_cases present : HasFlag (entry t.mem pgdir v) PTE_P = true
    · rw [if_pos present]
      exact found _ _ (target_of_present present) tabled
    · rw [if_neg present, ensures_throw]
      exact missing (target_eq_none_iff.mpr (by simpa using present)) _ (.inr rfl)
  · have absent : target (t.mem pgdir (v / 1024)) = none := target_eq_none_iff.mpr (by simpa using table)
    rw [if_neg table]
    simp only [ensures_throw]
    exact missing (by rw [entry_of_none absent, target_zero]) _ (.inl rfl)

end Parent

/-! ## `mprotect` -/

section Mprotect

/-- The entry that `mprotect` makes of an entry. -/
def reprotected (prot pte : Word) : Word := (pte &&& 0xfffffff9#32) ||| protFlags prot

section

omit L

theorem protFlags_small (prot : Word) : (protFlags prot).toNat < 2 ^ 12 := by
  unfold protFlags
  repeat' split
  all_goals decide

/-- Each of the four protections sets `PTE_P`. -/
theorem protFlags_present {prot : Word} (known : protFlags prot ≠ 0#32) :
    HasFlag (protFlags prot) PTE_P = true := by
  unfold protFlags at known ⊢
  repeat' split
  all_goals first | decide | simp_all

theorem masked_eq (pte : Word) : pte &&& 0xfffffff9#32 = pte &&& ~~~6#32 := rfl

theorem target_masked (pte : Word) : target (pte &&& 0xfffffff9#32) = target pte := by
  unfold target
  rw [masked_eq, hasFlag_and, frameOf_and_not pte (by decide)]
  rfl

theorem masked_user (pte : Word) : HasFlag (pte &&& 0xfffffff9#32) PTE_U = false := by
  have none : 0xfffffff9#32 &&& PTE_U = 0#32 := by decide
  rw [hasFlag_and, none, HasFlag, BitVec.and_zero]
  rfl

/-- A new protection does not change the page, if there is one. -/
theorem target_reprotected {prot pte : Word} (there : protFlags prot ≠ 0#32 -> target pte ≠ none) :
    target (reprotected prot pte) = target pte := by
  rw [reprotected]
  by_cases unknown : protFlags prot = 0#32
  · rw [unknown, BitVec.or_zero, target_masked]
  · cases found : target pte with
    | none => exact absurd found (there unknown)
    | some f =>
      refine target_eq_some_iff.mpr ⟨by simp [hasFlag_or, protFlags_present unknown], ?_⟩
      rw [frameOf_or _ (protFlags_small prot), masked_eq, frameOf_and_not pte (by decide)]
      exact (target_eq_some_iff.mp found).2

end

/-- The pages that a loop visits from page `c` on up to an address. -/
def VisitsFrom (bound c w : Nat) : Prop :=
  w = c ∨ (c + 1) % 2 ^ 20 <= w /\ w * 4096 < bound

instance (bound c w : Nat) : Decidable (VisitsFrom bound c w) :=
  inferInstanceAs (Decidable (_ ∨ _))

/-- The pages that `mprotect(addr, len, ...)` visits. -/
def Visits (addr len : Word) (w : Nat) : Prop := VisitsFrom (addr + len).toNat (addr.toNat / 4096) w

instance (addr len : Word) (w : Nat) : Decidable (Visits addr len w) :=
  inferInstanceAs (Decidable (VisitsFrom ..))

variable {ρ : Nat -> Role} {dirs : Finset Nat} {d bound : Nat} {prot : Word}

/-- The state after the two writes of a pass. -/
def protecting (s : Kernel) (table index : Nat) (prot pte : Word) : Kernel :=
  let t := s.setMem (setWord s.mem table index (pte &&& 0xfffffff9#32))
  t.setMem (setWord t.mem table index (reprotected prot pte))

omit L in
/-- With a bound in the last page the cursor is always below it. -/
theorem mprotectLoop_diverges (last : 0xFFFFF000 < bound) (passes : Nat) :
    ∀ (s : Kernel) (c : Nat), c < 0x100000 ->
      Ensures (mprotectLoop d prot bound passes (c * 4096)) s (fun _ _ => False)
        (fun reason _ => ¬ Mismatch reason) := by
  induction passes with
  | zero =>
    intro s c _
    rw [mprotectLoop, ensures_throw]
    simp [Mismatch, MissingPage]
  | succ passes ih =>
    intro s c inside
    have next : (c * 4096 + PGSIZE) % 2 ^ 32 = (c + 1) % 2 ^ 20 * 4096 := by
      unfold PGSIZE
      omega
    rw [mprotectLoop, ensures_bind, ensures_walkpgdir (by omega)]
    split
    · simp [Mismatch, MissingPage]
    · simp only [ensures_bind, ensures_readWord, ensures_writeWord]
      rw [next, if_pos (by omega)]
      exact ih _ _ (Nat.mod_lt _ (by decide))

end Mprotect

/-! ## `handle_cow_fault` -/

section Fault

/-- The state after `lcr3`. -/
def flushed (s : Kernel) (d : Nat) : Kernel := { s with cr3 := d, tlb := fun _ _ => False }

/-- The entry for the copy of a page. -/
def copyEntry (g : Nat) : Word := frameAddr g ||| PTE_P ||| PTE_U ||| PTE_W

variable {ρ : Nat -> Role} {dirs : Finset Nat} {d v f : Nat} {s : Kernel}

omit L in
theorem target_copyEntry {g : Nat} (small : g < 2 ^ 20) : target (copyEntry g) = some g := by
  refine target_eq_some_iff.mpr ⟨by simp [copyEntry, hasFlag_or], ?_⟩
  rw [copyEntry, frameOf_or _ (by decide), frameOf_or _ (by decide), frameOf_or _ (by decide),
    frameOf_frameAddr small]

omit L in
/-- The count after one sharer less. -/
theorem toNat_pred {c : BitVec 8} (pos : c ≠ 0#8) : (c - 1#8).toNat = c.toNat - 1 := by
  rw [BitVec.toNat_sub_of_le]
  · rfl
  · rw [BitVec.le_def, BitVec.toNat_ofNat]
    rw [Nat.one_mod, Nat.one_le_iff_ne_zero]
    intro zero
    exact pos (BitVec.eq_of_toNat_eq zero)

/-- The state after the copy, before the translations are dropped. -/
def unsharing (s : Kernel) (rest : List Nat) (table index f g : Nat) : Kernel :=
  let t := Kernel.setMem { s with
    freelist := rest, pteArray := Function.update s.pteArray f (s.pteArray f - 1#8) }
    (Function.update s.mem g (s.mem f))
  t.setMem (setWord t.mem table index (copyEntry g))

end Fault

end Xv6.Ownership
