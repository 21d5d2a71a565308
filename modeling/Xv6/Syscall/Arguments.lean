import Xv6.Machine.State

namespace Xv6.Syscall

open Library Machine

/-!
# The arguments of system calls, `syscall.c`

The kernel reads the arguments from the user stack, and checks addresses against `proc->sz`
before it follows them.  The additions in these checks wrap around.  A call records each user
byte that it touches.  The bytes that the functions of `syscall.c` read are recorded apart from
those that a system call reads or writes by an address that it was given.
-/

abbrev Byte := BitVec 8

inductive Touch where
  /-- A byte is read by `fetchint` or `fetchstr`. -/
  | fetch (address : Word)
  | load (address : Word)
  | store (address : Word)
  deriving DecidableEq, Repr

/-- What the calls of this part read of a `struct file`. -/
structure Handle where
  type : FileType
  readable : Bool
  writable : Bool

structure Caller where
  /-- `proc->sz` -/
  sz : Word
  /-- `proc->tf->esp` -/
  esp : Word
  /-- The bytes at user addresses. -/
  mem : Word -> Byte
  /-- `proc->ofile` -/
  ofile : Nat -> Option Handle
  touched : List Touch

inductive Stop where
  | panic (message : String)
  /-- The call sleeps. -/
  | waiting
  deriving DecidableEq, Repr

abbrev U (α : Type) := EStateM Stop Caller α

/-- The caller after it has touched some bytes. -/
def Caller.note (s : Caller) (bytes : List Touch) : Caller :=
  { s with touched := s.touched ++ bytes }

/-- The addresses of `n` bytes. -/
def span (first : Word) (n : Nat) : List Word :=
  (List.range n).map fun k => first + BitVec.ofNat 32 k

/-- The `int` at an address. -/
def wordAt (mem : Word -> Byte) (address : Word) : Word :=
  mem (address + 3#32) ++ mem (address + 2#32) ++ mem (address + 1#32) ++ mem address

/-! ## The functions -/

/-- `fetchint`, with `none` for -1. -/
def fetchint (addr : Word) : U (Option Word) := do
  let s ← get
  if s.sz <= addr ∨ s.sz < addr + 4#32 then
    return none
  else do
    modify fun s => s.note ((span addr 4).map .fetch)
    return some (wordAt s.mem addr)

/-- The loop of `fetchstr`, with `more` bytes before `ep`. -/
def fetchstrLoop (pp : Word) : Nat -> Nat -> U (Option Nat)
  | 0, _ => return none
  | more + 1, i => do
      let s ← get
      modify fun s => s.note [.fetch (pp + BitVec.ofNat 32 i)]
      if s.mem (pp + BitVec.ofNat 32 i) = 0#8 then
        return some i
      else
        fetchstrLoop pp more (i + 1)

/-- `fetchstr`: the pointer and the length. -/
def fetchstr (addr : Word) : U (Option (Word × Nat)) := do
  let s ← get
  if s.sz <= addr then
    return none
  else do
    match ← fetchstrLoop addr (s.sz.toNat - addr.toNat) 0 with
    | none => return none
    | some length => return some (addr, length)

def argint (n : Word) : U (Option Word) := do
  let s ← get
  fetchint (s.esp + 4#32 + 4#32 * n)

def argptr (n size : Word) : U (Option Word) := do
  match ← argint n with
  | none => return none
  | some i => do
      let s ← get
      if s.sz <= i ∨ s.sz < i + size then
        return none
      else
        return some i

def argstr (n : Word) : U (Option (Word × Nat)) := do
  match ← argint n with
  | none => return none
  | some addr => fetchstr addr

/-- `argfd` of `sysfile.c`. -/
def argfd (n : Word) : U (Option Handle) := do
  match ← argint n with
  | none => return none
  | some fd => do
      let s ← get
      if fd.toInt < 0 ∨ (NOFILE : Int) <= fd.toInt then
        return none
      else
        return s.ofile fd.toNat

/-! ## What they do -/

section Rules

variable {s : Caller} {stopped : Stop -> Caller -> Prop}

variable {a n : Word}

theorem mem_span {first : Word} {n : Nat} :
    a ∈ span first n <-> ∃ k, k < n /\ a = first + BitVec.ofNat 32 k := by
  unfold span
  simp only [List.mem_map, List.mem_range, eq_comm]

/-- The check of `fetchint`. -/
def Fetchable (s : Caller) (addr : Word) : Prop := ¬ (s.sz <= addr ∨ s.sz < addr + 4#32)

instance (s : Caller) (addr : Word) : Decidable (Fetchable s addr) :=
  inferInstanceAs (Decidable (¬ _))

variable {returned : Option Word -> Caller -> Prop} {addr : Word}

theorem ensures_fetchint_none (refused : ¬ Fetchable s addr) :
    Ensures (fetchint addr) s returned stopped <-> returned none s := by
  rw [fetchint, ensures_bind, ensures_get, if_pos (not_not.mp refused), ensures_pure]

theorem ensures_fetchint_some (accepted : Fetchable s addr) :
    Ensures (fetchint addr) s returned stopped <->
      returned (some (wordAt s.mem addr)) (s.note ((span addr 4).map .fetch)) := by
  rw [fetchint, ensures_bind, ensures_get, if_neg accepted, ensures_bind, ensures_modify, ensures_pure]

/-- No sum wraps around below `KERNBASE`. -/
theorem toNat_add_small {sz k : Nat} (below : a.toNat + k < sz) (small : sz <= 2 ^ 32) :
    (a + BitVec.ofNat 32 k).toNat = a.toNat + k := by
  rw [BitVec.toNat_add, BitVec.toNat_ofNat]
  omega

theorem Fetchable.below (accepted : Fetchable s addr) (small : s.sz.toNat < KERNBASE) :
    addr.toNat + 4 <= s.sz.toNat := by
  unfold Fetchable at accepted
  unfold KERNBASE at small
  simp only [not_or, BitVec.lt_def, BitVec.le_def, BitVec.toNat_add] at accepted
  have four : (4#32).toNat = 4 := rfl
  omega

/-- The bytes that `fetchint` reads. -/
theorem Fetchable.span (accepted : Fetchable s addr) (small : s.sz.toNat < KERNBASE)
    (inside : a ∈ span addr 4) : a.toNat < s.sz.toNat := by
  rcases mem_span.mp inside with ⟨k, less, rfl⟩
  have below := accepted.below small
  rw [toNat_add_small (show addr.toNat + k < s.sz.toNat by omega) (Nat.le_of_lt s.sz.isLt)]
  omega

/-- The address of argument `n`. -/
def Caller.slot (s : Caller) (n : Word) : Word := s.esp + 4#32 + 4#32 * n

def Caller.argument (s : Caller) (n : Word) : Word := wordAt s.mem (s.slot n)

/-- The caller after `argint(n, ...)` has read the argument. -/
def Caller.fetched (s : Caller) (n : Word) : Caller := s.note ((span (s.slot n) 4).map .fetch)

@[simp] theorem fetched_sz (s : Caller) (n : Word) : (s.fetched n).sz = s.sz := rfl

theorem ensures_argint_none (refused : ¬ Fetchable s (s.slot n)) :
    Ensures (argint n) s returned stopped <-> returned none s := by
  rw [argint, ensures_bind, ensures_get]
  exact ensures_fetchint_none refused

theorem ensures_argint_some (accepted : Fetchable s (s.slot n)) :
    Ensures (argint n) s returned stopped <-> returned (some (s.argument n)) (s.fetched n) := by
  rw [argint, ensures_bind, ensures_get]
  exact ensures_fetchint_some accepted

/-- Both outcomes of `argint`. -/
theorem argint_rule (none : returned none s)
    (some : Fetchable s (s.slot n) -> returned (some (s.argument n)) (s.fetched n)) :
    Ensures (argint n) s returned stopped := by
  by_cases accepted : Fetchable s (s.slot n)
  · exact (ensures_argint_some accepted).mpr (some accepted)
  · exact (ensures_argint_none accepted).mpr none

/-- The check of `argptr`. -/
def Pointer (s : Caller) (p size : Word) : Prop := ¬ (s.sz <= p ∨ s.sz < p + size)

instance (s : Caller) (p size : Word) : Decidable (Pointer s p size) :=
  inferInstanceAs (Decidable (¬ _))

theorem ensures_argptr_some {size : Word} (accepted : Fetchable s (s.slot n))
    (pointer : Pointer s (s.argument n) size) :
    Ensures (argptr n size) s returned stopped <->
    returned (some (s.argument n)) (s.fetched n) := by
  have inside : ¬ ((s.fetched n).sz <= s.argument n ∨ (s.fetched n).sz < s.argument n + size) := pointer
  rw [argptr, ensures_bind, ensures_argint_some accepted]
  simp only [ensures_bind, ensures_get]
  rw [if_neg inside, ensures_pure]

/-- Both outcomes of `argptr`. -/
theorem argptr_rule {size : Word} (none : returned none s)
    (refused : Fetchable s (s.slot n) -> returned Option.none (s.fetched n))
    (some : Fetchable s (s.slot n) -> Pointer s (s.argument n) size ->
      returned (some (s.argument n)) (s.fetched n)) :
    Ensures (argptr n size) s returned stopped := by
  by_cases pointer : Fetchable s (s.slot n) /\ Pointer s (s.argument n) size
  · exact (ensures_argptr_some pointer.1 pointer.2).mpr (some pointer.1 pointer.2)
  · rw [argptr, ensures_bind]
    refine argint_rule ?_ fun accepted => ?_
    · rw [ensures_pure]
      exact none
    · have outside : (s.fetched n).sz <= s.argument n ∨ (s.fetched n).sz < s.argument n + size :=
        not_not.mp fun inside => pointer ⟨accepted, inside⟩
      simp only [ensures_bind, ensures_get]
      rw [if_pos outside, ensures_pure]
      exact refused accepted

theorem Pointer.inside {p size : Word} (pointer : Pointer s p size) (small : s.sz.toNat < KERNBASE)
    {k : Nat} (less : (k : Int) < size.toInt) : p.toNat + k < s.sz.toNat := by
  unfold Pointer at pointer
  unfold KERNBASE at small
  simp only [not_or, BitVec.lt_def, BitVec.le_def, BitVec.toNat_add] at pointer
  rw [BitVec.toInt_eq_toNat_cond] at less
  have bound := size.isLt
  by_cases pos : 2 * size.toNat < 2 ^ 32
  · rw [if_pos pos] at less
    omega
  · rw [if_neg pos] at less
    omega

/-- The bytes that the loop reads, by induction on those that are left. -/
theorem fetchstrLoop_spec (pp : Word) (more : Nat) : ∀ (i : Nat) (s : Caller),
    Ensures (fetchstrLoop pp more i) s
      (fun found t => (∀ e, e ∈ t.touched -> e ∈ s.touched ∨
          ∃ k, k < i + more /\ e = .fetch (pp + BitVec.ofNat 32 k)) /\
        ∀ length, found = some length -> length < i + more)
      (fun _ _ => False) := by
  induction more with
  | zero =>
    intro i s
    rw [fetchstrLoop, ensures_pure]
    exact ⟨fun e old => .inl old, fun _ impossible => nomatch impossible⟩
  | succ more ih =>
    intro i s
    have first : ∀ e, e ∈ (s.note [.fetch (pp + BitVec.ofNat 32 i)]).touched ->
        e ∈ s.touched ∨ ∃ k, k < i + (more + 1) /\ e = .fetch (pp + BitVec.ofNat 32 k) := by
      intro e inside
      cases List.mem_append.mp inside with
      | inl old => exact .inl old
      | inr new => exact .inr ⟨i, by omega, List.mem_singleton.mp new⟩
    simp only [fetchstrLoop, ensures_bind, ensures_get, ensures_modify]
    by_cases last : s.mem (pp + BitVec.ofNat 32 i) = 0#8
    · rw [if_pos last, ensures_pure]
      refine ⟨first, fun length same => ?_⟩
      cases same
      omega
    · rw [if_neg last]
      refine (ih (i + 1) _).imp ?_
      rintro found t ⟨touched, short⟩
      refine ⟨fun e inside => ?_, fun length same => ?_⟩
      · rcases touched e inside with old | ⟨k, less, rfl⟩
        · exact first e old
        · exact .inr ⟨k, by omega, rfl⟩
      · have less := short length same
        omega

end Rules

/-! ## Soundness -/

/-- The bytes that were touched between two states are below `sz`. -/
def Below (s t : Caller) : Prop := ∀ e, e ∈ t.touched -> e ∈ s.touched ∨
  ∃ a, e = .fetch a /\ a.toNat < s.sz.toNat

/-- What a check lets pass lies in the process. -/
structure Checked (s : Caller) : Prop where
  argint : ∀ n value t, argint n s = .ok (some value) t -> Below s t
  argptr : ∀ n size p t, argptr n size s = .ok (some p) t ->
    Below s t /\ ∀ k : Nat, (k : Int) < size.toInt -> p.toNat + k < s.sz.toNat
  argstr : ∀ n p length t, argstr n s = .ok (some (p, length)) t ->
    Below s t /\ ∀ k, k <= length -> p.toNat + k < s.sz.toNat

section Soundness

variable {s : Caller}

theorem Below.refl (s : Caller) : Below s s := fun _ old => .inl old

theorem below_fetched {n : Word} (small : s.sz.toNat < KERNBASE)
    (accepted : Fetchable s (s.slot n)) : Below s (s.fetched n) := by
  intro e inside
  cases List.mem_append.mp inside with
  | inl old => exact .inl old
  | inr new =>
    rcases List.mem_map.mp new with ⟨a, listed, rfl⟩
    exact .inr ⟨a, rfl, accepted.span small listed⟩

theorem checked (small : s.sz.toNat < KERNBASE) : Checked s := by
  constructor
  case argint =>
    intro n value t run
    have spec : Ensures (argint n) s (fun _ t => Below s t) (fun _ _ => True) :=
      argint_rule (Below.refl s) fun accepted => below_fetched small accepted
    exact spec.of_ok run
  case argptr =>
    intro n size p t run
    have spec : Ensures (argptr n size) s (fun found t => Below s t /\ ∀ p, found = some p ->
        ∀ k : Nat, (k : Int) < size.toInt -> p.toNat + k < s.sz.toNat) (fun _ _ => True) := by
      refine argptr_rule ?_ (fun accepted => ?_) fun accepted pointer => ?_
      · exact ⟨Below.refl s, fun _ impossible => nomatch impossible⟩
      · exact ⟨below_fetched small accepted, fun _ impossible => nomatch impossible⟩
      · refine ⟨below_fetched small accepted, fun p same k less => ?_⟩
        cases same
        exact pointer.inside small less
    exact ⟨(spec.of_ok run).1, (spec.of_ok run).2 p rfl⟩
  case argstr =>
    intro n p length t run
    have spec : Ensures (argstr n) s (fun found t => ∀ p length, found = some (p, length) ->
        Below s t /\ ∀ k, k <= length -> p.toNat + k < s.sz.toNat) (fun _ _ => True) := by
      rw [argstr, ensures_bind]
      refine argint_rule ?_ fun accepted => ?_
      · rw [ensures_pure]
        exact fun _ _ impossible => nomatch impossible
      · simp only [fetchstr, ensures_bind, ensures_get]
        by_cases outside : (s.fetched n).sz <= s.argument n
        · rw [if_pos outside, ensures_pure]
          exact fun _ _ impossible => nomatch impossible
        · have below : (s.argument n).toNat < s.sz.toNat := Nat.lt_of_not_le outside
          rw [if_neg outside, ensures_bind]
          refine (fetchstrLoop_spec (s.argument n) _ 0 (s.fetched n)).mono ?_
            (fun _ _ impossible => impossible.elim)
          rintro found t ⟨touched, short⟩
          cases found with
          | none =>
            rw [ensures_pure]
            exact fun _ _ impossible => nomatch impossible
          | some found =>
            rw [ensures_pure]
            rintro p length ⟨rfl, rfl⟩
            have less := short found rfl
            rw [fetched_sz] at less touched
            refine ⟨fun e inside => ?_, fun k least => by omega⟩
            rcases touched e inside with old | ⟨k, near, rfl⟩
            · exact below_fetched small accepted e old
            · refine .inr ⟨_, rfl, ?_⟩
              rw [toNat_add_small (show (s.argument n).toNat + k < s.sz.toNat by omega)
                (Nat.le_of_lt s.sz.isLt)]
              omega
    exact spec.of_ok run p length rfl

end Soundness

end Xv6.Syscall
