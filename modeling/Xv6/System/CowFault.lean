import Xv6.System.FaultType

namespace Xv6.System

open Library Machine Memory Ownership
open Function

/-!
# What a copy-on-write fault does

`handle_cow_fault` looks at the count of the page to tell whether the process is
the last one that uses it.  The second test has its closing bracket in the wrong
place, so that it reads the count of page zero or one instead.  These pages are
never shared: every fault copies, and the last process that uses a page leaves
it behind with a count of zero.

The states here are those in which page directories, page tables, user pages and
free pages are different pages.  The counts may be anything.
-/

/-- Page directories, their tables, the user pages and the free pages are different pages. -/
structure Placed (dirs : Finset Nat) (s : Kernel) : Prop where
  dir : ∀ d, d ∈ dirs -> d ∉ s.freelist
  table : ∀ d i, d ∈ dirs -> i < 1024 -> HasFlag (s.mem d i) PTE_P = true ->
    frameOf (s.mem d i) ∉ dirs /\ frameOf (s.mem d i) ∉ s.freelist
  distinct : ∀ d d' i j, d ∈ dirs -> d' ∈ dirs -> i < 1024 -> j < 1024 ->
    HasFlag (s.mem d i) PTE_P = true ->
    HasFlag (s.mem d' j) PTE_P = true -> frameOf (s.mem d i) = frameOf (s.mem d' j) -> d = d' /\ i = j
  user : ∀ d v f, d ∈ dirs -> v < 0x80000 -> target (entry s.mem d v) = some f ->
    f ∉ dirs /\ f ∉ s.freelist /\
    ∀ d' i, d' ∈ dirs -> i < 1024 -> HasFlag (s.mem d' i) PTE_P = true -> frameOf (s.mem d' i) ≠ f
  free : ∀ g, g ∈ s.freelist -> g < 2 ^ 20

variable {g : Nat}

namespace Placed

variable {dirs : Finset Nat} {s : Kernel} {d v : Nat}

/-- A page that is no directory and no table can change. -/
theorem entry_update {m : Memory} (page : Nat -> Word) (notDir : g ∉ dirs)
    (notTable : ∀ d i, d ∈ dirs -> i < 1024 -> HasFlag (m d i) PTE_P = true -> frameOf (m d i) ≠ g)
    (member : d ∈ dirs) (bound : v < 0x100000) : entry (update m g page) d v = entry m d v := by
  have other : d ≠ g := fun same => notDir (same ▸ member)
  unfold entry
  rw [update_of_ne other]
  by_cases present : HasFlag (m d (v / 1024)) PTE_P = true
  · rw [if_pos present, if_pos present, update_of_ne (notTable d _ member (by omega) present)]
  · rw [if_neg present, if_neg present]

/-- Writing an entry changes that entry alone. -/
theorem entry_setWord (placed : Placed dirs s) (member : d ∈ dirs) (bound : v < 0x100000)
    (there : HasFlag (s.mem d (v / 1024)) PTE_P = true) (value : Word) {d' w : Nat}
    (member' : d' ∈ dirs) (inside : w < 0x100000) :
    entry (setWord s.mem (frameOf (s.mem d (v / 1024))) (v % 1024) value) d' w =
      if d' = d /\ w = v then value else entry s.mem d' w := by
  have notDir := (placed.table d _ member (show v / 1024 < 1024 by omega) there).1
  have other : d' ≠ frameOf (s.mem d (v / 1024)) := fun same => notDir (same ▸ member')
  unfold entry setWord
  rw [update_of_ne other]
  by_cases present : HasFlag (s.mem d' (w / 1024)) PTE_P = true
  · rw [if_pos present, if_pos present]
    by_cases table : frameOf (s.mem d' (w / 1024)) = frameOf (s.mem d (v / 1024))
    · rcases placed.distinct _ _ _ _ member' member (by omega) (by omega) present there
        table with ⟨rfl, slot⟩
      rw [table, update_self]
      by_cases same : w = v
      · rw [if_pos ⟨rfl, same⟩, same, update_self]
      · rw [if_neg fun both => same both.2, update_of_ne (by omega)]
    · have ne : ¬ (d' = d /\ w = v) := by
        rintro ⟨rfl, rfl⟩
        exact table rfl
      rw [if_neg ne, update_of_ne table]
  · have ne : ¬ (d' = d /\ w = v) := by
      rintro ⟨rfl, rfl⟩
      exact present there
    rw [if_neg present, if_neg present, if_neg ne]

end Placed

/-- A write to a user page that is there for reading, has a count, and can be copied. -/
structure Faulting (s : Kernel) (d addr f : Nat) : Prop where
  low : addr < KERNBASE
  page : target (entry s.mem d (addr / 4096)) = some f
  user : HasFlag (entry s.mem d (addr / 4096)) PTE_U = true
  readonly : HasFlag (entry s.mem d (addr / 4096)) PTE_W = false
  counted : s.pteArray f ≠ 0#8
  free : s.freelist ≠ []

/-- What a fault on page `v` of `d`, which is frame `f`, should do. -/
structure Resolved (dirs : Finset Nat) (d v f : Nat) (s t : Kernel) : Prop where
  present : HasFlag (entry t.mem d v) PTE_P = true
  user : HasFlag (entry t.mem d v) PTE_U = true
  writable : HasFlag (entry t.mem d v) PTE_W = true
  contents : t.mem (frameOf (entry t.mem d v)) = s.mem f
  /-- The last user of the page keeps it. -/
  last : s.pteArray f = 1#8 -> frameOf (entry t.mem d v) = f /\ t.freelist = s.freelist /\
    t.pteArray f = 0#8
  /-- Any other gets a page of its own. -/
  several : 2 <= (s.pteArray f).toNat -> frameOf (entry t.mem d v) ∈ s.freelist /\
    (∀ d' w, d' ∈ dirs -> w < 0x80000 -> target (entry t.mem d' w) = some (frameOf (entry t.mem d v)) ->
      d' = d /\ w = v) /\
    (t.pteArray f).toNat = (s.pteArray f).toNat - 1 /\ t.mem f = s.mem f /\
    ∀ d' w, d' ∈ dirs -> d' ≠ d -> w < 0x100000 -> entry t.mem d' w = entry s.mem d' w

section Branches

variable {dirs : Finset Nat} {s : Kernel} {d addr f : Nat}

/-- `handle_cow_fault` comes to an entry that is not writable, for a frame that has a count. -/
structure Walked (s : Kernel) (d addr f : Nat) : Prop where
  low : addr < KERNBASE
  table : HasFlag (s.mem d (addr / 4096 / 1024)) PTE_P = true
  frame : frameOf (entry s.mem d (addr / 4096)) = f
  readonly : HasFlag (entry s.mem d (addr / 4096)) PTE_W = false
  counted : s.pteArray f ≠ 0#8

theorem Faulting.walked (fault : Faulting s d addr f) : Walked s d addr f := by
  rcases table_of_target fault.page with ⟨table, present⟩
  exact ⟨fault.low, (target_eq_some_iff.mp present).1, (target_eq_some_iff.mp fault.page).2,
    fault.readonly, fault.counted⟩

theorem Walked.page (walked : Walked s d addr f) : addr / 4096 < 0x80000 := by
  have low := walked.low
  unfold KERNBASE at low
  omega

/-- The state after the branch that keeps the page. -/
def keeping (s : Kernel) (table index f : Nat) (pte : Word) : Kernel :=
  { s.setMem (setWord s.mem table index (pte ||| PTE_W)) with
    pteArray := update s.pteArray f (s.pteArray f - 1#8) }

/-- The state after the branch that copies the page. -/
def copied (s : Kernel) (d addr f g : Nat) (rest : List Nat) : Kernel :=
  flushed (unsharing s rest (frameOf (s.mem d (addr / 4096 / 1024))) (addr / 4096 % 1024) f g) d

variable {rest : List Nat}

section

variable (walked : Walked s d addr f)

include walked

/-- The branches of `handle_cow_fault` behind its checks. -/
theorem handleCowFault_rule {returned : Unit -> Kernel -> Prop} {stopped : Stop -> Kernel -> Prop}
    (keeps : s.pteArray (comparedIndex f) ≠ 0#8 ->
      returned () (flushed (keeping s (frameOf (s.mem d (addr / 4096 / 1024))) (addr / 4096 % 1024)
      f (entry s.mem d (addr / 4096))) d))
    (copies : ∀ g rest, s.pteArray (comparedIndex f) = 0#8 -> s.freelist = g :: rest ->
      returned () (copied s d addr f g rest))
    (panics : s.pteArray (comparedIndex f) = 0#8 -> s.freelist = [] ->
      ∀ reason t, stopped reason t) : Ensures (handleCowFault d addr) s returned stopped := by
  have low := walked.page
  rw [handleCowFault, if_neg (Nat.not_le.mpr walked.low), ensures_bind, ensures_walkpgdir (by omega),
    if_pos walked.table]
  simp only [ensures_bind, ensures_readWord]
  rw [<- entry_of_table (target_of_present walked.table), if_neg (by rw [walked.readonly]; decide)]
  simp only [ensures_bind, ensures_get]
  rw [walked.frame, if_neg walked.counted]
  by_cases zero : s.pteArray (comparedIndex f) = 0#8
  · rw [if_neg (not_not.mpr zero)]
    simp only [ensures_bind, ensures_modify]
    refine kalloc_rule (fun list => (ensures_throw ..).mpr (panics zero list _ _)) fun g rest list => ?_
    simp only [ensures_bind, ensures_get, ensures_writePage, ensures_writeWord, ensures_lcr3]
    exact copies g rest zero list
  · rw [if_pos zero]
    simp only [ensures_bind, ensures_writeWord, ensures_modify, ensures_lcr3]
    exact keeps zero

theorem handleCowFault_keeps (other : s.pteArray (comparedIndex f) ≠ 0#8) :
    handleCowFault d addr s =
      .ok () (flushed (keeping s (frameOf (s.mem d (addr / 4096 / 1024))) (addr / 4096 % 1024) f
      (entry s.mem d (addr / 4096))) d) :=
  Ensures.eq_ok (handleCowFault_rule walked (fun _ => ⟨rfl, rfl⟩) (fun _ _ zero => absurd zero other)
    fun zero => absurd zero other)

theorem handleCowFault_copies (zero : s.pteArray (comparedIndex f) = 0#8)
    (list : s.freelist = g :: rest) :
    handleCowFault d addr s = .ok () (copied s d addr f g rest) := by
  refine Ensures.eq_ok (handleCowFault_rule walked (fun other => absurd zero other)
    (fun g' rest' _ same => ?_) fun _ none => nomatch list.symm.trans none)
  cases list.symm.trans same
  exact ⟨rfl, rfl⟩

end

theorem hasFlag_copyEntry (g : Nat) :
    HasFlag (copyEntry g) PTE_P = true /\ HasFlag (copyEntry g) PTE_U = true /\
    HasFlag (copyEntry g) PTE_W = true := by
  simp [copyEntry, hasFlag_or]

/-- The entry that the branch which keeps the page leaves. -/
theorem entry_keeping (placed : Placed dirs s) (member : d ∈ dirs) (walked : Walked s d addr f) :
    entry (flushed (keeping s (frameOf (s.mem d (addr / 4096 / 1024))) (addr / 4096 % 1024) f
      (entry s.mem d (addr / 4096))) d).mem d (addr / 4096) =
        entry s.mem d (addr / 4096) ||| PTE_W := by
  have low := walked.page
  have changed := placed.entry_setWord member (v := addr / 4096) (by omega) walked.table
    (entry s.mem d (addr / 4096) ||| PTE_W) member (w := addr / 4096) (by omega)
  rw [if_pos ⟨rfl, rfl⟩] at changed
  exact changed

/-- The entries after the copy. -/
theorem entry_unsharing (placed : Placed dirs s) (member : d ∈ dirs) (walked : Walked s d addr f)
    (list : s.freelist = g :: rest) {d' w : Nat} (member' : d' ∈ dirs) (inside : w < 0x100000) :
    entry (copied s d addr f g rest).mem d' w =
      if d' = d /\ w = addr / 4096 then copyEntry g else entry s.mem d' w := by
  have low := walked.page
  have first : g ∈ s.freelist := by
    rw [list]
    exact List.mem_cons_self
  have notDir : g ∉ dirs := fun same => placed.dir g same first
  have notTable : ∀ d i, d ∈ dirs -> i < 1024 -> HasFlag (s.mem d i) PTE_P = true ->
      frameOf (s.mem d i) ≠ g :=
    fun d i inside bound there same => (placed.table d i inside bound there).2 (same ▸ first)
  have tableNotDir := (placed.table d _ member (show addr / 4096 / 1024 < 1024 by omega) walked.table).1
  have tableOther := notTable d _ member (show addr / 4096 / 1024 < 1024 by omega) walked.table
  have commuted : (copied s d addr f g rest).mem = update (setWord s.mem
      (frameOf (s.mem d (addr / 4096 / 1024))) (addr / 4096 % 1024) (copyEntry g)) g (s.mem f) := by
    change setWord (update s.mem g (s.mem f)) _ _ _ = _
    unfold setWord
    rw [update_of_ne tableOther, update_comm tableOther]
  have dirsSame : ∀ d', d' ∈ dirs ->
      setWord s.mem (frameOf (s.mem d (addr / 4096 / 1024))) (addr / 4096 % 1024)
      (copyEntry g) d' = s.mem d' :=
    fun d' member' => update_of_ne
      (fun same : d' = frameOf (s.mem d (addr / 4096 / 1024)) => tableNotDir (same ▸ member')) _ _
  have still : ∀ d' i, d' ∈ dirs -> i < 1024 ->
      HasFlag (setWord s.mem (frameOf (s.mem d (addr / 4096 / 1024)))
      (addr / 4096 % 1024) (copyEntry g) d' i) PTE_P = true ->
      frameOf (setWord s.mem (frameOf (s.mem d (addr / 4096 / 1024))) (addr / 4096 % 1024)
        (copyEntry g) d' i) ≠ g := by
    intro d' i member' bound there'
    rw [dirsSame d' member'] at there' ⊢
    exact notTable d' i member' bound there'
  rw [commuted, Placed.entry_update _ notDir still member' inside]
  exact placed.entry_setWord member (by omega) walked.table _ member' inside

/-- The branch that keeps the page is right for the last user of it. -/
theorem keeping_resolved (placed : Placed dirs s) (member : d ∈ dirs) (fault : Faulting s d addr f)
    (one : s.pteArray f = 1#8) : Resolved dirs d (addr / 4096) f s
      (flushed (keeping s (frameOf (s.mem d (addr / 4096 / 1024))) (addr / 4096 % 1024) f
        (entry s.mem d (addr / 4096))) d) := by
  have low := fault.walked.page
  have now := entry_keeping placed member fault.walked
  rcases target_eq_some_iff.mp fault.page with ⟨present, frame⟩
  have apart := (placed.user d _ f member low fault.page).2.2 d _ member
    (show addr / 4096 / 1024 < 1024 by omega) fault.walked.table
  have same : frameOf (entry s.mem d (addr / 4096) ||| PTE_W) = f := by
    rw [frameOf_or _ (by decide), frame]
  constructor
  case present =>
    rw [now, hasFlag_or, present]
    rfl
  case user =>
    rw [now, hasFlag_or, fault.user]
    rfl
  case writable =>
    rw [now, hasFlag_or]
    simp
  case contents =>
    rw [now, same]
    exact update_of_ne apart.symm _ _
  case last =>
    intro _
    rw [now, same]
    refine ⟨rfl, rfl, ?_⟩
    change update s.pteArray f (s.pteArray f - 1#8) f = 0#8
    rw [update_self, one]
    decide
  case several =>
    intro many
    rw [one] at many
    exact absurd many (by decide)

/-- The branch that copies is right when there are other users. -/
theorem copying_resolved (placed : Placed dirs s) (member : d ∈ dirs) (fault : Faulting s d addr f)
    (list : s.freelist = g :: rest) (many : 2 <= (s.pteArray f).toNat) :
    Resolved dirs d (addr / 4096) f s (copied s d addr f g rest) := by
  have low := fault.walked.page
  have first : g ∈ s.freelist := by
    rw [list]
    exact List.mem_cons_self
  have entries : ∀ {d' w}, d' ∈ dirs -> w < 0x100000 -> _ :=
    fun member' inside => entry_unsharing placed member fault.walked list member' inside
  have now := entries member (show addr / 4096 < 0x100000 by omega)
  rw [if_pos ⟨rfl, rfl⟩] at now
  have page : frameOf (copyEntry g) = g :=
    (target_eq_some_iff.mp (target_copyEntry (placed.free g first))).2
  rcases hasFlag_copyEntry g with ⟨present, user, writable⟩
  have there := fault.walked.table
  have kept := placed.user d _ f member low fault.page
  have apart := kept.2.2 d _ member (show addr / 4096 / 1024 < 1024 by omega) there
  have tableOther : frameOf (s.mem d (addr / 4096 / 1024)) ≠ g :=
    fun same => (placed.table d _ member (show addr / 4096 / 1024 < 1024 by omega) there).2 (same ▸ first)
  have ne : f ≠ g := fun same => kept.2.1 (same ▸ first)
  constructor
  case present => rw [now, present]
  case user => rw [now, user]
  case writable => rw [now, writable]
  case contents =>
    rw [now, page]
    change setWord (update s.mem g (s.mem f)) _ _ _ g = s.mem f
    unfold setWord
    rw [update_of_ne tableOther.symm, update_self]
  case last =>
    intro one
    rw [one] at many
    exact absurd many (by decide)
  case several =>
    intro _
    rw [now, page]
    refine ⟨first, ?_, ?_, ?_, ?_⟩
    · intro d' w member' inside mapped
      rw [entries member' (by omega)] at mapped
      by_contra other
      rw [if_neg other] at mapped
      exact (placed.user d' w g member' inside mapped).2.1 first
    · change (update s.pteArray f (s.pteArray f - 1#8) f).toNat = _
      rw [update_self]
      exact toNat_pred fault.counted
    · change setWord (update s.mem g (s.mem f)) _ _ _ f = s.mem f
      unfold setWord
      rw [update_of_ne apart.symm, update_of_ne ne]
    · intro d' w member' other inside
      rw [entries member' inside, if_neg fun both => other both.1]

/-- A fault is resolved exactly when the count that the second test reads tells what the count of
the page does. -/
theorem handle_cow_fault_iff (placed : Placed dirs s) (member : d ∈ dirs)
    (fault : Faulting s d addr f) :
    (∃ t, handleCowFault d addr s = .ok () t /\ Resolved dirs d (addr / 4096) f s t) <->
      (s.pteArray f = 1#8 <-> s.pteArray (comparedIndex f) ≠ 0#8) := by
  rcases List.exists_cons_of_ne_nil fault.free with ⟨g, rest, list⟩
  have low := fault.walked.page
  have first : g ∈ s.freelist := by
    rw [list]
    exact List.mem_cons_self
  have used := (placed.user d _ f member low fault.page).2.1
  have many : s.pteArray f ≠ 1#8 -> 2 <= (s.pteArray f).toNat := by
    intro other
    by_contra small
    have zero : (s.pteArray f).toNat ≠ 0 := fun none => fault.counted (BitVec.eq_of_toNat_eq none)
    exact other (BitVec.eq_of_toNat_eq (show (s.pteArray f).toNat = 1 by omega))
  by_cases zero : s.pteArray (comparedIndex f) = 0#8
  · have run := handleCowFault_copies fault.walked zero list
    have now := entry_unsharing placed member fault.walked list member
        (show addr / 4096 < 0x100000 by omega)
    rw [if_pos ⟨rfl, rfl⟩] at now
    have page : frameOf (copyEntry g) = g :=
      (target_eq_some_iff.mp (target_copyEntry (placed.free g first))).2
    constructor
    · rintro ⟨t, run', resolved⟩
      rw [run] at run'
      cases run'
      refine ⟨fun one => ?_, fun other => absurd zero other⟩
      -- the page was copied for its last user
      have kept := (resolved.last one).1
      rw [now, page] at kept
      exact absurd first (kept ▸ used)
    · intro same
      refine ⟨_, run, copying_resolved placed member fault list (many fun one => same.mp one zero)⟩
  · have run := handleCowFault_keeps fault.walked zero
    have now := entry_keeping placed member fault.walked
    have page : frameOf (entry s.mem d (addr / 4096) ||| PTE_W) = f := by
      rw [frameOf_or _ (by decide), (target_eq_some_iff.mp fault.page).2]
    constructor
    · rintro ⟨t, run', resolved⟩
      rw [run] at run'
      cases run'
      refine ⟨fun _ => zero, fun _ => ?_⟩
      by_contra other
      -- the page is still shared
      have fresh := (resolved.several (many other)).1
      rw [now, page] at fresh
      exact used fresh
    · intro same
      exact ⟨_, run, keeping_resolved placed member fault (same.mpr zero)⟩

end Branches

/-! ## One page with one free page -/

/-- Frame 1 is the directory, frame 2 its table, and page 1 is frame 3, for reading.  On the stack
in that page are the arguments of `read(0, 0x1000, 2)`. -/
def sharedMemory : Memory := fun frame index =>
  if frame = 1 /\ index = 0 then 0x2007#32 else if frame = 2 /\ index = 1 then 0x3005#32
  else if frame = 3 /\ index = 514 then 0x1000#32 else if frame = 3 /\ index = 515 then 2#32 else 0#32

def sharedPage (count : BitVec 8) : Kernel :=
  { onePage with mem := sharedMemory, freelist := [4], pteArray := fun f => if f = 3 then count else 0#8 }

theorem sharedMemory_dir {i : Nat} (present : HasFlag (sharedMemory 1 i) PTE_P = true) : i = 0 := by
  by_contra other
  have zero : sharedMemory 1 i = 0#32 := by simp [sharedMemory, other]
  rw [zero, hasFlag_zero] at present
  cases present

theorem sharedMemory_entry {v f : Nat}
    (mapped : target (entry sharedMemory 1 v) = some f) : v = 1 /\ f = 3 := by
  rcases table_of_target mapped with ⟨table, found⟩
  rcases target_eq_some_iff.mp found with ⟨there, frame⟩
  have first := sharedMemory_dir there
  have second : table = 2 := by
    rw [<- frame, first]
    decide
  rw [entry_of_table found, second] at mapped
  have index : v % 1024 = 1 := by
    by_contra other
    have zero : sharedMemory 2 (v % 1024) = 0#32 := by simp [sharedMemory, other]
    rw [zero, target_zero] at mapped
    cases mapped
  rw [index] at mapped
  have page : target (sharedMemory 2 1) = some 3 := by decide
  rw [page] at mapped
  exact ⟨by omega, (Option.some.inj mapped).symm⟩

theorem sharedPage_placed (count : BitVec 8) : Placed {1} (sharedPage count) := by
  have one : ∀ {d}, d ∈ ({1} : Finset Nat) -> d = 1 := fun member => Finset.mem_singleton.mp member
  constructor
  case dir =>
    intro d member
    rw [one member]
    exact show 1 ∉ [4] by decide
  case table =>
    intro d i member _ present
    rw [one member] at present ⊢
    rw [sharedMemory_dir present]
    exact show frameOf (sharedMemory 1 0) ∉ ({1} : Finset Nat) /\
      frameOf (sharedMemory 1 0) ∉ [4] by decide
  case distinct =>
    intro d d' i j member member' _ _ present present' _
    rw [one member] at present ⊢
    rw [one member'] at present' ⊢
    exact ⟨rfl, (sharedMemory_dir present).trans (sharedMemory_dir present').symm⟩
  case user =>
    intro d v f member _ mapped
    rw [one member] at mapped
    rw [(sharedMemory_entry mapped).2]
    refine ⟨by decide, show 3 ∉ [4] by decide, ?_⟩
    intro d' i member' _ present
    rw [one member'] at present ⊢
    rw [sharedMemory_dir present]
    exact show frameOf (sharedMemory 1 0) ≠ 3 by decide
  case free =>
    intro g listed
    rw [List.mem_singleton.mp listed]
    decide

theorem sharedPage_faulting {count : BitVec 8} (counted : count ≠ 0#8) :
    Faulting (sharedPage count) 1 0x1000 3 where
  low := by decide
  page := show target (entry sharedMemory 1 1) = some 3 by decide
  user := show HasFlag (entry sharedMemory 1 1) PTE_U = true by decide
  readonly := show HasFlag (entry sharedMemory 1 1) PTE_W = false by decide
  counted := counted
  free := List.cons_ne_nil _ _

/-- The page of two processes is copied for the one that writes. -/
theorem handle_cow_fault_two : ∃ t,
    handleCowFault 1 0x1000 (sharedPage 2#8) = .ok () t /\ Resolved {1} 1 1 3 (sharedPage 2#8) t :=
  (handle_cow_fault_iff (sharedPage_placed 2#8) (Finset.mem_singleton_self 1)
    (sharedPage_faulting (by decide))).mpr (by decide)

/-- The last process that uses a page gets a copy of it all the same. -/
theorem handle_cow_fault_last :
    Placed {1} (sharedPage 1#8) /\ Faulting (sharedPage 1#8) 1 0x1000 3 /\ ∃ t,
    handleCowFault 1 0x1000 (sharedPage 1#8) = .ok () t /\ frameOf (entry t.mem 1 1) = 4 /\
      t.freelist = [] /\ t.pteArray 3 = 0#8 /\ ¬ Resolved {1} 1 1 3 (sharedPage 1#8) t := by
  refine ⟨sharedPage_placed 1#8, sharedPage_faulting (by decide), _,
    rfl, by decide +kernel, rfl, by decide, ?_⟩
  intro resolved
  have kept := (resolved.last (by decide)).2.1
  cases kept

end Xv6.System
