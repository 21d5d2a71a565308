import Xv6.System.Copyuvm

namespace Xv6.System

open Library Machine Memory Ownership
open Function

/-!
# What `deallocuvm` unmaps

The loop goes from page to page.  Where a page table is missing it goes on 4 MB later, not at
the next page table: if the first page is not the first one of its page table, the loop
enters the next page table that exists in the middle.  A page that is visited is unmapped if
its count is below two.  If it is shared, its count is reduced and the page stays mapped.
-/

/-! ## Visited pages -/

/-- From page `a` on, page `v` is left out: all page tables from that of `a` to the one before that
of `v` are missing, and `v` is nearer to the start of its page table. -/
def Skipped (m : Memory) (d a v : Nat) : Prop :=
  a / 1024 < v / 1024 /\ v % 1024 < a % 1024 /\ ∀ i, a / 1024 <= i -> i < v / 1024 ->
    target (m d i) = none

/-- The pages before `hi` that a loop from page `a` on finds mapped. -/
def Visited (m : Memory) (d hi a v : Nat) : Prop :=
  a <= v /\ v < hi /\ target (entry m d v) ≠ none /\ ¬ Skipped m d a v

section Visits

variable {m : Memory} {d hi a v : Nat}

theorem visited_end (last : hi <= a) : ¬ Visited m d hi a v := by
  rintro ⟨low, high, _⟩
  omega

/-- A page table is missing. -/
theorem visited_missing (missing : target (m d (a / 1024)) = none) :
    Visited m d hi (a + 1024) v <-> Visited m d hi a v := by
  have next : (a + 1024) / 1024 = a / 1024 + 1 := by omega
  have place : (a + 1024) % 1024 = a % 1024 := by omega
  unfold Visited Skipped
  rw [next, place]
  constructor
  · rintro ⟨low, high, there, skipped⟩
    refine ⟨by omega, high, there, ?_⟩
    rintro ⟨later, early, none⟩
    exact skipped ⟨by omega, early, fun i above below => none i (by omega) below⟩
  · rintro ⟨low, high, there, skipped⟩
    have other : v / 1024 ≠ a / 1024 := by
      intro same
      rw [entry_of_none (by rw [same]; exact missing), target_zero] at there
      exact there rfl
    have far : a + 1024 <= v := by
      by_contra near
      refine skipped ⟨by omega, by omega, fun i above below => ?_⟩
      rw [show i = a / 1024 by omega]
      exact missing
    refine ⟨far, high, there, ?_⟩
    rintro ⟨later, early, none⟩
    refine skipped ⟨by omega, early, fun i above below => ?_⟩
    by_cases first : i = a / 1024
    · rw [first]
      exact missing
    · exact none i (by omega) below

/-- A page table exists. -/
theorem visited_present (present : target (m d (a / 1024)) ≠ none) :
    Visited m d hi a v <->
    (v = a /\ a < hi /\ target (entry m d a) ≠ none) ∨ Visited m d hi (a + 1) v := by
  have here : ¬ Skipped m d a v := fun skipped => present (skipped.2.2 _ (Nat.le_refl _) skipped.1)
  have there : ¬ Skipped m d (a + 1) v := by
    rintro ⟨later, early, none⟩
    by_cases aligned : (a + 1) % 1024 = 0
    · omega
    · exact present (none _ (by omega) (by omega))
  unfold Visited
  constructor
  · rintro ⟨low, high, mapped, _⟩
    by_cases same : v = a
    · rw [same] at high mapped
      exact .inl ⟨same, high, mapped⟩
    · exact .inr ⟨by omega, high, mapped, there⟩
  · rintro (⟨rfl, high, mapped⟩ | ⟨low, high, mapped, _⟩)
    · exact ⟨Nat.le_refl v, high, mapped, here⟩
    · exact ⟨by omega, high, mapped, here⟩

end Visits

/-! ## What a run of the loop does -/

/-- The entry of a visited page afterwards. -/
def spent (count : BitVec 8) (e : Word) : Word :=
  if count.toInt < 2 then 0#32 else if count.toInt = 2 then e ||| PTE_W else e

variable {count : BitVec 8} {e : Word}

theorem spent_few (few : count.toInt < 2) : spent count e = 0#32 := if_pos few

theorem spent_two (two : count.toInt = 2) : spent count e = e ||| PTE_W := by
  rw [spent, if_neg (by omega), if_pos two]

theorem spent_more (more : 2 < count.toInt) : spent count e = e := by
  rw [spent, if_neg (by omega), if_neg (by omega)]

/-- A shared page stays mapped. -/
theorem target_spent (many : 2 <= count.toInt) : target (spent count e) = target e := by
  by_cases two : count.toInt = 2
  · have flag : HasFlag (e ||| PTE_W) PTE_P = HasFlag e PTE_P := by
      rw [hasFlag_or]
      cases HasFlag e PTE_P <;> rfl
    rw [spent_two two, target, target, flag, frameOf_or e (by decide)]
  · rw [spent_more (by omega)]

/-- The pages in `visited` have been given up, and nothing else has changed. -/
structure Swept (d : Nat) (visited : Nat -> Prop) (s t : Kernel) : Prop where
  directory : t.mem d = s.mem d
  inside : ∀ v f, visited v -> target (entry s.mem d v) = some f ->
    entry t.mem d v = spent (s.pteArray f) (entry s.mem d v)
  outside : ∀ v, v < 0x100000 -> ¬ visited v -> entry t.mem d v = entry s.mem d v
  freed : ∀ v f, visited v -> target (entry s.mem d v) = some f -> (s.pteArray f).toInt < 2 ->
    t.freelist.count f = s.freelist.count f + 1
  kept : ∀ f, (∀ v, visited v -> target (entry s.mem d v) = some f -> 2 <= (s.pteArray f).toInt) ->
    t.freelist.count f = s.freelist.count f
  shared : ∀ v f, visited v -> target (entry s.mem d v) = some f -> 2 <= (s.pteArray f).toInt ->
    t.pteArray f = s.pteArray f - 1#8
  counts : ∀ f, (∀ v, visited v -> target (entry s.mem d v) ≠ some f) -> t.pteArray f = s.pteArray f

namespace Swept

variable {d : Nat} {A B : Nat -> Prop} {s t u : Kernel}

theorem refl (d : Nat) (s : Kernel) : Swept d (fun _ => False) s s where
  directory := rfl
  inside _ _ impossible := impossible.elim
  outside _ _ _ := rfl
  freed _ _ impossible := impossible.elim
  kept _ _ := rfl
  shared _ _ impossible := impossible.elim
  counts _ _ := rfl

theorem congr (swept : Swept d A s t) (same : ∀ v, A v <-> B v) : Swept d B s t := by
  have equal : A = B := funext fun v => propext (same v)
  rw [<- equal]
  exact swept

/-- First some pages, and then others. -/
theorem trans (one : Swept d A s t) (two : Swept d B t u) (apart : ∀ v, A v -> ¬ B v)
    (low : ∀ v, A v ∨ B v -> v < 0x80000)
    (distinct : ∀ v w f, v < 0x80000 -> w < 0x80000 -> target (entry s.mem d v) = some f ->
      target (entry s.mem d w) = some f -> v = w) : Swept d (fun v => A v ∨ B v) s u := by
  have early : ∀ {v}, B v -> entry t.mem d v = entry s.mem d v := by
    intro v inside
    have small := low v (.inr inside)
    exact one.outside v (by omega) fun first => apart v first inside
  have late : ∀ {v}, A v -> entry u.mem d v = entry t.mem d v := by
    intro v inside
    have small := low v (.inl inside)
    exact two.outside v (by omega) (apart v inside)
  -- No page of one set has the frame of a page of the other.
  have clash : ∀ {v w f}, A v -> B w -> target (entry s.mem d v) = some f ->
      target (entry s.mem d w) ≠ some f := by
    intro v w f first second here there
    have same := distinct v w f (low v (.inl first)) (low w (.inr second)) here there
    subst same
    exact apart v first second
  have count : ∀ {w f}, B w -> target (entry s.mem d w) = some f -> t.pteArray f = s.pteArray f := by
    intro w f second there
    exact one.counts f fun v first here => clash first second here there
  constructor
  case directory => exact two.directory.trans one.directory
  case inside =>
    rintro v f (first | second) found
    · rw [late first]
      exact one.inside v f first found
    · rw [two.inside v f second (by rw [early second]; exact found), early second, count second found]
  case outside =>
    intro v small neither
    rw [two.outside v small fun second => neither (.inr second),
      one.outside v small fun first => neither (.inl first)]
  case freed =>
    rintro v f (first | second) found few
    · rw [two.kept f, one.freed v f first found few]
      intro w second there
      rw [early second] at there
      exact absurd there (clash first second found)
    · rw [two.freed v f second (by rw [early second]; exact found)
        (by rw [count second found]; exact few), one.kept f]
      intro w first here
      exact absurd found (clash first second here)
  case kept =>
    intro f many
    rw [two.kept f, one.kept f fun v first => many v (.inl first)]
    intro w second there
    rw [early second] at there
    rw [count second there]
    exact many w (.inr second) there
  case shared =>
    rintro v f (first | second) found many
    · rw [two.counts f, one.shared v f first found many]
      intro w second there
      rw [early second] at there
      exact absurd there (clash first second found)
    · rw [two.shared v f second (by rw [early second]; exact found)
        (by rw [count second found]; exact many), count second found]
  case counts =>
    intro f none
    rw [two.counts f, one.counts f fun v first => none v (.inl first)]
    intro w second there
    rw [early second] at there
    exact none w (.inr second) there

end Swept

/-! ## One page -/

/-- Page `w`, which has the frame `f`, has been given up. -/
structure Given (d w f : Nat) (s t : Kernel) : Prop where
  directory : t.mem d = s.mem d
  entries : ∀ v, v < 0x100000 -> entry t.mem d v =
    if v = w then spent (s.pteArray f) (entry s.mem d w) else entry s.mem d v
  list : t.freelist = if (s.pteArray f).toInt < 2 then f :: s.freelist else s.freelist
  counts : t.pteArray =
    if (s.pteArray f).toInt < 2 then s.pteArray else update s.pteArray f (s.pteArray f - 1#8)

namespace Given

variable {d w f : Nat} {s t : Kernel}

theorem entry_here (given : Given d w f s t) (bound : w < 0x80000) :
    entry t.mem d w = spent (s.pteArray f) (entry s.mem d w) := by
  rw [given.entries w (by omega), if_pos rfl]

theorem entry_other (given : Given d w f s t) {v : Nat} (bound : v < 0x100000) (other : v ≠ w) :
    entry t.mem d v = entry s.mem d v := by
  rw [given.entries v bound, if_neg other]

theorem swept (given : Given d w f s t) (bound : w < 0x80000)
    (found : target (entry s.mem d w) = some f) : Swept d (fun v => v = w) s t := by
  have only : ∀ {v g}, v = w -> target (entry s.mem d v) = some g -> g = f := by
    rintro v g rfl here
    exact Option.some.inj (here.symm.trans found)
  constructor
  case directory => exact given.directory
  case inside =>
    intro v g here there
    rw [only here there, here]
    exact given.entry_here bound
  case outside => exact fun v small other => given.entry_other small other
  case freed =>
    intro v g here there few
    rw [only here there] at few ⊢
    rw [given.list, if_pos few, List.count_cons_self]
  case kept =>
    intro g many
    rw [given.list]
    by_cases few : (s.pteArray f).toInt < 2
    · have other : f ≠ g := by
        rintro rfl
        have two := many w rfl found
        omega
      rw [if_pos few, List.count_cons_of_ne other]
    · rw [if_neg few]
  case shared =>
    intro v g here there many
    rw [only here there] at many ⊢
    rw [given.counts, if_neg (by omega), update_self]
  case counts =>
    intro g none
    rw [given.counts]
    by_cases few : (s.pteArray f).toInt < 2
    · rw [if_pos few]
    · rw [if_neg few, update_of_ne]
      rintro rfl
      exact none w rfl found

/-- Pages that are visited after page `w` has been given up were to be visited before. -/
theorem visited {hi v : Nat} (given : Given d w f s t) (high : hi <= 0x80000) :
    Visited t.mem d hi (w + 1) v <-> Visited s.mem d hi (w + 1) v := by
  have same : w + 1 <= v -> v < hi -> entry t.mem d v = entry s.mem d v :=
    fun after before => given.entry_other (by omega) (by omega)
  unfold Visited Skipped
  rw [given.directory]
  constructor
  · rintro ⟨after, before, mapped, reached⟩
    rw [same after before] at mapped
    exact ⟨after, before, mapped, reached⟩
  · rintro ⟨after, before, mapped, reached⟩
    rw [<- same after before] at mapped
    exact ⟨after, before, mapped, reached⟩

end Given

section Release

variable [L : Layout]

/-- The page table of `d` and its user pages are frames of their own, and none of the pages is
free. -/
structure Space (s : Kernel) (d : Nat) : Prop where
  table : ∀ i f, i < 1024 -> target (s.mem d i) = some f -> f ≠ d
  sole : ∀ i j f, i < 1024 -> j < 1024 -> target (s.mem d i) = some f ->
    target (s.mem d j) = some f -> i = j
  page : ∀ v f, v < 0x80000 -> target (entry s.mem d v) = some f ->
    Allocatable f /\ f ∉ s.freelist /\ f ≠ d
  notTable : ∀ v f i, v < 0x80000 -> target (entry s.mem d v) = some f -> i < 1024 ->
    target (s.mem d i) ≠ some f
  distinct : ∀ v w f, v < 0x80000 -> w < 0x80000 -> target (entry s.mem d v) = some f ->
    target (entry s.mem d w) = some f -> v = w

namespace Given

variable {d w f : Nat} {s t : Kernel}

/-- What is mapped afterwards was mapped before, and is not free. -/
theorem still (given : Given d w f s t) (space : Space s d) (bound : w < 0x80000)
    (found : target (entry s.mem d w) = some f) {v g : Nat} (low : v < 0x80000)
    (there : target (entry t.mem d v) = some g) :
    target (entry s.mem d v) = some g /\ g ∉ t.freelist := by
  rw [given.list]
  by_cases same : v = w
  · subst same
    rw [given.entry_here bound] at there
    by_cases few : (s.pteArray f).toInt < 2
    · rw [spent_few few, target_zero] at there
      cases there
    · rw [target_spent (by omega)] at there
      rw [if_neg few]
      exact ⟨there, (space.page v g bound there).2.1⟩
  · rw [given.entry_other (by omega) same] at there
    refine ⟨there, ?_⟩
    have absent := (space.page v g low there).2.1
    by_cases few : (s.pteArray f).toInt < 2
    · rw [if_pos few]
      intro listed
      cases List.mem_cons.mp listed with
      | inl equal =>
        rw [equal] at there
        exact same (space.distinct v w f low bound there found)
      | inr old => exact absent old
    · rw [if_neg few]
      exact absent

theorem space (given : Given d w f s t) (space : Space s d) (bound : w < 0x80000)
    (found : target (entry s.mem d w) = some f) : Space t d := by
  constructor
  case table =>
    rw [given.directory]
    exact space.table
  case sole =>
    rw [given.directory]
    exact space.sole
  case page =>
    intro v g low there
    rcases given.still space bound found low there with ⟨before, absent⟩
    rcases space.page v g low before with ⟨allocatable, _, notDir⟩
    exact ⟨allocatable, absent, notDir⟩
  case notTable =>
    intro v g i low there index
    rw [given.directory]
    exact space.notTable v g i low (given.still space bound found low there).1 index
  case distinct =>
    intro v v' g low low' here there
    exact space.distinct v v' g low low' (given.still space bound found low here).1
      (given.still space bound found low' there).1

end Given

namespace Space

variable {d w f table : Nat} {s : Kernel}

/-- A page that is not shared is freed, and its entry is cleared. -/
theorem give_few (space : Space s d) (bound : w < 0x80000)
    (present : target (s.mem d (w / 1024)) = some table) (found : target (entry s.mem d w) = some f)
    (few : (s.pteArray f).toInt < 2) :
    Given d w f s ((freed s f).setMem (setWord (freed s f).mem table (w % 1024) 0#32)) := by
  have notTable := fun {i} => space.notTable w f i bound found
  have directory : (freed s f).mem d = s.mem d :=
    update_of_ne (Ne.symm (space.page w f bound found).2.2) ..
  have notDir : table ≠ d := space.table (w / 1024) table (by omega) present
  constructor
  case directory => exact (setWord_other (Ne.symm notDir)).trans directory
  case entries =>
    intro v small
    have before : entry (freed s f).mem d v = entry s.mem d v := by
      refine entry_elsewhere directory fun t tabled => update_of_ne ?_ ..
      rintro rfl
      exact notTable (by omega) tabled
    rw [spent_few few, <- before]
    refine entry_setWord 0#32 (by rw [directory]; exact present) notDir fun tabled => ?_
    rw [directory] at tabled
    exact space.sole _ _ table (by omega) (by omega) tabled present
  case list => rw [if_pos few]; rfl
  case counts => rw [if_pos few]; rfl

/-- A page with two references is made writable, and has one. -/
theorem give_two (space : Space s d) (bound : w < 0x80000)
    (present : target (s.mem d (w / 1024)) = some table) (two : (s.pteArray f).toInt = 2) :
    Given d w f s { s.setMem (setWord s.mem table (w % 1024) (entry s.mem d w ||| PTE_W)) with
      pteArray := update s.pteArray f 1#8 } := by
  have notDir : table ≠ d := space.table (w / 1024) table (by omega) present
  have count : s.pteArray f = 2#8 := BitVec.eq_of_toInt_eq two
  constructor
  case directory => exact setWord_other (Ne.symm notDir)
  case entries =>
    intro v small
    rw [spent_two two]
    exact entry_setWord _ present notDir fun tabled =>
      space.sole _ _ table (by omega) (by omega) tabled present
  case list => rw [if_neg (by omega)]; rfl
  case counts => rw [if_neg (by omega), count]; rfl

omit L in
theorem give_many (s : Kernel) (d w f : Nat) (more : 2 < (s.pteArray f).toInt) :
    Given d w f s { s with pteArray := update s.pteArray f (s.pteArray f - 1#8) } where
  directory := rfl
  entries v _ := by
    rw [spent_more more]
    by_cases same : v = w
    · rw [if_pos same, same]
    · rw [if_neg same]
  list := by rw [if_neg (by omega)]
  counts := by rw [if_neg (by omega)]

end Space

/-! ## The loop -/

/-- The loop of `deallocuvm`, by induction on the pages left. -/
theorem deallocuvmLoop_swept {d oldsz : Nat} (bound : oldsz <= KERNBASE) (n : Nat) :
    ∀ (w : Nat) (s : Kernel), oldsz <= (w + n) * 4096 -> Space s d ->
    Ensures (deallocuvmLoop d oldsz (w * 4096)) s
      (fun _ t => Swept d (Visited s.mem d ((oldsz + 4095) / 4096) w) s t) (fun _ _ => False) := by
  have high : (oldsz + 4095) / 4096 <= 0x80000 := by
    unfold KERNBASE at bound
    omega
  have done : ∀ (w : Nat) (s : Kernel), ¬ w * 4096 < oldsz ->
      Ensures (deallocuvmLoop d oldsz (w * 4096)) s
      (fun _ t => Swept d (Visited s.mem d ((oldsz + 4095) / 4096) w) s t) (fun _ _ => False) := by
    intro w s outside
    rw [deallocuvmLoop, dif_neg outside, ensures_pure]
    exact (Swept.refl d s).congr fun v => (iff_false_intro (visited_end (by omega))).symm
  induction n with
  | zero =>
    intro w s short _
    exact done w s (by omega)
  | succ n ih =>
    intro w s short space
    by_cases inside : w * 4096 < oldsz
    · have low : w < 0x80000 := by
        unfold KERNBASE at bound
        omega
      have index : w * 4096 / 4096 = w := Nat.mul_div_cancel w (by decide)
      have onward : w * 4096 + PGSIZE = (w + 1) * 4096 := by
        unfold PGSIZE
        omega
      have shorter : oldsz <= (w + 1 + n) * 4096 := by
        rw [Nat.add_right_comm, Nat.add_assoc]
        exact short
      -- The rest of the loop, after page `w` has been given up.
      have next : ∀ {f : Nat} {t : Kernel}, target (s.mem d (w / 1024)) ≠ none ->
          target (entry s.mem d w) = some f -> Given d w f s t ->
          Ensures (deallocuvmLoop d oldsz (w * 4096 + PGSIZE)) t
            (fun _ u => Swept d (Visited s.mem d ((oldsz + 4095) / 4096) w) s u) (fun _ _ => False) := by
        intro f t present found given
        rw [onward]
        refine (ih (w + 1) t shorter (given.space space low found)).imp ?_
        intro _ u rest
        have later := rest.congr fun v => given.visited high
        refine ((given.swept low found).trans later ?_ ?_ space.distinct).congr fun v => ?_
        · rintro v rfl ⟨after, _⟩
          omega
        · rintro v (rfl | ⟨_, before, _⟩)
          · exact low
          · omega
        · rw [visited_present present]
          refine or_congr_left ⟨fun here => ⟨here, by omega, ?_⟩, And.left⟩
          rw [found]
          exact Option.some_ne_none f
      rw [deallocuvmLoop, dif_pos inside, ensures_bind, ensures_walkpgdir (by omega), index]
      cases tabled : target (s.mem d (w / 1024)) with
      | none =>
        have table : (NPTENTRIES - 1) * PGSIZE + PGSIZE = 1024 * 4096 := by decide
        have far : w * 4096 + (NPTENTRIES - 1) * PGSIZE + PGSIZE = (w + 1024) * 4096 := by
          rw [Nat.add_assoc, table, Nat.add_mul]
        have less : w + 1 + n <= w + 1024 + n :=
          Nat.add_le_add_right (Nat.add_le_add_left (by decide) w) n
        rw [if_neg (by rw [target_eq_none_iff.mp tabled]; exact Bool.false_ne_true), far]
        have farther := Nat.le_trans shorter (Nat.mul_le_mul_right 4096 less)
        refine (ih (w + 1024) s farther space).imp ?_
        exact fun _ t swept => swept.congr fun v => visited_missing tabled
      | some table =>
        rcases target_eq_some_iff.mp tabled with ⟨flag, rfl⟩
        have word : s.mem (frameOf (s.mem d (w / 1024))) (w % 1024) = entry s.mem d w :=
          (entry_of_table tabled).symm
        have present : target (s.mem d (w / 1024)) ≠ none := by
          rw [tabled]
          exact Option.some_ne_none _
        rw [if_pos flag]
        simp only [ensures_bind, ensures_readWord, word]
        cases found : target (entry s.mem d w) with
        | none =>
          rw [if_neg (by rw [target_eq_none_iff.mp found]; exact Bool.false_ne_true), onward]
          refine (ih (w + 1) s shorter space).imp ?_
          refine fun _ t swept => swept.congr fun v => ?_
          rw [visited_present present]
          exact (or_iff_right fun here => here.2.2 found).symm
        | some f =>
          rcases target_eq_some_iff.mp found with ⟨there, rfl⟩
          have allocatable := (space.page w _ low found).1
          have notZero : frameOf (entry s.mem d w) ≠ 0 := by
            have above := allocatable.ge
            omega
          rw [if_pos there]
          simp only [ensures_bind, ensures_get]
          by_cases few : (s.pteArray (frameOf (entry s.mem d w))).toInt < 2
          · rw [if_pos few, if_neg notZero, ensures_bind, ensures_kfree allocatable, ensures_bind,
              ensures_writeWord]
            exact next present found (space.give_few low tabled found few)
          · rw [if_neg few]
            by_cases two : (s.pteArray (frameOf (entry s.mem d w))).toInt = 2
            · rw [if_pos two, ensures_bind, ensures_writeWord, ensures_bind, ensures_modify]
              exact next present found (space.give_two low tabled two)
            · rw [if_neg two, ensures_bind, ensures_modify]
              exact next present found (Space.give_many s d w _ (by omega))
    · exact done w s inside

/-! ## A page table with one page -/

/-- Frame 1 is the directory, frame 2 its only table, and frame `0x400` page `v`. -/
def pageAtMemory (v : Nat) : Memory := fun frame index =>
  if frame = 1 /\ index = v / 1024 then 0x2007#32
  else if frame = 2 /\ index = v % 1024 then 0x400007#32 else 0#32

def pageAt (v : Nat) (count : BitVec 8) : Kernel :=
  { onePage with mem := pageAtMemory v, pteArray := fun _ => count }

section PageAt

variable {v : Nat} {count : BitVec 8}

omit L in
theorem pageAt_dir {i f : Nat} (found : target ((pageAt v count).mem 1 i) = some f) :
    i = v / 1024 /\ f = 2 := by
  change target (pageAtMemory v 1 i) = some f at found
  by_cases here : i = v / 1024
  · rw [pageAtMemory, if_pos ⟨rfl, here⟩] at found
    exact ⟨here, Option.some.inj (found.symm.trans (by decide))⟩
  · rw [pageAtMemory, if_neg (fun both => here both.2), if_neg (fun both => absurd both.1 (by decide)),
      target_zero] at found
    cases found

omit L in
theorem pageAt_page {w f : Nat}
    (found : target (entry (pageAt v count).mem 1 w) = some f) : w = v /\ f = 0x400 := by
  rcases table_of_target found with ⟨table, tabled⟩
  rcases pageAt_dir tabled with ⟨same, rfl⟩
  rw [entry_of_table tabled] at found
  change target (pageAtMemory v 2 (w % 1024)) = some f at found
  by_cases here : w % 1024 = v % 1024
  · rw [pageAtMemory, if_neg (fun both => absurd both.1 (by decide)), if_pos ⟨rfl, here⟩] at found
    exact ⟨by omega, Option.some.inj (found.symm.trans (by decide))⟩
  · rw [pageAtMemory, if_neg (fun both => absurd both.1 (by decide)), if_neg (fun both => here both.2),
      target_zero] at found
    cases found

theorem pageAt_space : Space (pageAt v count) 1 := by
  constructor
  case table =>
    intro i f _ found
    rw [(pageAt_dir found).2]
    decide
  case sole =>
    intro i j f _ _ first second
    rw [(pageAt_dir first).1, (pageAt_dir second).1]
  case page =>
    intro w f _ found
    rw [(pageAt_page found).2]
    refine ⟨⟨L.kend_below, by decide⟩, List.not_mem_nil, by decide⟩
  case notTable =>
    intro w f i _ found _ tabled
    cases (pageAt_page found).2.symm.trans (pageAt_dir tabled).2
  case distinct =>
    intro w w' f _ _ first second
    rw [(pageAt_page first).1, (pageAt_page second).1]

end PageAt

/-! ## The call -/

/-- The pages between the two sizes. -/
def Between (newsz oldsz v : Nat) : Prop := PGROUNDUP newsz <= v * 4096 /\ v * 4096 < oldsz

/-- What is asked of `deallocuvm`. -/
structure Unmapped (d oldsz newsz : Nat) (s t : Kernel) : Prop where
  gone : ∀ v, Between newsz oldsz v -> HasFlag (entry t.mem d v) PTE_P = false
  outside : ∀ v, v < 0x100000 -> ¬ Between newsz oldsz v -> entry t.mem d v = entry s.mem d v
  freed : ∀ v f, Between newsz oldsz v -> target (entry s.mem d v) = some f -> (s.pteArray f).toInt < 2 ->
    t.freelist.count f = 1
  shared : ∀ v f, Between newsz oldsz v -> target (entry s.mem d v) = some f ->
    2 <= (s.pteArray f).toInt -> f ∉ t.freelist /\ t.pteArray f = s.pteArray f - 1#8

section Deallocuvm

variable {s : Kernel} {d oldsz newsz : Nat}

omit L in
theorem PGROUNDUP_pages (newsz : Nat) : PGROUNDUP newsz = PGROUNDUP newsz / 4096 * 4096 := by
  unfold PGROUNDUP PGSIZE
  omega

variable {v : Nat}

omit L in
theorem between_iff :
    Between newsz oldsz v <-> PGROUNDUP newsz / 4096 <= v /\ v < (oldsz + 4095) / 4096 := by
  have pages := PGROUNDUP_pages newsz
  unfold Between
  omega

theorem deallocuvm_swept (space : Space s d) (less : newsz < oldsz) (bound : oldsz <= KERNBASE) :
    ∃ t, deallocuvm d oldsz newsz s = .ok newsz t /\
      Swept d (Visited s.mem d ((oldsz + 4095) / 4096) (PGROUNDUP newsz / 4096)) s t := by
  have spec : Ensures (deallocuvm d oldsz newsz) s (fun size t => size = newsz /\
      Swept d (Visited s.mem d ((oldsz + 4095) / 4096) (PGROUNDUP newsz / 4096)) s t)
        (fun _ _ => False) := by
    rw [deallocuvm, if_neg (by omega), ensures_bind, PGROUNDUP_pages newsz,
      Nat.mul_div_cancel _ (by decide)]
    refine (deallocuvmLoop_swept bound oldsz _ s (by omega) space).imp ?_
    intro _ t swept
    rw [ensures_pure]
    exact ⟨rfl, swept⟩
  rcases spec.exists_ok with ⟨_, t, run, rfl, swept⟩
  exact ⟨t, run, swept⟩

omit L in
/-- A page that is shared, or that the loop does not come to, stays mapped. -/
theorem Swept.stays {t : Kernel} {hi a f : Nat} (swept : Swept d (Visited s.mem d hi a) s t)
    (bound : v < 0x100000) (found : target (entry s.mem d v) = some f)
    (trouble : 2 <= (s.pteArray f).toInt ∨ Skipped s.mem d a v) :
    target (entry t.mem d v) = some f := by
  by_cases visited : Visited s.mem d hi a v
  · cases trouble with
    | inl many => rw [swept.inside v f visited found, target_spent many, found]
    | inr skipped => exact absurd skipped visited.2.2.2
  · rw [swept.outside v bound visited, found]

omit L in
theorem Between.lt (inside : Between newsz oldsz v) (bound : oldsz <= KERNBASE) : v < 0x80000 := by
  have range := inside.2
  unfold KERNBASE at bound
  omega

/-- One such page in the range is enough. -/
theorem deallocuvm_leaves (space : Space s d) (less : newsz < oldsz) (bound : oldsz <= KERNBASE)
    {f : Nat} (inside : Between newsz oldsz v) (found : target (entry s.mem d v) = some f)
    (trouble : 2 <= (s.pteArray f).toInt ∨ Skipped s.mem d (PGROUNDUP newsz / 4096) v) :
    ¬ ∃ t, deallocuvm d oldsz newsz s = .ok newsz t /\ Unmapped d oldsz newsz s t := by
  rcases deallocuvm_swept space less bound with ⟨t, run, swept⟩
  rintro ⟨t', run', unmapped⟩
  cases run.symm.trans run'
  have low := inside.lt bound
  have stays := swept.stays (by omega) found trouble
  rw [target_eq_none_iff.mpr (unmapped.gone v inside)] at stays
  cases stays

/-- `deallocuvm` unmaps the whole range exactly if no page there is shared, and none is left out by
a step over missing page tables. -/
theorem deallocuvm_iff (space : Space s d) (less : newsz < oldsz) (bound : oldsz <= KERNBASE) :
    (∃ t, deallocuvm d oldsz newsz s = .ok newsz t /\ Unmapped d oldsz newsz s t) <->
      ∀ v f, Between newsz oldsz v -> target (entry s.mem d v) = some f ->
        (s.pteArray f).toInt < 2 /\ ¬ Skipped s.mem d (PGROUNDUP newsz / 4096) v := by
  constructor
  · intro unmapped v f inside found
    constructor
    · by_contra many
      exact deallocuvm_leaves space less bound inside found (.inl (by omega)) unmapped
    · intro skipped
      exact deallocuvm_leaves space less bound inside found (.inr skipped) unmapped
  · intro fine
    rcases deallocuvm_swept space less bound with ⟨t, run, swept⟩
    refine ⟨t, run, ?_⟩
    have visit : ∀ {v f}, Between newsz oldsz v -> target (entry s.mem d v) = some f ->
        Visited s.mem d ((oldsz + 4095) / 4096) (PGROUNDUP newsz / 4096) v := by
      intro v f inside found
      have range := between_iff.mp inside
      exact ⟨range.1, range.2, by rw [found]; exact Option.some_ne_none f, (fine v f inside found).2⟩
    constructor
    case gone =>
      intro v inside
      cases found : target (entry s.mem d v) with
      | none =>
        have small := inside.lt bound
        rw [swept.outside v (by omega) fun visited => visited.2.2.1 found]
        exact target_eq_none_iff.mp found
      | some f =>
        rw [swept.inside v f (visit inside found) found, spent_few (fine v f inside found).1,
          hasFlag_zero]
    case outside =>
      exact fun v small outside => swept.outside v small fun visited =>
        outside (between_iff.mpr ⟨visited.1, visited.2.1⟩)
    case freed =>
      intro v f inside found few
      have absent := (space.page v f (inside.lt bound) found).2.1
      rw [swept.freed v f (visit inside found) found few, List.count_eq_zero_of_not_mem absent]
    case shared =>
      intro v f inside found many
      have few := (fine v f inside found).1
      omega

end Deallocuvm

end Release

/-- A page that is mapped once. -/
theorem deallocuvm_single :
    ∃ t, deallocuvm (L := kernelSym) 1 0x2000 0x1000 (pageAt 1 1#8) = .ok 0x1000 t /\
    Unmapped 1 0x2000 0x1000 (pageAt 1 1#8) t := by
  refine (deallocuvm_iff (L := kernelSym) (pageAt_space (L := kernelSym)) (by decide) (by decide)).mpr ?_
  intro v f inside found
  rcases pageAt_page found with ⟨rfl, rfl⟩
  refine ⟨by decide, fun skipped => ?_⟩
  exact absurd skipped.1 (by decide)

/-- A page with two references stays mapped, and so does page 1024 if the loop starts at page 1 and
page table 0 is missing. -/
theorem deallocuvm_incomplete :
    (Space (L := kernelSym) (pageAt 1 2#8) 1 /\ ¬ ∃ t,
      deallocuvm (L := kernelSym) 1 0x2000 0x1000 (pageAt 1 2#8) = .ok 0x1000 t /\
        Unmapped 1 0x2000 0x1000 (pageAt 1 2#8) t) /\
    Space (L := kernelSym) (pageAt 1024 1#8) 1 /\ ¬ ∃ t,
      deallocuvm (L := kernelSym) 1 0x401000 0x1000 (pageAt 1024 1#8) = .ok 0x1000 t /\
        Unmapped 1 0x401000 0x1000 (pageAt 1024 1#8) t := by
  have shared : 2 <= ((pageAt 1 2#8).pteArray 0x400).toInt := by decide
  have skipped : Skipped (pageAt 1024 1#8).mem 1 (PGROUNDUP 0x1000 / 4096) 1024 := by
    refine ⟨by decide, by decide, fun i low high => ?_⟩
    have zero : i = 0 := by
      change i < 1 at high
      omega
    subst zero
    decide
  constructor
  · refine ⟨pageAt_space (L := kernelSym), ?_⟩
    exact deallocuvm_leaves (L := kernelSym) (pageAt_space (L := kernelSym)) (by decide) (by decide)
      (⟨by decide, by decide⟩ : Between 0x1000 0x2000 1) (by decide) (.inl shared)
  · refine ⟨pageAt_space (L := kernelSym), ?_⟩
    exact deallocuvm_leaves (L := kernelSym) (pageAt_space (L := kernelSym)) (by decide) (by decide)
      (⟨by decide, by decide⟩ : Between 0x1000 0x401000 1024) (f := 0x400) (by decide) (.inr skipped)

end Xv6.System
