import Xv6.System.KernelMap

namespace Xv6.System

open Library Machine Memory Ownership
open Function

/-!
# Page-table updates are local

A page table is well formed if no two present entries of its directory lead to
the same page, and none leads to the directory.  A free page is none of these.
Then `walkpgdir` changes no entry, a store through its result changes one, and
`mappages` changes the entries of its range.  It stops before the end of the
range when it has no page for a page table or comes to a page that is present.
-/

structure WellFormed (mem : Memory) (d : Nat) : Prop where
  apart : ∀ i f, i < 1024 -> target (mem d i) = some f -> f ≠ d
  sole : ∀ i j f, i < 1024 -> j < 1024 -> target (mem d i) = some f -> target (mem d j) = some f -> i = j

/-- The free pages are pages of memory, each is listed once, and none is in use by the page
table. -/
structure Fresh (s : Kernel) (d : Nat) : Prop where
  nodup : s.freelist.Nodup
  small : ∀ f, f ∈ s.freelist -> f < 2 ^ 20
  dir : d ∉ s.freelist
  table : ∀ i f, i < 1024 -> target (s.mem d i) = some f -> f ∉ s.freelist

/-- `n` pages from `v` on are mapped to the pages from `pa` on, and the others as before. -/
def mapped (map : Nat -> Word) (v n : Nat) (pa perm : Word) : Nat -> Word := fun w =>
  if v <= w /\ w < v + n then (pa + BitVec.ofNat 32 ((w - v) * PGSIZE)) ||| perm ||| PTE_P else map w

/-- The page table is well formed and has these entries. -/
structure Maps (s : Kernel) (d : Nat) (map : Nat -> Word) : Prop extends WellFormed s.mem d,
  Fresh s d where
  entries : ∀ w, w < 0x100000 -> entry s.mem d w = map w

section Maps

variable {d v : Nat} {map : Nat -> Word} {s t : Kernel}

theorem Maps.tree (maps : Maps s d map) : Tree (fun _ => True) s.mem d map s.mem s.freelist where
  nodup := maps.nodup
  small := maps.small
  spare _ _ := trivial
  dir := ⟨trivial, maps.dir⟩
  table i f below found := ⟨trivial, maps.table i f below found, maps.apart i f below found⟩
  distinct := maps.sole
  entries := maps.entries
  kept _ _ := rfl

theorem maps_of_tree {origin : Memory}
    (tree : Tree (fun _ => True) origin d map t.mem t.freelist) : Maps t d map where
  apart i f below found := (tree.table i f below found).2.2
  sole := tree.distinct
  nodup := tree.nodup
  small := tree.small
  dir := tree.dir.2
  table i f below found := (tree.table i f below found).2.1
  entries := tree.entries

/-- `walkpgdir` changes no entry, and what it returns is the place of the entry of the page. -/
theorem Maps.walkpgdir (maps : Maps s d map) {va : Nat} (bound : va < 2 ^ 32) (alloc : Bool) :
    Ensures (Memory.walkpgdir d va alloc) s
      (fun found t => Maps t d map /\ ∀ table index, found = some (table, index) ->
        target (t.mem d (va / 4096 / 1024)) = some table /\ index = va / 4096 % 1024)
      (fun _ _ => False) := by
  cases alloc with
  | false =>
    rw [ensures_walkpgdir bound]
    refine ⟨maps, fun table index found => ?_⟩
    rw [Option.ite_none_right_eq_some, Option.some.injEq, Prod.mk.injEq] at found
    exact ⟨target_eq_some_iff.mpr ⟨found.1, found.2.1⟩, found.2.2.symm⟩
  | true =>
    have page : Memory.walkpgdir d va true = Memory.walkpgdir d (va / 4096 * 4096) true := by
      unfold Memory.walkpgdir
      rw [PDX_eq bound, PDX_eq (by omega), PTX_eq, PTX_eq, Nat.mul_div_cancel _ (by decide)]
    rw [page]
    refine (maps.tree.walkpgdir (by omega)).imp ?_
    rintro found t (⟨rfl, rfl, _⟩ | ⟨table, rfl, present, tree, _⟩)
    · exact ⟨maps, nofun⟩
    · refine ⟨maps_of_tree tree, fun table' index same => ?_⟩
      cases same
      exact ⟨present, rfl⟩

theorem mapped_zero (map : Nat -> Word) (v : Nat) (pa perm : Word) : mapped map v 0 pa perm = map :=
  funext fun w => if_neg (by omega)

theorem mapped_succ (map : Nat -> Word) (v n : Nat) (pa perm : Word) :
    mapped (update map v (pa ||| perm ||| PTE_P)) (v + 1) n (pa + BitVec.ofNat 32 PGSIZE) perm =
      mapped map v (n + 1) pa perm := by
  funext w
  unfold mapped
  by_cases same : w = v
  · subst same
    rw [if_neg (by omega), if_pos (by omega), update_self, Nat.sub_self, Nat.zero_mul, BitVec.add_zero]
  · rw [update_of_ne same]
    by_cases inside : v + 1 <= w /\ w < v + 1 + n
    · have step : PGSIZE + (w - (v + 1)) * PGSIZE = (w - v) * PGSIZE := by
        unfold PGSIZE
        omega
      rw [if_pos inside, if_pos (by omega), BitVec.add_assoc, <- BitVec.ofNat_add, step]
    · rw [if_neg inside, if_neg (by omega)]

/-- The loop of `mappages`, by induction on its passes. -/
theorem mappagesLoop_maps (perm : Word) (more : Nat) :
    ∀ (map : Nat -> Word) (t : Kernel) (v : Nat) (pa : Word),
    Maps t d map -> v + more < 0x100000 -> Ensures (mappagesLoop d perm more (v * 4096) pa) t
      (fun failed u => (failed = 0 /\ (∀ w, v <= w -> w <= v + more -> target (map w) = none) /\
          Maps u d (mapped map v (more + 1) pa perm)) ∨
        failed = -1 /\ u.freelist = [] /\ ∃ n, n <= more /\ Maps u d (mapped map v n pa perm))
      (fun stop _ => stop = .panic "remap" /\ ∃ w,
        v <= w /\ w <= v + more /\ target (map w) ≠ none) := by
  have one {map : Nat -> Word} {t : Kernel} {v : Nat} (pa : Word) (maps : Maps t d map)
      (bound : v < 0x100000) :=
    maps.tree.mappage bound pa perm
  induction more with
  | zero =>
    intro map t v pa maps bound
    rw [mappagesLoop]
    refine (one pa maps (by omega)).mono ?_ (fun _ _ stop => ⟨stop.1, v, le_rfl, le_rfl, stop.2⟩)
    rintro failed u (⟨rfl, rfl, empty, _⟩ | ⟨rfl, free, tree, _⟩)
    · exact .inr ⟨rfl, empty, 0, le_rfl, (mapped_zero ..).symm ▸ maps⟩
    · refine .inl ⟨rfl, fun w first last => ?_, ?_⟩
      · rwa [Nat.le_antisymm last first]
      · rw [<- mapped_succ, mapped_zero]
        exact maps_of_tree tree
  | succ more ih =>
    intro map t v pa maps bound
    rw [mappagesLoop, ensures_bind]
    refine (one pa maps (by omega)).mono ?_ (fun _ _ stop => ⟨stop.1, v, le_rfl, by omega, stop.2⟩)
    rintro failed u (⟨rfl, rfl, empty, _⟩ | ⟨rfl, free, tree, _⟩)
    · rw [if_pos (by decide), ensures_pure]
      exact .inr ⟨rfl, empty, 0, Nat.zero_le _, (mapped_zero ..).symm ▸ maps⟩
    · have onward : (v * 4096 + PGSIZE) % 2 ^ 32 = (v + 1) * 4096 := by
        unfold PGSIZE
        omega
      rw [if_neg (by decide), onward]
      refine (ih _ u (v + 1) _ (maps_of_tree tree) (by omega)).mono ?_ ?_
      · rintro failed t' (⟨rfl, rest, done⟩ | ⟨rfl, empty, n, below, part⟩)
        · refine .inl ⟨rfl, fun w first last => ?_, mapped_succ .. ▸ done⟩
          by_cases same : w = v
          · exact same ▸ free
          · have later := rest w (by omega) (by omega)
            rwa [update_of_ne same] at later
        · exact .inr ⟨rfl, empty, n + 1, by omega, mapped_succ .. ▸ part⟩
      · rintro stop _ ⟨remap, w, first, last, present⟩
        rw [update_of_ne (by omega)] at present
        exact ⟨remap, w, by omega, by omega, present⟩

end Maps

/-- Every update of the page table is local: a walk changes no entry, a store through its result
changes the entry of the page, and `mappages` maps the range, or only its front part if no page is
left, or stops at a present page. -/
structure Local (s : Kernel) (d : Nat) : Prop where
  walk : ∀ va alloc, va < 2 ^ 32 -> ∃ found t, walkpgdir d va alloc s = .ok found t /\
    Maps t d (entry s.mem d) /\ ∀ table index, found = some (table, index) -> ∀ e,
      Maps (t.setMem (setWord t.mem table index e)) d (update (entry s.mem d) (va / 4096) e)
  map : ∀ va size pa perm, 0 < size -> va + size <= 2 ^ 32 ->
    (∃ t, mappages d va size pa perm s = .ok 0 t /\
      Maps t d (mapped (entry s.mem d) (va / 4096) ((va + size - 1) / 4096 - va / 4096 + 1) pa perm)) ∨
    (∃ t, mappages d va size pa perm s = .ok (-1) t /\ t.freelist = [] /\ ∃ n,
      n <= (va + size - 1) / 4096 - va / 4096 /\
        Maps t d (mapped (entry s.mem d) (va / 4096) n pa perm)) ∨
    ∃ t, mappages d va size pa perm s = .error (.panic "remap") t /\ ∃ w,
      va / 4096 <= w /\ w <= (va + size - 1) / 4096 /\ target (entry s.mem d w) ≠ none

theorem updates_local (s : Kernel) (d : Nat) (formed : WellFormed s.mem d)
    (fresh : Fresh s d) : Local s d := by
  have maps : Maps s d (entry s.mem d) := ⟨formed, fresh, fun _ _ => rfl⟩
  constructor
  case walk =>
    intro va alloc bound
    rcases (maps.walkpgdir bound alloc).exists_ok with ⟨found, t, run, still, place⟩
    refine ⟨found, t, run, still, fun table index same e => ?_⟩
    rcases place table index same with ⟨present, rfl⟩
    exact maps_of_tree (still.tree.setEntry (by omega) present e)
  case map =>
    intro va size pa perm some bound
    have start : PGROUNDDOWN va = va / 4096 * 4096 := rfl
    have last : PGROUNDDOWN ((va + size + 2 ^ 32 - 1) % 2 ^ 32) = (va + size - 1) / 4096 * 4096 := by
      unfold PGROUNDDOWN PGSIZE
      omega
    have passes : ((va + size - 1) / 4096 * 4096 + 2 ^ 32 - va / 4096 * 4096) % 2 ^ 32 / PGSIZE =
        (va + size - 1) / 4096 - va / 4096 := by
      unfold PGSIZE
      omega
    have spec := mappagesLoop_maps perm ((va + size - 1) / 4096 - va / 4096) _ s (va / 4096) pa maps
        (by omega)
    simp only [mappages, start, last, passes]
    cases run : mappagesLoop d perm ((va + size - 1) / 4096 - va / 4096) (va / 4096 * 4096) pa s with
    | ok failed t =>
      rcases spec.of_ok run with ⟨rfl, _, done⟩ | ⟨rfl, empty, n, below, part⟩
      · exact .inl ⟨t, rfl, done⟩
      · exact .inr (.inl ⟨t, rfl, empty, n, below, part⟩)
    | error stop t =>
      rcases spec.of_error run with ⟨rfl, w, first, final, present⟩
      exact .inr (.inr ⟨t, rfl, w, first, by omega, present⟩)

private theorem onePage_formed : WellFormed onePage.mem 1 where
  apart i f _ found := by
    rcases target_eq_some_iff.mp found with ⟨there, rfl⟩
    exact onePage_proper.dir i there
  sole i j f _ _ found found' := by
    rcases target_eq_some_iff.mp found with ⟨there, rfl⟩
    rcases target_eq_some_iff.mp found' with ⟨there', same⟩
    exact onePage_proper.distinct i j there there' same.symm

private theorem onePage_fresh : Fresh onePage 1 := ⟨List.nodup_nil, nofun, nofun, nofun⟩

/-- One page is free. -/
def oneFree : Kernel := { onePage with freelist := [4] }

private theorem oneFree_fresh : Fresh oneFree 1 where
  nodup := List.nodup_singleton 4
  small f listed := by
    cases List.mem_singleton.mp listed
    decide
  dir := by decide
  table i f _ found listed := by
    cases List.mem_singleton.mp listed
    have low : i = 0 := by
      by_contra other
      simp [oneFree, onePage, onePageMemory, other, target, HasFlag] at found
    subst low
    cases found

/-- A walk to a missing page table takes the free page for it. -/
theorem updates_local_onePage : WellFormed oneFree.mem 1 /\ Fresh oneFree 1 /\ Local oneFree 1 /\
    ∃ t, walkpgdir 1 0x400000 true oneFree = .ok (some (4, 0)) t :=
  ⟨onePage_formed, oneFree_fresh, updates_local oneFree 1 onePage_formed oneFree_fresh, _, rfl⟩

/-- Without a free page nothing is mapped where a page table is missing. -/
theorem mappages_no_page : WellFormed onePage.mem 1 /\ Fresh onePage 1 /\
    mappages 1 0x400000 4096 0x5000#32 PTE_W onePage = .ok (-1) onePage /\
    target (entry onePage.mem 1 0x400) = none :=
  ⟨onePage_formed, onePage_fresh, rfl, by decide⟩

end Xv6.System
