import Xv6.System.FaultType

namespace Xv6.System

open Library Machine Memory Ownership
open Function

/-!
# The kernel half of a page table, entry by entry

The loops of `setupkvm` fill one page after the other, and take a page for a page
table when they come to the first page of it.  `Building` says what the page table
maps so far, and that its page tables are pages of their own.  The result is the same
for every place of the symbol `data`.
-/

/-! ## `setupkvm` for any place of `data` -/

/-- `setupkvm` of a kernel that is linked with its data there. -/
def setupkvmAt (data : Nat) : K (Option Nat) := do
  match ← kalloc with
  | none => return none
  | some pgdir => do
      writePage pgdir (fun _ => 0#32)
      if DEVSPACE < KERNBASE + PHYSTOP then
        throw (.panic "PHYSTOP too high")
      else
        setupkvmLoop pgdir (kmapAt data)

/-! ## A page table under construction -/

/-- The page table of `d` maps what `map` says.  Its frames are distinct and not free, and no frame
but these and the free ones has changed. -/
structure Tree (mine : Nat -> Prop) (origin : Memory) (d : Nat) (map : Nat -> Word) (mem : Memory)
  (free : List Nat) :
    Prop where
  nodup : free.Nodup
  small : ∀ f, f ∈ free -> f < 2 ^ 20
  spare : ∀ f, f ∈ free -> mine f
  dir : mine d /\ d ∉ free
  table : ∀ i f, i < 1024 -> target (mem d i) = some f -> mine f /\ f ∉ free /\ f ≠ d
  distinct : ∀ i j f, i < 1024 -> j < 1024 -> target (mem d i) = some f ->
    target (mem d j) = some f -> i = j
  entries : ∀ v, v < 0x100000 -> entry mem d v = map v
  kept : ∀ f, ¬ mine f -> mem f = origin f

/-- The memory once a free frame has become a page table. -/
def linked (mem : Memory) (d i table : Nat) : Memory :=
  setWord (update mem table fun _ => 0#32) d i (frameAddr table ||| PTE_P ||| PTE_W ||| PTE_U)

theorem linked_self (mem : Memory) (d i table : Nat) :
    linked mem d i table d i = frameAddr table ||| PTE_P ||| PTE_W ||| PTE_U := by
  rw [linked, setWord, update_self, update_self]

theorem linked_other {mem : Memory} {d i j table : Nat} (apart : d ≠ table) (other : j ≠ i) :
    linked mem d i table d j = mem d j := by
  rw [linked, setWord, update_self, update_of_ne other, update_of_ne apart]

theorem linked_page {mem : Memory} {d i f table : Nat} (notDir : f ≠ d) (notTable : f ≠ table) :
    linked mem d i table f = mem f := by
  rw [linked, setWord, update_of_ne notDir, update_of_ne notTable]

namespace Tree

variable {mine : Nat -> Prop} {origin : Memory} {d v table : Nat} {map : Nat -> Word} {mem : Memory}
  {free : List Nat} {t : Kernel}

/-- The entry of one page is written. -/
theorem setEntry (tree : Tree mine origin d map mem free) (bound : v < 0x100000)
    (present : target (mem d (v / 1024)) = some table) (e : Word) :
    Tree mine origin d (update map v e) (setWord mem table (v % 1024) e) free := by
  have index : ∀ {w}, w < 0x100000 -> w / 1024 < 1024 := fun below => by omega
  rcases tree.table _ _ (index bound) present with ⟨own, _, apart⟩
  have directory : setWord mem table (v % 1024) e d = mem d := update_of_ne (Ne.symm apart) ..
  refine { tree with table := ?_, distinct := ?_, entries := ?_, kept := ?_ }
  · rw [directory]
    exact tree.table
  · rw [directory]
    exact tree.distinct
  · intro w below
    rw [entry_setWord e present apart fun found =>
      tree.distinct _ _ _ (index below) (index bound) found present,
      tree.entries w below, update_apply]
  · intro f other
    rw [<- tree.kept f other, setWord, update_of_ne]
    rintro rfl
    exact other own

/-- A free frame becomes a page table. -/
theorem link (tree : Tree mine origin d map mem (table :: free)) {i : Nat} (low : i < 1024)
    (missing : target (mem d i) = none) : Tree mine origin d map (linked mem d i table) free := by
  have listed : table ∈ table :: free := List.mem_cons_self
  have apart : d ≠ table := by
    rintro rfl
    exact tree.dir.2 listed
  rcases List.nodup_cons.mp tree.nodup with ⟨fresh, nodup⟩
  have self : target (linked mem d i table d i) = some table := by
    rw [linked_self]
    exact (pde_link (tree.small table listed)).1
  have old : ∀ {j f}, j < 1024 -> target (mem d j) = some f -> f ≠ table := by
    rintro j f below found rfl
    exact (tree.table j f below found).2.1 listed
  constructor
  case nodup => exact nodup
  case small => exact fun f inside => tree.small f (List.mem_cons_of_mem _ inside)
  case spare => exact fun f inside => tree.spare f (List.mem_cons_of_mem _ inside)
  case dir => exact ⟨tree.dir.1, fun inside => tree.dir.2 (List.mem_cons_of_mem _ inside)⟩
  case table =>
    intro j f below found
    by_cases same : j = i
    · rw [same, self] at found
      cases found
      exact ⟨tree.spare _ listed, fresh, Ne.symm apart⟩
    · rw [linked_other apart same] at found
      rcases tree.table j f below found with ⟨own, used, other⟩
      exact ⟨own, fun inside => used (List.mem_cons_of_mem _ inside), other⟩
  case distinct =>
    intro j k f below below' found found'
    by_cases first : j = i
    · by_cases second : k = i
      · rw [first, second]
      · rw [first, self] at found
        rw [linked_other apart second] at found'
        exact absurd (Option.some.inj found).symm (old below' found')
    · rw [linked_other apart first] at found
      by_cases second : k = i
      · rw [second, self] at found'
        exact absurd (Option.some.inj found').symm (old below found)
      · rw [linked_other apart second] at found'
        exact tree.distinct j k f below below' found found'
  case entries =>
    intro v below
    rw [<- tree.entries v below]
    by_cases same : v / 1024 = i
    · subst same
      have zero : linked mem d (v / 1024) table table = fun _ => 0#32 := by
        rw [linked, setWord, update_of_ne (Ne.symm apart), update_self]
      rw [entry_of_table self, zero, entry_of_none missing]
    · have word : linked mem d i table d (v / 1024) = mem d (v / 1024) := linked_other apart same
      cases found : target (mem d (v / 1024)) with
      | none => rw [entry_of_none found, entry_of_none (by rw [word]; exact found)]
      | some f =>
        have known := tree.table _ f (by omega) found
        rw [entry_of_table found, entry_of_table (by rw [word]; exact found),
          linked_page known.2.2 (old (by omega) found)]
  case kept =>
    intro f other
    rw [linked_page, tree.kept f other]
    · rintro rfl
      exact other tree.dir.1
    · rintro rfl
      exact other (tree.spare _ listed)

/-- A free frame is filled and leaves the construction. -/
theorem take (tree : Tree mine origin d map mem (table :: free)) (page : Nat -> Word) :
    Tree (fun f => mine f /\ f ≠ table) (update origin table page) d map
      (update mem table page) free := by
  have listed : table ∈ table :: free := List.mem_cons_self
  rcases List.nodup_cons.mp tree.nodup with ⟨fresh, nodup⟩
  have apart : d ≠ table := by
    rintro rfl
    exact tree.dir.2 listed
  have directory : update mem table page d = mem d := update_of_ne apart ..
  have old : ∀ {j f}, j < 1024 -> target (mem d j) = some f -> f ≠ table := by
    rintro j f below found rfl
    exact (tree.table j f below found).2.1 listed
  constructor
  case nodup => exact nodup
  case small => exact fun f inside => tree.small f (List.mem_cons_of_mem _ inside)
  case spare =>
    intro f inside
    refine ⟨tree.spare f (List.mem_cons_of_mem _ inside), ?_⟩
    rintro rfl
    exact fresh inside
  case dir => exact ⟨⟨tree.dir.1, apart⟩, fun inside => tree.dir.2 (List.mem_cons_of_mem _ inside)⟩
  case table =>
    intro j f below found
    rw [directory] at found
    rcases tree.table j f below found with ⟨own, used, other⟩
    exact ⟨⟨own, old below found⟩, fun inside => used (List.mem_cons_of_mem _ inside), other⟩
  case distinct =>
    rw [directory]
    exact tree.distinct
  case entries =>
    intro v below
    rw [<- tree.entries v below]
    exact entry_elsewhere directory fun f found => update_of_ne (old (by omega) found) ..
  case kept =>
    intro f other
    by_cases same : f = table
    · rw [same, update_self, update_self]
    · rw [update_of_ne same, update_of_ne same]
      exact tree.kept f fun own => other ⟨own, same⟩

/-- What making one more page table does to the directory and to the number of free frames. -/
structure Linked (d v : Nat) (t u : Kernel) : Prop where
  writable : ∀ i, u.mem d i = t.mem d i ∨ HasFlag (u.mem d i) PTE_W = true
  tables : tableSet u.mem d = insert (v / 1024) (tableSet t.mem d)
  length : u.freelist.length + (tableSet u.mem d).card = t.freelist.length + (tableSet t.mem d).card

/-- `walkpgdir` finds a page table or makes one. -/
theorem walkpgdir (tree : Tree mine origin d map t.mem t.freelist) (bound : v < 0x100000) :
    Ensures (Memory.walkpgdir d (v * 4096) true) t
      (fun found u => (found = none /\ u = t /\ t.freelist = [] /\ v / 1024 ∉ tableSet t.mem d) ∨
        ∃ table, found = some (table, v % 1024) /\ target (u.mem d (v / 1024)) = some table /\
          Tree mine origin d map u.mem u.freelist /\ Linked d v t u)
      (fun _ _ => False) := by
  have index : v / 1024 < 1024 := by omega
  have directory : PDX (v * 4096) = v / 1024 := by
    rw [PDX_eq (by omega), Nat.mul_div_cancel _ (by decide)]
  have place : PTX (v * 4096) = v % 1024 := by
    rw [PTX_eq, Nat.mul_div_cancel _ (by decide)]
  rw [Memory.walkpgdir, ensures_bind, ensures_readWord, directory, place]
  cases found : target (t.mem d (v / 1024)) with
  | some table =>
    rcases target_eq_some_iff.mp found with ⟨there, frame⟩
    have listed : v / 1024 ∈ tableSet t.mem d := mem_tableSet.mpr ⟨index, by rw [found]; rintro ⟨⟩⟩
    rw [if_pos there, ensures_pure, frame]
    exact .inr ⟨table, rfl, found, tree, fun _ => .inl rfl, (Finset.insert_eq_of_mem listed).symm, rfl⟩
  | none =>
    have absent : v / 1024 ∉ tableSet t.mem d := fun inside => (mem_tableSet.mp inside).2 found
    rw [if_neg (by rw [target_eq_none_iff.mp found]; rintro ⟨⟩), if_pos rfl, ensures_bind]
    refine kalloc_rule (fun empty => ?_) fun table rest list => ?_
    · rw [ensures_pure]
      exact .inl ⟨rfl, rfl, empty, absent⟩
    · simp only [ensures_bind, ensures_writePage, ensures_writeWord, ensures_pure]
      rw [list] at tree
      have apart : d ≠ table := by
        rintro rfl
        exact tree.dir.2 List.mem_cons_self
      have pde := pde_link (tree.small table List.mem_cons_self)
      have now : target (linked t.mem d (v / 1024) table d (v / 1024)) = some table := by
        rw [linked_self]
        exact pde.1
      have writable (i : Nat) : linked t.mem d (v / 1024) table d i = t.mem d i ∨
          HasFlag (linked t.mem d (v / 1024) table d i) PTE_W = true := by
        by_cases same : i = v / 1024
        · rw [same, linked_self]
          exact .inr pde.2.1
        · exact .inl (linked_other apart same)
      have tables : tableSet (linked t.mem d (v / 1024) table) d = insert (v / 1024) (tableSet t.mem d) :=
        tableSet_of_link index now fun j other => linked_other apart other
      refine .inr ⟨table, rfl, now, tree.link index found, writable, tables, ?_⟩
      change rest.length + (tableSet (linked t.mem d (v / 1024) table) d).card = _
      rw [tables, Finset.card_insert_of_notMem absent, list, List.length_cons]
      omega

/-- One pass of `mappages`. -/
theorem mappage (tree : Tree mine origin d map t.mem t.freelist) (bound : v < 0x100000)
    (pa perm : Word) :
    Ensures (Memory.mappage d (v * 4096) pa perm) t
      (fun failed u => (failed = -1 /\ u = t /\ t.freelist = [] /\ v / 1024 ∉ tableSet t.mem d) ∨
        failed = 0 /\ target (map v) = none /\
          Tree mine origin d (update map v (pa ||| perm ||| PTE_P)) u.mem u.freelist /\
          Linked d v t u)
      (fun stop _ => stop = .panic "remap" /\ target (map v) ≠ none) := by
  rw [Memory.mappage, ensures_bind]
  refine (tree.walkpgdir bound).mono ?_ (fun _ _ impossible => impossible.elim)
  rintro found u (⟨rfl, same, list, absent⟩ | ⟨table, rfl, present, ready, effect⟩)
  · exact (ensures_pure _ _ _ _).mpr (.inl ⟨rfl, same, list, absent⟩)
  · simp only [ensures_bind, ensures_readWord]
    have here : u.mem table (v % 1024) = map v := by
      rw [<- entry_of_table present, ready.entries v bound]
    rw [here]
    by_cases there : HasFlag (map v) PTE_P = true
    · rw [if_pos there, ensures_throw, target_of_present there]
      exact ⟨rfl, (by rintro ⟨⟩)⟩
    · rw [if_neg there, ensures_bind, ensures_writeWord, ensures_pure]
      have apart := (ready.table _ _ (by omega) present).2.2
      have directory : setWord u.mem table (v % 1024) (pa ||| perm ||| PTE_P) d = u.mem d :=
        update_of_ne (Ne.symm apart) ..
      have tables : tableSet (setWord u.mem table (v % 1024) (pa ||| perm ||| PTE_P)) d =
          tableSet u.mem d :=
        tableSet_congr directory
      refine .inr ⟨rfl, target_eq_none_iff.mpr (Bool.eq_false_iff.mpr there),
        ready.setEntry bound present _, ?_, ?_, ?_⟩
      · intro i
        have entry := effect.writable i
        rw [<- directory] at entry
        exact entry
      · exact tables.trans effect.tables
      · change u.freelist.length + (tableSet (setWord u.mem table (v % 1024)
          (pa ||| perm ||| PTE_P)) d).card = _
        rw [tables]
        exact effect.length

end Tree

/-- A page table that has only tables of the kernel half.  Its frames and the free ones are
`total`. -/
structure Building (mine : Nat -> Prop) (origin : Memory) (total d : Nat) (map : Nat -> Word)
  (mem : Memory)
    (free : List Nat) : Prop extends Tree mine origin d map mem free where
  writable : ∀ i, i < 1024 -> target (mem d i) ≠ none -> HasFlag (mem d i) PTE_W = true
  kernel : tableSet mem d ⊆ kernelTables
  count : free.length + (tableSet mem d).card + 1 = total

namespace Building

variable {mine : Nat -> Prop} {origin : Memory} {total d v table : Nat} {map : Nat -> Word} {t : Kernel}

/-- One pass of `mappages`, over a page of the kernel half. -/
theorem mappage (building : Building mine origin total d map t.mem t.freelist)
    (bound : v < 0x100000) (index : v / 1024 ∈ kernelTables) (empty : map v = 0#32)
    (pa perm : Word) :
    Ensures (Memory.mappage d (v * 4096) pa perm) t
      (fun failed u => (failed = -1 /\ u.freelist = [] /\ total < 65) ∨
        failed = 0 /\
        Building mine origin total d (update map v (pa ||| perm ||| PTE_P)) u.mem u.freelist)
      (fun _ _ => False) := by
  have total := building.count
  refine (building.toTree.mappage bound pa perm).mono ?_ ?_
  · rintro failed u (⟨rfl, rfl, list, absent⟩ | ⟨rfl, _, tree, effect⟩)
    · have fewer : (tableSet u.mem d).card < kernelTables.card :=
        Finset.card_lt_card ⟨building.kernel, fun all => absent (all index)⟩
      rw [card_kernelTables] at fewer
      rw [list, List.length_nil] at total
      exact .inl ⟨rfl, list, by omega⟩
    · refine .inr ⟨rfl, tree, fun i below found => ?_, ?_, ?_⟩
      · rcases effect.writable i with same | writable
        · rw [same] at found ⊢
          exact building.writable i below found
        · exact writable
      · rw [effect.tables]
        exact Finset.insert_subset index building.kernel
      · rw [effect.length]
        exact total
  · rintro _ _ ⟨_, present⟩
    rw [empty, target_zero] at present
    exact present rfl

/-- What the pages from `v` on to `v + more` are mapped to. -/
def filled (map : Nat -> Word) (v more k : Nat) (perm : Word) : Nat -> Word :=
  fun w => if v <= w /\ w <= v + more then frameAddr (k + (w - v)) ||| perm ||| PTE_P else map w

/-- The loop of `mappages`, by induction on its passes. -/
theorem mappagesLoop (perm : Word) (more : Nat) : ∀ (map : Nat -> Word) (t : Kernel) (v k : Nat),
    Building mine origin total d map t.mem t.freelist -> v + more < 0x100000 ->
    (∀ w, v <= w -> w <= v + more -> w / 1024 ∈ kernelTables /\ map w = 0#32) ->
    Ensures (Memory.mappagesLoop d perm more (v * 4096) (frameAddr k)) t
      (fun failed u => (failed = -1 /\ u.freelist = [] /\ total < 65) ∨
        failed = 0 /\ Building mine origin total d (filled map v more k perm) u.mem u.freelist)
      (fun _ _ => False) := by
  induction more with
  | zero =>
    intro map t v k building bound empty
    rcases empty v (Nat.le_refl v) (Nat.le_refl v) with ⟨index, free⟩
    have last : filled map v 0 k perm = update map v (frameAddr k ||| perm ||| PTE_P) := by
      funext w
      unfold filled
      by_cases same : w = v
      · subst same
        rw [if_pos ⟨le_rfl, le_rfl⟩, update_self, Nat.sub_self, Nat.add_zero]
      · rw [if_neg (by omega), update_of_ne same]
    rw [Memory.mappagesLoop, last]
    exact building.mappage (by omega) index free _ _
  | succ more ih =>
    intro map t v k building bound empty
    rcases empty v (Nat.le_refl v) (by omega) with ⟨index, free⟩
    rw [Memory.mappagesLoop, ensures_bind]
    refine (building.mappage (by omega) index free _ _).imp ?_
    rintro failed u (⟨rfl, list, few⟩ | ⟨rfl, next⟩)
    · rw [if_pos (by decide), ensures_pure]
      exact .inl ⟨rfl, list, few⟩
    · have onward : (v * 4096 + PGSIZE) % 2 ^ 32 = (v + 1) * 4096 := by
        unfold PGSIZE
        omega
      have whole : filled (update map v (frameAddr k ||| perm ||| PTE_P)) (v + 1) more (k + 1) perm =
          filled map v (more + 1) k perm := by
        funext w
        unfold filled
        by_cases same : w = v
        · subst same
          rw [if_neg (by omega), if_pos (by omega), update_self, Nat.sub_self, Nat.add_zero]
        · grind [update_apply]
      rw [if_neg (by decide), onward, frameAddr_succ, <- whole]
      refine ih _ u (v + 1) (k + 1) next (by omega) fun w above below => ?_
      rw [update_of_ne (by omega)]
      exact empty w (by omega) (by omega)

/-- The pages of one line of `kmap`. -/
def line (k : Kmap) (map : Nat -> Word) : Nat -> Word :=
  filled map (firstOf k) (pagesOf k - 1) (k.physStart / 4096) k.perm

/-- The loop of `setupkvm`. -/
theorem setupkvmLoop (lines : List Kmap) : ∀ (map : Nat -> Word) (t : Kernel) (base : Nat),
    Building mine origin total d map t.mem t.freelist -> Ascending base lines ->
    (∀ w, base <= w -> map w = 0#32) ->
    (∀ i, Needs lines i -> i ∈ kernelTables) ->
    Ensures (Memory.setupkvmLoop d lines) t
      (fun found u => (found = none /\ u.freelist = [] /\ total < 65) ∨
        found = some d /\
        Building mine origin total d (lines.foldl (fun map k => line k map) map) u.mem u.freelist)
      (fun _ _ => False) := by
  induction lines with
  | nil =>
    intro map t base building _ _ _
    rw [Memory.setupkvmLoop, ensures_pure]
    exact .inr ⟨rfl, building⟩
  | cons k rest ih =>
    intro map t base building ascending empty kernel
    rcases ascending with ⟨ok, later⟩
    have above := ok.above
    have some := ok.some
    have below := ok.below
    rw [Memory.setupkvmLoop, ensures_bind, mappages_line ok]
    refine (mappagesLoop k.perm (pagesOf k - 1) map t (firstOf k) _ building (by omega)
      fun w first last => ?_).imp ?_
    · refine ⟨kernel _ ⟨k, List.mem_cons_self, Nat.div_le_div_right first, ?_⟩, empty w (by omega)⟩
      exact Nat.div_le_div_right (by omega)
    · rintro failed u (⟨rfl, list, few⟩ | ⟨rfl, next⟩)
      · rw [if_pos (by decide), ensures_pure]
        exact .inl ⟨rfl, list, few⟩
      · rw [if_neg (by decide), List.foldl_cons]
        refine ih _ u (firstOf k + pagesOf k) next later (fun w high => ?_) ?_
        · rw [line, filled, if_neg (by omega)]
          exact empty w (by omega)
        · rintro i ⟨k', inside, range⟩
          exact kernel i ⟨k', List.mem_cons_of_mem _ inside, range⟩

end Building

/-! ## The whole map -/

/-- What page `v` of the kernel half is mapped to. -/
def kernelEntry (data v : Nat) : Word :=
  if 0x80000 <= v /\ v < 0x8E000 then
    frameAddr (v - 0x80000) ||| (if KERNLINK <= v * 4096 /\ v * 4096 < data then 0#32 else PTE_W)
      ||| PTE_P
  else if 0xFE000 <= v /\ v < 0x100000 then frameAddr v ||| PTE_W ||| PTE_P
  else 0#32

theorem line_apply {base : Nat} {k : Kmap} (ok : LineOk base k) (map : Nat -> Word) (v : Nat) :
    Building.line k map v = if firstOf k <= v /\ v < firstOf k + pagesOf k
      then frameAddr (k.physStart / 4096 + (v - firstOf k)) ||| k.perm ||| PTE_P else map v := by
  have some := ok.some
  unfold Building.line Building.filled
  exact if_congr (by omega) rfl rfl

theorem foldl_kmapAt {page : Nat} (above : 0x80100 < page) (below : page < 0x8E000) (v : Nat) :
    (kmapAt (page * 4096)).foldl (fun map k => Building.line k map) (fun _ => 0#32) v =
      kernelEntry (page * 4096) v := by
  rcases ascending_kmapAt above below with ⟨low, text, data, devices, _⟩
  -- The lines with their numbers: first page, number of pages, first frame.
  have shape : (kmapAt (page * 4096)).foldl (fun map k => Building.line k map) (fun _ => 0#32) v =
      if 0xFE000 <= v /\ v < 0x100000 then frameAddr (0xFE000 + (v - 0xFE000)) ||| PTE_W ||| PTE_P
      else if page <= v /\ v < 0x8E000 then frameAddr (page - 0x80000 + (v - page)) ||| PTE_W ||| PTE_P
      else if 0x80100 <= v /\ v < page then frameAddr (0x100 + (v - 0x80100)) ||| 0#32 ||| PTE_P
      else if 0x80000 <= v /\ v < 0x80100 then frameAddr (0 + (v - 0x80000)) ||| PTE_W ||| PTE_P
      else 0#32 := by
    have second : 0x80100 + pagesOf ⟨KERNLINK, KERNLINK - KERNBASE, page * 4096 - KERNBASE, 0#32⟩ =
        page := by
      simp only [pagesOf, KERNLINK, KERNBASE]
      omega
    have start : firstOf ⟨page * 4096, page * 4096 - KERNBASE, PHYSTOP, PTE_W⟩ = page :=
      Nat.mul_div_cancel page (by decide)
    have third : page + pagesOf ⟨page * 4096, page * 4096 - KERNBASE, PHYSTOP, PTE_W⟩ = 0x8E000 := by
      simp only [pagesOf, KERNBASE, PHYSTOP]
      omega
    have phys : (page * 4096 - KERNBASE) / 4096 = page - 0x80000 := by
      simp only [KERNBASE]
      omega
    have fourth : firstOf ⟨DEVSPACE, DEVSPACE, 0, PTE_W⟩ = 0xFE000 := rfl
    have last : 0xFE000 + pagesOf ⟨DEVSPACE, DEVSPACE, 0, PTE_W⟩ = 0x100000 := rfl
    have first : firstOf ⟨KERNLINK, KERNLINK - KERNBASE, page * 4096 - KERNBASE, 0#32⟩ = 0x80100 :=
      show KERNLINK / 4096 = 0x80100 by decide
    have base : firstOf ⟨KERNBASE, 0, EXTMEM, PTE_W⟩ = 0x80000 := rfl
    have top : 0x80000 + pagesOf ⟨KERNBASE, 0, EXTMEM, PTE_W⟩ = 0x80100 := rfl
    have frames : DEVSPACE / 4096 = 0xFE000 /\ (KERNLINK - KERNBASE) / 4096 = 0x100 /\
        0 / 4096 = 0 := ⟨rfl, rfl, rfl⟩
    simp only [kmapAt, List.foldl, line_apply low, line_apply text, line_apply data,
      line_apply devices, second, start, third, phys, fourth, last, first, base, top, frames]
  rw [shape, kernelEntry]
  by_cases device : 0xFE000 <= v /\ v < 0x100000
  · rw [if_pos device, if_neg (show ¬ (0x80000 <= v /\ v < 0x8E000) by omega), if_pos device,
      Nat.add_sub_cancel' device.1]
  · rw [if_neg device]
    by_cases kernel : 0x80000 <= v /\ v < 0x8E000
    · rw [if_pos kernel]
      by_cases writable : page <= v
      · have plain : ¬ (KERNLINK <= v * 4096 /\ v * 4096 < page * 4096) := by omega
        rw [if_pos ⟨writable, kernel.2⟩, if_neg plain,
          show page - 0x80000 + (v - page) = v - 0x80000 by omega]
      · rw [if_neg fun both => writable both.1]
        by_cases text : 0x80100 <= v /\ v < page
        · have inside : KERNLINK <= v * 4096 /\ v * 4096 < page * 4096 := by
            unfold KERNLINK
            omega
          rw [if_pos text, if_pos inside, show 0x100 + (v - 0x80100) = v - 0x80000 by omega]
        · have plain : ¬ (KERNLINK <= v * 4096 /\ v * 4096 < page * 4096) := by
            unfold KERNLINK
            omega
          rw [if_neg text, if_pos (show 0x80000 <= v /\ v < 0x80100 by omega), if_neg plain, Nat.zero_add]
    · rw [if_neg kernel, if_neg device, if_neg (show ¬ (page <= v /\ v < 0x8E000) by omega),
        if_neg (show ¬ (0x80100 <= v /\ v < page) by omega),
          if_neg (show ¬ (0x80000 <= v /\ v < 0x80100) by omega)]

/-- Where the page table takes an address. -/
def translate (mem : Memory) (d va : Nat) : Option Nat :=
  (target (entry mem d (va / 4096))).map fun f => f * 4096 + va % 4096

/-- The page table of `d` maps the kernel and nothing else. -/
structure KernelMap (data : Nat) (mem : Memory) (d : Nat) : Prop where
  translates : ∀ va, va < 2 ^ 32 -> translate mem d va =
    if KERNBASE <= va /\ va < KERNBASE + PHYSTOP then some (va - KERNBASE)
    else if DEVSPACE <= va then some va else none
  readonly : ∀ va, va < 2 ^ 32 -> translate mem d va ≠ none ->
    (permits mem d va false true = false <-> KERNLINK <= va /\ va < data)
  supervisor : ∀ va, va < 2 ^ 32 -> HasFlag (entry mem d (va / 4096)) PTE_U = false

section Entries

variable {data d : Nat} {mem : Memory}

theorem hasFlag_kernelEntry_U (data v : Nat) : HasFlag (kernelEntry data v) PTE_U = false := by
  have plain : ∀ f perm, perm = 0#32 ∨ perm = PTE_W ->
      HasFlag (frameAddr f ||| perm ||| PTE_P) PTE_U = false := by
    rintro f perm (rfl | rfl) <;> simp [hasFlag_or,
      hasFlag_frameAddr f (show PTE_U.toNat < 2 ^ 12 by decide)]
  unfold kernelEntry
  split
  next =>
    apply plain
    split
    next => exact .inl rfl
    next => exact .inr rfl
  next =>
    split
    next => exact plain _ _ (.inr rfl)
    next => exact hasFlag_zero PTE_U

theorem target_kernelEntry (data v : Nat) : target (kernelEntry data v) =
    if 0x80000 <= v /\ v < 0x8E000 then some (v - 0x80000)
    else if 0xFE000 <= v /\ v < 0x100000 then some v else none := by
  unfold kernelEntry
  by_cases memory : 0x80000 <= v /\ v < 0x8E000
  · rw [if_pos memory, if_pos memory]
    refine target_entry (by omega) ?_
    split
    next => decide
    next => decide
  · rw [if_neg memory, if_neg memory]
    by_cases device : 0xFE000 <= v /\ v < 0x100000
    · rw [if_pos device, if_pos device]
      exact target_entry (by omega) (by decide)
    · rw [if_neg device, if_neg device, target_zero]

theorem hasFlag_kernelEntry_W {v : Nat} (mapped : target (kernelEntry data v) ≠ none) :
    HasFlag (kernelEntry data v) PTE_W = false <->
    v < 0x8E000 /\ KERNLINK <= v * 4096 /\ v * 4096 < data := by
  have flags : ∀ f perm, HasFlag (frameAddr f ||| perm ||| PTE_P) PTE_W = HasFlag perm PTE_W := by
    intro f perm
    rw [hasFlag_or, hasFlag_or, hasFlag_frameAddr f (by decide), hasFlag_P_W, Bool.false_or,
      Bool.or_false]
  rw [target_kernelEntry] at mapped
  unfold kernelEntry
  by_cases memory : 0x80000 <= v /\ v < 0x8E000
  · rw [if_pos memory, flags]
    by_cases text : KERNLINK <= v * 4096 /\ v * 4096 < data
    · rw [if_pos text, hasFlag_zero]
      exact ⟨fun _ => ⟨memory.2, text⟩, fun _ => rfl⟩
    · rw [if_neg text, hasFlag_W_W]
      exact ⟨fun impossible => (by cases impossible), fun inside => absurd inside.2 text⟩
  · rw [if_neg memory] at mapped ⊢
    by_cases device : 0xFE000 <= v /\ v < 0x100000
    · rw [if_pos device, flags, hasFlag_W_W]
      exact ⟨fun impossible => (by cases impossible), fun inside => by omega⟩
    · rw [if_neg device] at mapped
      exact absurd rfl mapped

theorem kernelMap_of_entries (entries : ∀ v, v < 0x100000 -> entry mem d v = kernelEntry data v)
    (writable : ∀ i, i < 1024 -> target (mem d i) ≠ none -> HasFlag (mem d i) PTE_W = true)
    (aligned : data % 4096 = 0) (below : data < KERNBASE + PHYSTOP) : KernelMap data mem d := by
  have page : ∀ {va}, va < 2 ^ 32 -> va / 4096 < 0x100000 := fun small => by omega
  constructor
  case translates =>
    intro va small
    rw [translate, entries _ (page small), target_kernelEntry]
    by_cases memory : 0x80000 <= va / 4096 /\ va / 4096 < 0x8E000
    · have inside : KERNBASE <= va /\ va < KERNBASE + PHYSTOP := by
        unfold KERNBASE PHYSTOP
        omega
      have address : (va / 4096 - 0x80000) * 4096 + va % 4096 = va - KERNBASE := by
        unfold KERNBASE
        omega
      rw [if_pos memory, if_pos inside, <- address]
      rfl
    · have outside : ¬ (KERNBASE <= va /\ va < KERNBASE + PHYSTOP) := by
        unfold KERNBASE PHYSTOP
        omega
      rw [if_neg memory, if_neg outside]
      have device : (0xFE000 <= va / 4096 /\ va / 4096 < 0x100000) <-> DEVSPACE <= va := by
        unfold DEVSPACE
        omega
      by_cases high : DEVSPACE <= va
      · rw [if_pos (device.mpr high), if_pos high]
        exact congrArg some (Nat.div_add_mod' va 4096)
      · rw [if_neg fun inside => high (device.mp inside), if_neg high]
        rfl
  case readonly =>
    intro va small mapped
    have there : target (kernelEntry data (va / 4096)) ≠ none := by
      rw [<- entries _ (page small)]
      exact fun none => mapped (by rw [translate, none]; rfl)
    have present : HasFlag (kernelEntry data (va / 4096)) PTE_P = true := by
      by_contra absent
      exact there (target_eq_none_iff.mpr (Bool.eq_false_iff.mpr absent))
    have table : target (mem d (va / 4096 / 1024)) ≠ none := by
      intro missing
      have zero := entries _ (page small)
      rw [entry_of_none missing] at zero
      rw [<- zero, target_zero] at there
      exact there rfl
    have directory : HasFlag (mem d (va / 4096 / 1024)) PTE_P = true := by
      by_contra absent
      exact table (target_eq_none_iff.mpr (Bool.eq_false_iff.mpr absent))
    have range : (va / 4096 < 0x8E000 /\ KERNLINK <= va / 4096 * 4096 /\ va / 4096 * 4096 < data) <->
        KERNLINK <= va /\ va < data := by
      unfold KERNBASE PHYSTOP at below
      unfold KERNLINK
      omega
    rw [permits, entries _ (page small), directory, present, writable _ (by omega) table, <- range,
      ← hasFlag_kernelEntry_W there]
    simp
  case supervisor =>
    intro va small
    rw [entries _ (page small)]
    exact hasFlag_kernelEntry_U data _

end Entries

/-! ## The call -/

section Setupkvm

variable {s : Kernel}

/-- The page directory before its first page table. -/
theorem Building.start {d : Nat} {rest : List Nat} (nodup : (d :: rest).Nodup)
    (small : ∀ f, f ∈ d :: rest -> f < 2 ^ 20) (mem : Memory) :
    Building (fun f => f ∈ d :: rest) mem (d :: rest).length d (fun _ => 0#32)
      (update mem d fun _ => 0#32)
      rest := by
  have zero : ∀ j, target (update mem d (fun _ => 0#32) d j) = none := by
    intro j
    rw [update_self, target_zero]
  have none : tableSet (update mem d fun _ => 0#32) d = ∅ := by
    rw [Finset.eq_empty_iff_forall_notMem]
    exact fun i inside => (mem_tableSet.mp inside).2 (zero i)
  rcases List.nodup_cons.mp nodup with ⟨fresh, later⟩
  constructor
  case toTree =>
    constructor
    case nodup => exact later
    case small => exact fun f inside => small f (List.mem_cons_of_mem _ inside)
    case spare => exact fun f inside => List.mem_cons_of_mem _ inside
    case dir => exact ⟨List.mem_cons_self, fresh⟩
    case table =>
      intro i f _ found
      rw [zero] at found
      cases found
    case distinct =>
      intro i j f _ _ found
      rw [zero] at found
      cases found
    case entries => exact fun v _ => entry_of_none (zero _)
    case kept =>
      intro f other
      refine update_of_ne ?_ ..
      rintro rfl
      exact other List.mem_cons_self
  case writable => exact fun i _ found => absurd (zero i) found
  case kernel =>
    rw [none]
    exact Finset.empty_subset _
  case count =>
    rw [none, Finset.card_empty, List.length_cons]

theorem setupkvmAt_spec (page : Nat) (above : 0x80100 < page) (below : page < 0x8E000)
    (nodup : s.freelist.Nodup) (small : ∀ f, f ∈ s.freelist -> f < 2 ^ 20) :
    Ensures (setupkvmAt (page * 4096)) s
      (fun found t => (found = none /\ t.freelist = [] /\ s.freelist.length < 65) ∨
        ∃ d, found = some d /\
          Building (fun f => f ∈ s.freelist) s.mem s.freelist.length d
            (kernelEntry (page * 4096)) t.mem t.freelist)
      (fun _ _ => False) := by
  rw [setupkvmAt, ensures_bind]
  refine kalloc_rule (fun empty => ?_) fun d rest list => ?_
  · rw [ensures_pure]
    refine .inl ⟨rfl, empty, ?_⟩
    rw [empty]
    decide
  · simp only [ensures_bind, ensures_writePage]
    rw [if_neg (by decide)]
    rw [list] at nodup small ⊢
    refine (Building.setupkvmLoop (kmapAt (page * 4096)) (fun _ => 0#32) _ 0x80000
      (.start nodup small s.mem)
      (ascending_kmapAt above below) (fun _ _ => rfl) fun i => (needs_kmapAt above below i).mp).imp ?_
    rintro found t (⟨rfl, none, few⟩ | ⟨rfl, built⟩)
    · exact .inl ⟨rfl, none, few⟩
    · rw [funext (foldl_kmapAt above below)] at built
      exact .inr ⟨d, rfl, built⟩

end Setupkvm

/-- `setupkvm` returns the kernel map, unless `kalloc` has no page left. -/
theorem setupkvm_kernelMap {data : Nat} (aligned : data % 4096 = 0) (above : KERNLINK < data)
    (below : data < KERNBASE + PHYSTOP) {s : Kernel} (nodup : s.freelist.Nodup)
    (memory : ∀ f, f ∈ s.freelist -> f * 4096 < PHYSTOP) :
    ∃ found t, setupkvmAt data s = .ok found t /\
      (found = none -> t.freelist = [] /\ s.freelist.length < 65) /\ ∀ d, found = some d ->
      KernelMap data t.mem d := by
  have whole : data = data / 4096 * 4096 := by omega
  unfold KERNLINK at above
  unfold KERNBASE PHYSTOP at below
  have spec := setupkvmAt_spec (data / 4096) (by omega) (by omega) nodup fun f listed => by
    have inside := memory f listed
    unfold PHYSTOP at inside
    omega
  rw [<- whole] at spec
  rcases spec.exists_ok with ⟨found, t, run, ⟨rfl, empty, few⟩ | ⟨d, rfl, built⟩⟩
  · exact ⟨none, t, run, fun _ => ⟨empty, few⟩, fun d impossible => by cases impossible⟩
  · refine ⟨some d, t, run, fun impossible => (by cases impossible), fun d' same => ?_⟩
    cases same
    exact kernelMap_of_entries built.entries built.writable aligned below

/-- A kernel map in 65 free pages. -/
theorem setupkvm_kernelMap_full : ∃ found t,
    setupkvmAt 0x8010a000 { onePage with freelist := List.range' 4 65 } = .ok found t /\
      (found = none -> t.freelist = [] /\ (List.range' 4 65).length < 65) /\
      ∀ d, found = some d -> KernelMap 0x8010a000 t.mem d := by
  refine setupkvm_kernelMap (by decide) (by decide) (by decide)
    (s := { onePage with freelist := List.range' 4 65 }) ?_ ?_
  · exact show (List.range' 4 65).Nodup by decide
  · exact show ∀ f ∈ List.range' 4 65, f * 4096 < PHYSTOP by decide

end Xv6.System
