import Xv6.System.KernelMap

namespace Xv6.System

open Library Machine Memory Ownership
open Function

/-!
# `copyuvm` makes an independent copy

The child gets frames that were free.  The parent's frames were not, so the two address
spaces have no frame in common, and no store in one of them changes what is in the other.
A copy of more than the user half never succeeds: the kernel half of the child is mapped
already.
-/

/-! ## Address spaces that share nothing -/

/-- A frame of a page table that maps user pages. -/
def Paging (m : Memory) (d f : Nat) : Prop := f = d ∨ ∃ i, i < 512 /\ target (m d i) = some f

/-- A frame that is a user page. -/
def Data (m : Memory) (d f : Nat) : Prop := ∃ v, v < 0x80000 /\ target (entry m d v) = some f

/-- What a user page has in it, if there is one. -/
def view (m : Memory) (d v : Nat) : Option (Nat -> Word) := (target (entry m d v)).map m

/-- The user pages of `d` are not part of a page table, and not pages of `d'`. -/
structure Confined (m : Memory) (d d' : Nat) : Prop where
  own : ∀ f, Data m d f -> ¬ Paging m d f
  other : ∀ f, Data m d f -> ¬ Paging m d' f
  data : ∀ f, Data m d f -> ¬ Data m d' f

/-- Neither address space reaches into the other. -/
structure Apart (m : Memory) (d d' : Nat) : Prop where
  left : Confined m d d'
  right : Confined m d' d

/-- Stores by the two processes, in any order. -/
inductive Stores (d d' : Nat) : Memory -> Memory -> Prop where
  | refl (m : Memory) : Stores d d' m m
  | left {m n : Memory} {f : Nat} (before : Stores d d' m n) (data : Data n d f) (page : Nat -> Word) :
      Stores d d' m (update n f page)
  | right {m n : Memory} {f : Nat} (before : Stores d d' m n) (data : Data n d' f) (page : Nat -> Word) :
      Stores d d' m (update n f page)

section Independence

variable {m n : Memory} {d d' e f : Nat} {page : Nat -> Word}

theorem Apart.symm (apart : Apart m d d') : Apart m d' d := ⟨apart.right, apart.left⟩

theorem entry_store (outside : ¬ Paging m e f) {v : Nat} (bound : v < 0x80000) :
    entry (update m f page) e v = entry m e v := by
  have directory : update m f page e = m e := update_of_ne (fun same => outside (.inl same.symm)) ..
  refine entry_elsewhere directory fun table found => update_of_ne ?_ ..
  rintro rfl
  exact outside (.inr ⟨v / 1024, by omega, found⟩)

theorem paging_store (outside : ¬ Paging m e f) (g : Nat) :
    Paging (update m f page) e g <-> Paging m e g := by
  have directory : update m f page e = m e := update_of_ne (fun same => outside (.inl same.symm)) ..
  unfold Paging
  rw [directory]

theorem data_store (outside : ¬ Paging m e f) (g : Nat) :
    Data (update m f page) e g <-> Data m e g := by
  refine exists_congr fun v => and_congr_right fun bound => ?_
  rw [entry_store outside bound]

/-- A store by the process of `d`. -/
theorem Apart.store (apart : Apart m d d') (data : Data m d f) (page : Nat -> Word) :
    Apart (update m f page) d d' := by
  have own := apart.left.own f data
  have other := apart.left.other f data
  constructor <;> constructor <;> intro g inside
  all_goals
    simp only [paging_store own, paging_store other, data_store own, data_store other] at inside ⊢
  · exact apart.left.own g inside
  · exact apart.left.other g inside
  · exact apart.left.data g inside
  · exact apart.right.own g inside
  · exact apart.right.other g inside
  · exact apart.right.data g inside

theorem Apart.view_store (apart : Apart m d d') (data : Data m d f) (page : Nat -> Word) {v : Nat}
    (bound : v < 0x80000) : view (update m f page) d' v = view m d' v := by
  unfold view
  rw [entry_store (apart.left.other f data) bound]
  cases found : target (entry m d' v) with
  | none => rfl
  | some g =>
    refine congrArg some (update_of_ne ?_ ..)
    rintro rfl
    exact apart.left.data g data ⟨v, bound, found⟩

theorem Stores.apart (stores : Stores d d' m n) (apart : Apart m d d') : Apart n d d' := by
  induction stores with
  | refl => exact apart
  | left _ data page ih => exact ih.store data page
  | right _ data page ih => exact (ih.symm.store data page).symm

/-- A store of one process, at any time, does not change what the other one sees. -/
def Independent (m : Memory) (d d' : Nat) : Prop :=
  ∀ n, Stores d d' m n -> ∀ f page v, v < 0x80000 ->
    (Data n d f -> view (update n f page) d' v = view n d' v) /\
    (Data n d' f -> view (update n f page) d v = view n d v)

theorem Apart.independent (apart : Apart m d d') : Independent m d d' := by
  intro n stores f page v bound
  have still := stores.apart apart
  exact ⟨fun data => still.view_store data page bound, fun data => still.symm.view_store data page bound⟩

end Independence

/-! ## The loop -/

/-- The page table of the parent has its frames, and none of them is free. -/
structure Parent (s : Kernel) (pgdir : Nat) : Prop where
  dir : pgdir ∉ s.freelist
  table : ∀ i f, i < 1024 -> target (s.mem pgdir i) = some f -> f ∉ s.freelist
  page : ∀ f, Data s.mem pgdir f -> f ∉ s.freelist /\ ¬ Paging s.mem pgdir f

section Copyuvm

variable [L : Layout]

/-- The entries of the child when the pages before `v` have been copied to the frames `frame`. -/
def childMap (s : Kernel) (pgdir v : Nat) (frame : Nat -> Nat) : Nat -> Word := fun w =>
  if w < v then frameAddr (frame w) ||| PTE_FLAGS (entry s.mem pgdir w) ||| PTE_P
  else kernelEntry L.data w

structure Copying (s : Kernel) (pgdir d v : Nat) (frame : Nat -> Nat) (t : Kernel) : Prop where
  tree : Tree (fun f => f ∈ s.freelist /\ ∀ w, w < v -> f ≠ frame w) t.mem d
    (childMap s pgdir v frame) t.mem t.freelist
  present : ∀ w, w < v -> HasFlag (entry s.mem pgdir w) PTE_P = true
  fresh : ∀ w, w < v -> frame w ∈ s.freelist
  distinct : ∀ w w', w < v -> w' < v -> frame w = frame w' -> w = w'
  used : ∀ f, f ∉ s.freelist -> t.mem f = s.mem f
  content : ∀ w, w < v -> t.mem (frame w) = s.mem (frameOf (entry s.mem pgdir w))

omit L in
/-- A tree with another name for its frames, its map and what it leaves alone. -/
theorem Tree.restate {mine mine' : Nat -> Prop} {origin mem : Memory} {d : Nat}
    {map map' : Nat -> Word} {free : List Nat} (tree : Tree mine origin d map mem free)
    (frames : ∀ f, mine f <-> mine' f) (entries : map = map') : Tree mine' mem d map' mem free where
  nodup := tree.nodup
  small := tree.small
  spare f inside := (frames f).mp (tree.spare f inside)
  dir := ⟨(frames d).mp tree.dir.1, tree.dir.2⟩
  table i f low found := ⟨(frames f).mp (tree.table i f low found).1, (tree.table i f low found).2⟩
  distinct := tree.distinct
  entries := by
    rw [<- entries]
    exact tree.entries
  kept _ _ := rfl

namespace Copying

variable {s t : Kernel} {pgdir d v g : Nat} {frame : Nat -> Nat} {rest : List Nat}

theorem childMap_succ (s : Kernel) (pgdir v g : Nat) (frame : Nat -> Nat) :
    update (childMap s pgdir v frame) v (frameAddr g ||| PTE_FLAGS (entry s.mem pgdir v) |||
      PTE_P) = childMap s pgdir (v + 1) (update frame v g) := by
  funext w
  unfold childMap
  by_cases same : w = v
  · subst same
    rw [update_self, if_pos (Nat.lt_succ_self w), update_self]
  · rw [update_of_ne same, update_of_ne same]
    exact if_congr (by omega) rfl rfl

/-- The parent's page table has not changed. -/
theorem entry_parent (copying : Copying s pgdir d v frame t) (parent : Parent s pgdir) {w : Nat}
    (bound : w < 0x100000) : entry t.mem pgdir w = entry s.mem pgdir w := by
  refine entry_elsewhere (copying.used pgdir parent.dir) fun table found => ?_
  exact copying.used table (parent.table _ _ (by omega) found)

/-- A frame is filled with a page of the parent, and mapped. -/
theorem step (copying : Copying s pgdir d v frame t) (top : v <= 0x80000)
    (list : t.freelist = g :: rest) (there : HasFlag (entry s.mem pgdir v) PTE_P = true)
    {page : Nat -> Word} (source : v < 0x80000 -> page = s.mem (frameOf (entry s.mem pgdir v))) :
    Ensures (mappages d (v * 4096) PGSIZE (frameAddr g) (PTE_FLAGS (entry s.mem pgdir v)))
      (Kernel.setMem { t with freelist := rest } (update t.mem g page))
      (fun failed u => failed = -1 /\ rest = [] ∨
        failed = 0 /\ v < 0x80000 /\ Copying s pgdir d (v + 1) (update frame v g) u)
      (fun _ _ => 0x80000 <= v) := by
  have tree := copying.tree
  rw [list] at tree
  rcases tree.spare g List.mem_cons_self with ⟨free, other⟩
  have before : ∀ {w}, w < v + 1 -> w ≠ v -> w < v := fun less ne => by omega
  have old : ∀ {w}, w ≠ v -> update frame v g w = frame w :=
    fun ne => update_of_ne ne ..
  have mine : ∀ f, ((f ∈ s.freelist /\ ∀ w, w < v -> f ≠ frame w) /\ f ≠ g) <->
      f ∈ s.freelist /\ ∀ w, w < v + 1 -> f ≠ update frame v g w := by
    intro f
    constructor
    · grind [update_apply]
    · rintro ⟨listed, apart⟩
      refine ⟨⟨listed, fun w less => ?_⟩, ?_⟩
      · have far := apart w (by omega)
        rwa [old (by omega)] at far
      · have far := apart v (by omega)
        rwa [update_self] at far
  rw [mappages_page (Nat.mul_mod_left v 4096) (by omega)]
  refine ((tree.take page).mappage (t := Kernel.setMem { t with freelist := rest } (update t.mem g page))
    (by omega) _ _).mono ?_ ?_
  rintro failed u (⟨rfl, _, none, _⟩ | ⟨rfl, empty, after, _⟩)
  · exact .inl ⟨rfl, none⟩
  · have user : v < 0x80000 := by
      by_contra high
      have kernel : v = 0x80000 := by omega
      rw [childMap, if_neg (Nat.lt_irrefl v), target_kernelEntry, if_pos (by omega)] at empty
      cases empty
    have kept : ∀ f, ¬ ((f ∈ s.freelist /\ ∀ w, w < v -> f ≠ frame w) /\ f ≠ g) ->
        u.mem f = update t.mem g page f := after.kept
    refine .inr ⟨rfl, user, ?_⟩
    constructor
    case tree => exact after.restate mine (childMap_succ s pgdir v g frame)
    case present =>
      intro w less
      by_cases same : w = v
      · rw [same]
        exact there
      · exact copying.present w (before less same)
    case fresh =>
      intro w less
      by_cases same : w = v
      · rw [same, update_self]
        exact free
      · rw [old same]
        exact copying.fresh w (before less same)
    case distinct =>
      intro w w' less less' equal
      by_cases first : w = v
      · grind [update_apply]
      · grind [update_apply, copying.distinct]
    case used =>
      intro f outside
      rw [kept f fun own => outside own.1.1, update_of_ne, copying.used f outside]
      rintro rfl
      exact outside free
    case content =>
      intro w less
      by_cases same : w = v
      · rw [same, update_self, kept g fun own => own.2 rfl, update_self]
        exact source user
      · grind [update_apply, copying.content]
  · intro _ _ mapped
    by_contra low
    refine mapped.2 ?_
    rw [childMap, if_neg (Nat.lt_irrefl v), target_kernelEntry, if_neg (by omega), if_neg (by omega)]

/-- The loop of `copyuvm`, by induction on the pages left. -/
theorem loop (parent : Parent s pgdir) {sz : Nat} (n : Nat) :
    ∀ (v : Nat) (t : Kernel) (frame : Nat -> Nat),
    sz <= (v + n) * 4096 -> v * 4096 < sz + 4096 -> v <= 0x80000 -> Copying s pgdir d v frame t ->
    Ensures (copyuvmLoop pgdir sz d (v * 4096)) t
      (fun found u => ∀ child, found = some child -> child = d /\ (sz + 4095) / 4096 <= 0x80000 /\
        ∃ frame, Copying s pgdir d ((sz + 4095) / 4096) frame u)
      (fun _ _ => True) := by
  induction n with
  | zero =>
    intro v t frame short reached top copying
    have last : (sz + 4095) / 4096 = v := by omega
    rw [copyuvmLoop, dif_neg (by omega), ensures_pure, last]
    rintro child same
    exact ⟨(Option.some.inj same).symm, top, frame, copying⟩
  | succ n ih =>
    intro v t frame short reached top copying
    by_cases inside : v * 4096 < sz
    · have same := copying.entry_parent parent (w := v) (by omega)
      have giveUp : ∀ u, Ensures (do
          freevm d
          return none : K (Option Nat)) u
          (fun found u => ∀ child, found = some child -> child = d /\ (sz + 4095) / 4096 <= 0x80000 /\
            ∃ frame, Copying s pgdir d ((sz + 4095) / 4096) frame u)
          (fun _ _ => True) := by
        intro u
        rw [ensures_bind]
        refine .of_forall (fun _ after => ?_) (fun _ _ => trivial)
        rw [ensures_pure]
        exact fun child impossible => by cases impossible
      rw [copyuvmLoop, dif_pos inside]
      refine parent_entry (by omega) (fun _ _ _ => trivial) fun f table found _ => ?_
      rw [same] at found ⊢
      rw [ensures_bind]
      refine kalloc_rule (fun _ => giveUp t) fun g rest list => ?_
      simp only [ensures_bind, ensures_get, ensures_writePage]
      have source : v < 0x80000 -> t.mem (frameOf (entry s.mem pgdir v)) =
          s.mem (frameOf (entry s.mem pgdir v)) := by
        intro user
        rw [(target_eq_some_iff.mp found).2]
        exact copying.used f (parent.page f ⟨v, user, found⟩).1
      refine (copying.step top list (target_eq_some_iff.mp found).1 source).mono ?_ (fun _ _ _ => trivial)
      rintro failed u (⟨rfl, _⟩ | ⟨rfl, user, next⟩)
      · rw [if_pos (by decide)]
        exact giveUp u
      · have onward : v * 4096 + PGSIZE = (v + 1) * 4096 := by
          unfold PGSIZE
          omega
        have shorter : sz <= (v + 1 + n) * 4096 := by
          rw [Nat.add_right_comm, Nat.add_assoc]
          exact short
        have further : (v + 1) * 4096 < sz + 4096 := by
          rw [Nat.succ_mul]
          exact Nat.add_lt_add_right inside 4096
        rw [if_neg (by decide), onward]
        exact ih (v + 1) u _ shorter further user next
    · have last : (sz + 4095) / 4096 = v := by omega
      rw [copyuvmLoop, dif_neg inside, ensures_pure, last]
      rintro child same
      exact ⟨(Option.some.inj same).symm, top, frame, copying⟩

end Copying

/-! ## The call -/

omit L in
/-- The flags of an entry that is made of a frame and of the flags of another one. -/
theorem PTE_FLAGS_entry {g : Nat} {e : Word} (present : HasFlag e PTE_P = true) :
    PTE_FLAGS (frameAddr g ||| PTE_FLAGS e ||| PTE_P) = PTE_FLAGS e := by
  have address : frameAddr g &&& 0xFFF#32 = 0#32 :=
    (hasFlag_eq_false_iff _ _).mp (hasFlag_frameAddr g (by decide))
  have one : e &&& PTE_P = PTE_P := by
    have low : e &&& PTE_P = (BitVec.ofBool (e.getLsbD 0)).setWidth 32 :=
      BitVec.and_one_eq_setWidth_ofBool_getLsbD
    unfold HasFlag at present
    rw [low] at present ⊢
    cases bit : e.getLsbD 0 with
    | false =>
      rw [bit] at present
      cases present
    | true => rfl
  have mask : PTE_P &&& 0xFFF#32 = PTE_P := by decide
  unfold PTE_FLAGS
  rw [BitVec.and_or_distrib_right, BitVec.and_or_distrib_right, address, BitVec.zero_or, BitVec.and_assoc,
    BitVec.and_self, mask]
  nth_rewrite 1 [<- one]
  rw [<- BitVec.and_or_distrib_left]
  exact congrArg (e &&& ·) (by decide)

/-- The page table of `d` is a copy of the first `sz` bytes of `pgdir`. -/
structure Copy (s : Kernel) (pgdir sz d : Nat) (t : Kernel) : Prop where
  flags : ∀ v, v * 4096 < sz -> PTE_FLAGS (entry t.mem d v) = PTE_FLAGS (entry s.mem pgdir v)
  page : ∀ v, v * 4096 < sz -> ∃ f g, target (entry s.mem pgdir v) = some f /\
    target (entry t.mem d v) = some g /\ g ∈ s.freelist /\ g ∉ t.freelist /\ t.mem g = s.mem f
  distinct : ∀ v w g, v * 4096 < sz -> w * 4096 < sz -> target (entry t.mem d v) = some g ->
    target (entry t.mem d w) = some g -> v = w
  nothing : ∀ v, sz <= v * 4096 -> v < 0x80000 -> entry t.mem d v = 0#32
  kernel : ∀ v, 0x80000 <= v -> v < 0x100000 -> entry t.mem d v = kernelEntry L.data v
  memory : ∀ f, f ∉ s.freelist -> t.mem f = s.mem f
  parent : ∀ v, v < 0x100000 -> entry t.mem pgdir v = entry s.mem pgdir v
  independent : Independent t.mem d pgdir

namespace Copying

variable {s t : Kernel} {pgdir d n : Nat} {frame : Nat -> Nat}

theorem target_child (copying : Copying s pgdir d n frame t)
    (small : ∀ f, f ∈ s.freelist -> f < 2 ^ 20) {v : Nat} (bound : v < 0x80000) :
    target (entry t.mem d v) = if v < n then some (frame v) else none := by
  rw [copying.tree.entries v (by omega), childMap]
  by_cases inside : v < n
  · rw [if_pos inside, if_pos inside]
    exact target_entry (small _ (copying.fresh v inside)) (PTE_FLAGS_lt _)
  · rw [if_neg inside, if_neg inside, target_kernelEntry, if_neg (by omega), if_neg (by omega)]

variable {f : Nat}

section

variable (copying : Copying s pgdir d n frame t)

include copying

theorem data_child (small : ∀ f, f ∈ s.freelist -> f < 2 ^ 20)
    (data : Data t.mem d f) : ∃ v, v < n /\ f = frame v := by
  rcases data with ⟨v, bound, found⟩
  rw [copying.target_child small bound] at found
  by_cases inside : v < n
  · rw [if_pos inside] at found
    exact ⟨v, inside, (Option.some.inj found).symm⟩
  · rw [if_neg inside] at found
    cases found

theorem data_parent (parent : Parent s pgdir) : Data t.mem pgdir f <-> Data s.mem pgdir f := by
  refine exists_congr fun v => and_congr_right fun bound => ?_
  rw [copying.entry_parent parent (by omega)]

/-- The frames of the child's page table were free. -/
theorem paging_child (paging : Paging t.mem d f) : f ∈ s.freelist /\ ∀ w, w < n -> f ≠ frame w := by
  rcases paging with rfl | ⟨i, low, found⟩
  · exact copying.tree.dir.1
  · exact (copying.tree.table i f (by omega) found).1

theorem paging_parent (parent : Parent s pgdir) :
    Paging t.mem pgdir f <-> Paging s.mem pgdir f := by
  unfold Paging
  rw [copying.used pgdir parent.dir]

theorem apart (parent : Parent s pgdir)
    (small : ∀ f, f ∈ s.freelist -> f < 2 ^ 20) : Apart t.mem d pgdir := by
  have child : ∀ {f}, Data t.mem d f -> f ∈ s.freelist := by
    intro f data
    rcases copying.data_child small data with ⟨v, inside, rfl⟩
    exact copying.fresh v inside
  constructor
  · constructor
    case own =>
      intro f data paging
      rcases copying.data_child small data with ⟨v, inside, rfl⟩
      exact (copying.paging_child paging).2 v inside rfl
    case other =>
      intro f data paging
      rcases (copying.paging_parent parent).mp paging with rfl | ⟨i, low, found⟩
      · exact parent.dir (child data)
      · exact parent.table i f (by omega) found (child data)
    case data => exact fun f data again =>
      (parent.page f ((copying.data_parent parent).mp again)).1 (child data)
  · constructor
    case own =>
      intro f data paging
      exact (parent.page f ((copying.data_parent parent).mp data)).2
        ((copying.paging_parent parent).mp paging)
    case other =>
      intro f data paging
      exact (parent.page f ((copying.data_parent parent).mp data)).1 (copying.paging_child paging).1
    case data => exact fun f data again =>
      (parent.page f ((copying.data_parent parent).mp data)).1 (child again)

end

theorem copy {sz : Nat} (copying : Copying s pgdir d ((sz + 4095) / 4096) frame t)
    (parent : Parent s pgdir) (small : ∀ f, f ∈ s.freelist -> f < 2 ^ 20)
    (top : (sz + 4095) / 4096 <= 0x80000) : Copy s pgdir sz d t := by
  have page : ∀ {v}, v * 4096 < sz -> v < (sz + 4095) / 4096 := fun inside => by omega
  have filled : ∀ {v}, v * 4096 < sz -> target (entry t.mem d v) = some (frame v) := by
    intro v inside
    rw [copying.target_child small (Nat.lt_of_lt_of_le (page inside) top), if_pos (page inside)]
  constructor
  case flags =>
    intro v inside
    rw [copying.tree.entries v (by omega), childMap, if_pos (page inside)]
    exact PTE_FLAGS_entry (copying.present v (page inside))
  case page =>
    intro v inside
    have there := copying.present v (page inside)
    refine ⟨_, frame v, target_of_present there, filled inside, copying.fresh v (page inside),
      fun free => ?_, ?_⟩
    · exact (copying.tree.spare _ free).2 v (page inside) rfl
    · exact copying.content v (page inside)
  case distinct =>
    intro v w g first second here there
    rw [filled first] at here
    rw [filled second] at there
    refine copying.distinct v w (page first) (page second) ?_
    rw [Option.some.inj here, Option.some.inj there]
  case nothing =>
    intro v outside user
    rw [copying.tree.entries v (by omega), childMap, if_neg (by omega), kernelEntry,
      if_neg (by omega), if_neg (by omega)]
  case kernel =>
    intro v low high
    rw [copying.tree.entries v high, childMap, if_neg (by omega)]
  case memory => exact copying.used
  case parent => exact fun v bound => copying.entry_parent parent bound
  case independent => exact (copying.apart parent small).independent

end Copying

/-- The kernel half, before the first page is copied. -/
theorem setupkvm_building {s : Kernel} (nodup : s.freelist.Nodup)
    (small : ∀ f, f ∈ s.freelist -> f < 2 ^ 20) :
    Ensures setupkvm s
      (fun found t => (found = none /\ t.freelist = [] /\ s.freelist.length < 65) ∨
        ∃ d, found = some d /\
          Building (fun f => f ∈ s.freelist) s.mem s.freelist.length d
            (kernelEntry L.data) t.mem t.freelist)
      (fun _ _ => False) := by
  have aligned := L.data_aligned
  have above := L.data_above
  have table := L.ptable_above
  have inside := L.ptable_below
  have high := L.kend_below
  have whole : L.data = L.data / 4096 * 4096 := by omega
  have setup := setupkvmAt_spec (L.data / 4096) (by omega) (by omega) nodup small
  rw [<- whole] at setup
  exact setup

theorem Copying.start {s t : Kernel} {d total : Nat} (pgdir : Nat)
    (built : Building (fun f => f ∈ s.freelist) s.mem total d (kernelEntry L.data) t.mem
      t.freelist) : Copying s pgdir d 0 (fun _ => 0) t := by
  constructor
  case tree =>
    refine built.toTree.restate (fun f => ?_) (funext fun w => (if_neg (Nat.not_lt_zero w)).symm)
    exact ⟨fun listed => ⟨listed, fun w less => absurd less (Nat.not_lt_zero w)⟩, fun both => both.1⟩
  case present => exact fun w less => absurd less (Nat.not_lt_zero w)
  case fresh => exact fun w less => absurd less (Nat.not_lt_zero w)
  case distinct => exact fun w _ less => absurd less (Nat.not_lt_zero w)
  case used => exact built.kept
  case content => exact fun w less => absurd less (Nat.not_lt_zero w)

/-- `copyuvm` returns an independent copy, if it returns a page table. -/
theorem copyuvm_copy {s t : Kernel} {pgdir sz d : Nat} (parent : Parent s pgdir)
    (nodup : s.freelist.Nodup) (memory : ∀ f, f ∈ s.freelist -> f * 4096 < PHYSTOP)
    (run : copyuvm pgdir sz s = .ok (some d) t) : Copy s pgdir sz d t := by
  have small : ∀ f, f ∈ s.freelist -> f < 2 ^ 20 := by
    intro f listed
    have inside := memory f listed
    unfold PHYSTOP at inside
    omega
  have spec : Ensures (copyuvm pgdir sz) s
      (fun found u => ∀ child, found = some child -> (sz + 4095) / 4096 <= 0x80000 /\
        ∃ frame, Copying s pgdir child ((sz + 4095) / 4096) frame u)
      (fun _ _ => True) := by
    rw [copyuvm, ensures_bind]
    refine (setupkvm_building nodup small).mono ?_ (fun _ _ _ => trivial)
    rintro found u (⟨rfl, _⟩ | ⟨e, rfl, built⟩)
    · rw [ensures_pure]
      exact fun child impossible => by cases impossible
    · have first := Copying.start pgdir built
      refine (Copying.loop parent sz 0 u _ (by omega) (by omega) (Nat.zero_le _) first).mono ?_
        (fun _ _ _ => trivial)
      intro found t ends child same
      rcases ends child same with ⟨rfl, rest⟩
      exact rest
  rcases spec.of_ok run d rfl with ⟨top, frame, copying⟩
  exact copying.copy parent small top

end Copyuvm

/-! ### One page -/

/-- The page table of frame 1 has one page, at address 0. -/
def lowPageMemory : Memory := fun frame index =>
  if frame = 1 /\ index = 0 then 0x2007#32 else if frame = 2 /\ index = 0 then 0x3005#32 else 0#32

def lowPage : Kernel := { onePage with mem := lowPageMemory, freelist := List.range' 4 68 }

variable {f : Nat}

theorem lowPage_dir {i : Nat} (found : target (lowPageMemory 1 i) = some f) : i = 0 /\ f = 2 := by
  by_cases first : i = 0
  · subst first
    exact ⟨rfl, (Option.some.inj (found.symm.trans (by decide : target (lowPageMemory 1 0) = some 2)))⟩
  · have zero : lowPageMemory 1 i = 0#32 := by simp [lowPageMemory, first]
    rw [zero, target_zero] at found
    cases found

theorem lowPage_data (data : Data lowPage.mem 1 f) : f = 3 := by
  rcases data with ⟨v, _, found⟩
  rcases table_of_target found with ⟨table, tabled⟩
  rcases lowPage_dir tabled with ⟨_, rfl⟩
  rw [entry_of_table tabled] at found
  change target (lowPageMemory 2 (v % 1024)) = some f at found
  by_cases first : v % 1024 = 0
  · rw [first] at found
    exact Option.some.inj (found.symm.trans (by decide : target (lowPageMemory 2 0) = some 3))
  · have zero : lowPageMemory 2 (v % 1024) = 0#32 := by simp [lowPageMemory, first]
    rw [zero, target_zero] at found
    cases found

theorem lowPage_free : f ∈ lowPage.freelist <-> 4 <= f /\ f < 72 := by
  change f ∈ List.range' 4 68 <-> _
  rw [List.mem_range'_1]

theorem lowPage_parent : Parent lowPage 1 := by
  constructor
  case dir =>
    rw [lowPage_free]
    decide
  case table =>
    intro i f _ found
    rw [(lowPage_dir found).2, lowPage_free]
    decide
  case page =>
    intro f data
    rw [lowPage_data data, lowPage_free]
    refine ⟨by decide, ?_⟩
    rintro (impossible | ⟨i, _, found⟩)
    · cases impossible
    · cases (lowPage_dir found).2

theorem lowPage_frames :
    lowPage.freelist.Nodup /\ ∀ f, f ∈ lowPage.freelist -> f * 4096 < PHYSTOP :=
  ⟨show (List.range' 4 68).Nodup by decide, show ∀ f ∈ List.range' 4 68, f * 4096 < PHYSTOP by decide⟩

theorem lowPage_returns [L : Layout] : ∃ d t, copyuvm 1 4096 lowPage = .ok (some d) t := by
  have spec : Ensures (copyuvm 1 4096) lowPage (fun found _ => found ≠ none) (fun _ _ => False) := by
    rw [copyuvm, ensures_bind]
    refine (setupkvm_building lowPage_frames.1 fun f listed => ?_).imp ?_
    · have range := lowPage_free.mp listed
      omega
    rintro found u (⟨rfl, _, few⟩ | ⟨d, rfl, built⟩)
    · exact absurd few (by decide)
    · have copying := Copying.start 1 built
      have plenty : 3 <= u.freelist.length := by
        have total := built.count
        have most := Finset.card_le_card built.kernel
        rw [card_kernelTables] at most
        change _ = 68 at total
        omega
      have same := copying.entry_parent lowPage_parent (w := 0) (by decide)
      have there : HasFlag (entry lowPage.mem 1 0) PTE_P = true := by decide
      change Ensures (copyuvmLoop 1 4096 d (0 * 4096)) u _ _
      rw [copyuvmLoop, dif_pos (by decide)]
      refine parent_entry (v := 0) (by decide) (fun missing => ?_) fun f table found _ => ?_
      · rw [same, target_of_present there] at missing
        cases missing
      rw [same, ensures_bind]
      refine kalloc_rule (fun none => ?_) fun g rest list => ?_
      · rw [none] at plenty
        exact absurd plenty (by decide)
      simp only [ensures_bind, ensures_get, ensures_writePage]
      rw [same, target_of_present there] at found
      refine (copying.step (Nat.zero_le _) list there fun _ => ?_).mono ?_
        (fun _ _ high => absurd high (by decide))
      · exact copying.used _ (by rw [lowPage_free]; decide)
      · rintro failed t (⟨rfl, none⟩ | ⟨rfl, _, _⟩)
        · rw [list, none, List.length_singleton] at plenty
          exact absurd plenty (by decide)
        · rw [if_neg (by decide), copyuvmLoop, dif_neg (by decide), ensures_pure]
          rintro ⟨⟩
  rcases spec.exists_ok with ⟨found, t, run, some⟩
  rcases Option.ne_none_iff_exists'.mp some with ⟨d, rfl⟩
  exact ⟨d, t, run⟩

/-- A process with one page is copied. -/
theorem copyuvm_copy_one : ∃ d t,
    copyuvm (L := kernelSym) 1 4096 lowPage = .ok (some d) t /\
    Copy (L := kernelSym) lowPage 1 4096 d t := by
  rcases lowPage_returns (L := kernelSym) with ⟨d, t, run⟩
  exact ⟨d, t, run, copyuvm_copy (L := kernelSym) lowPage_parent lowPage_frames.1 lowPage_frames.2 run⟩

end Xv6.System
