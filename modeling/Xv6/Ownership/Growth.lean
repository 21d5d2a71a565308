import Mathlib.Order.Interval.Finset.Nat
import Xv6.Ownership.Release

namespace Xv6.Ownership

open Library Machine Memory
open Function
open Scope (whole view_whole)

/-!
# Growing user memory: `allocuvm`

`allocuvm` maps zeroed pages one by one and does not look at the result of
`mappages`.  A mapping fails when the last free frame went into the page and
none is left for its page table.  If more pages are wanted, the next `kalloc`
fails and everything is given back, apart from that frame.  If it was the last
page, `allocuvm` reports success over a page that is not mapped.

`supply` tells these outcomes apart from the number of free frames and the page
tables that exist.
-/

/-! ## Outcomes -/

inductive Supply where
  /-- Every page gets a frame. -/
  | full
  /-- The last page has no page table, and its frame is lost. -/
  | hole
  /-- A page gets no frame.  In the leaky case the page before it lost one. -/
  | fails (leaky : Bool)
  deriving DecidableEq

/-- What mapping `n` pages from page `v` on meets, with the page tables at
`tables` and a number of free frames. -/
def supply : Nat -> Finset Nat -> Nat -> Nat -> Supply
  | 0, _, _, _ => .full
  | n + 1, tables, v, free =>
    if free = 0 then .fails false
    else if v / 1024 ∈ tables then supply n tables (v + 1) (free - 1)
    else if free = 1 then
      if n = 0 then .hole else .fails true
    else supply n (insert (v / 1024) tables) (v + 1) (free - 2)

/-- Whether no frame is lost. -/
def Supply.clean : Supply -> Bool
  | .full => true
  | .hole => false
  | .fails leaky => !leaky

/-- One page that got its frames. -/
theorem supply_succ {tables tables' : Finset Nat} {n v free free' : Nat}
    (more : tables' = insert (v / 1024) tables)
    (length : free' + tables'.card + 1 = free + tables.card) :
    supply (n + 1) tables v free = supply n tables' (v + 1) free' := by
  subst more
  rw [supply]
  by_cases inside : v / 1024 ∈ tables
  · rw [Finset.insert_eq_of_mem inside] at length ⊢
    have left : free - 1 = free' := by omega
    rw [if_neg (by omega), if_pos inside, left]
  · rw [Finset.card_insert_of_notMem inside] at length
    have left : free - 2 = free' := by omega
    rw [if_neg (by omega), if_neg inside, if_neg (by omega), left]

theorem supply_none (tables : Finset Nat) (n v : Nat) :
    supply (n + 1) tables v 0 = .fails false := by
  rw [supply, if_pos rfl]

/-- One page whose page table could not be made. -/
theorem supply_last {tables : Finset Nat} {n v : Nat} (missing : v / 1024 ∉ tables) :
    supply (n + 1) tables v 1 = if n = 0 then .hole else .fails true := by
  rw [supply, if_neg (by decide), if_neg missing, if_pos rfl]

variable [L : Layout]

/-- The pages from `lo` on up to, not including, `hi` were added to `d`.  Page
`w` has a frame of its own with the content `page w`, and the flags `flags w`
beside `PTE_P`. -/
structure Grown (flags : Nat -> Word) (page : Nat -> Nat -> Word) (ρ ρ' : Nat -> Role) (dirs : Finset Nat)
    (d lo hi : Nat) (s t : Kernel) : Prop where
  sound : Sound ρ' (whole dirs) t
  grows : Grows d ρ ρ' s t
  entries : ∀ d' w, d' ∈ dirs -> w < 0x100000 -> ¬ (d' = d /\ lo <= w /\ w < hi) ->
    entry t.mem d' w = entry s.mem d' w
  added : ∀ w, lo <= w -> w < hi -> ∃ g,
    entry t.mem d w = frameAddr g ||| flags w ||| PTE_P /\ target (entry t.mem d w) = some g /\
      ρ g = .free /\ ρ' g = .user w /\ t.mem g = page w
  tables : tableSet t.mem d = tableSet s.mem d ∪ (Finset.Ico lo hi).image (fun w => w / 1024)
  length : t.freelist.length + (tableSet t.mem d).card + (hi - lo) =
    s.freelist.length + (tableSet s.mem d).card
  count : t.pteArray = s.pteArray
  noLeak : ∀ f, ρ' f = .held -> ρ f = .held

/-- The pages that `allocuvm` adds. -/
abbrev Zeroed := Grown (fun _ => PTE_W ||| PTE_U) (fun _ _ => 0#32)

namespace Grown

variable {flags : Nat -> Word} {page : Nat -> Nat -> Word} {ρ ρ' ρ'' : Nat -> Role} {dirs : Finset Nat}
  {d lo mid hi : Nat} {s t u : Kernel}

theorem refl (sound : Sound ρ (whole dirs) s) (d lo : Nat) :
    Grown flags page ρ ρ dirs d lo lo s s where
  sound := sound
  grows := .refl d ρ s
  entries _ _ _ _ _ := rfl
  added w above below := by omega
  tables := by simp
  length := by omega
  count := rfl
  noLeak _ held := held

theorem trans (first : Grown flags page ρ ρ' dirs d lo mid s t)
    (second : Grown flags page ρ' ρ'' dirs d mid hi t u) (member : d ∈ dirs) (before : lo <= mid)
    (after : mid <= hi) (top : hi <= 0x100000) : Grown flags page ρ ρ'' dirs d lo hi s u where
  sound := second.sound
  grows := first.grows.trans second.grows
  entries d' w member' bound outside :=
    (second.entries d' w member' bound fun inside => outside ⟨inside.1, by omega, inside.2.2⟩).trans
      (first.entries d' w member' bound fun inside => outside ⟨inside.1, inside.2.1, by omega⟩)
  added w above below := by
    by_cases early : w < mid
    · rcases first.added w above early with ⟨g, cell, filled, free, used, content⟩
      have same := second.entries d w member (by omega) (by omega)
      refine ⟨g, same.trans cell, (congrArg target same).trans filled, free, ?_, ?_⟩
      · exact (second.grows.roles g (by simp [used]) (by simp [used])).trans used
      · exact (second.grows.content g w used).trans content
    · rcases second.added w (by omega) below with ⟨g, cell, filled, free, used, content⟩
      exact ⟨g, cell, filled, first.grows.taken g free, used, content⟩
  tables := by
    rw [second.tables, first.tables, Finset.union_assoc, <- Finset.image_union,
      Finset.Ico_union_Ico_eq_Ico before after]
  length := by
    have one := first.length
    have two := second.length
    omega
  count := second.count.trans first.count
  noLeak f held := first.noLeak f (second.noLeak f held)

/-- The new pages belong to `d` alone. -/
theorem alone (grown : Grown flags page ρ ρ' dirs d lo hi s t) (sound : Sound ρ (whole dirs) s)
    {w g : Nat} (above : lo <= w) (below : w < hi) (top : hi <= 0x80000)
    (filled : target (entry t.mem d w) = some g) :
    ((whole dirs).sharersOf t.mem w g).card <= 1 := by
  rcases grown.added w above below with ⟨_, _, filled', free, _, _⟩
  rw [filled'] at filled
  cases filled
  rw [Finset.card_le_one]
  have only : ∀ d', d' ∈ (whole dirs).sharersOf t.mem w g -> d' = d := by
    intro d' shared
    rcases mem_sharers.mp shared with ⟨member', filled'⟩
    rw [targets, view_whole] at filled'
    by_contra ne
    rw [grown.entries d' w member' (by omega) (fun inside => ne inside.1)] at filled'
    have old := sound.pages.page d' w g member' (by omega) (by rw [view_whole, filled'])
    rw [free] at old
    cases old
  intro a sharesA b sharesB
  rw [only a sharesA, only b sharesB]

end Grown

/-! ## Giving back -/

/-- A growth that did not come to its end: the pages before `mid` are there. -/
structure Partly (ρ ρ' : Nat -> Role) (dirs : Finset Nat) (d lo mid : Nat) (s t : Kernel) : Prop where
  sound : Sound ρ' (whole dirs) t
  grows : Grows d ρ ρ' s t
  entries : ∀ d' w, d' ∈ dirs -> w < 0x100000 -> ¬ (d' = d /\ lo <= w /\ w < mid) ->
    entry t.mem d' w = entry s.mem d' w
  alone : ∀ w g, lo <= w -> w < mid -> target (entry t.mem d w) = some g ->
    ((whole dirs).sharersOf t.mem w g).card <= 1
  present : ∀ w, lo <= w -> w < mid -> target (entry t.mem d w) ≠ none
  tabled : ∀ w, lo <= w -> w < mid -> target (t.mem d (w / 1024)) ≠ none
  fresh : ∀ w g, lo <= w -> w < mid -> target (entry t.mem d w) = some g -> ρ g = .free
  count : t.pteArray = s.pteArray

/-- A growth that failed and gave its pages back. -/
structure Failed (ρ ρ' : Nat -> Role) (dirs : Finset Nat) (d lo hi : Nat) (s t : Kernel) : Prop where
  sound : Sound ρ' (whole dirs) t
  keeps : Keeps (fun d' => d' = d) ρ ρ' s t
  entries : ∀ w, w < 0x100000 -> entry t.mem d w = entry s.mem d w ∨
    lo <= w /\ w < hi /\ entry t.mem d w = 0#32
  content : ∀ f v, ρ f = .user v -> ρ' f = .user v -> t.mem f = s.mem f
  count : t.pteArray = s.pteArray

/-- A growth that failed over nothing has left the entries and the frames in use as they were. -/
structure Restored (ρ ρ' : Nat -> Role) (d : Nat) (s t : Kernel) : Prop where
  entries : ∀ w, w < 0x100000 -> entry t.mem d w = entry s.mem d w
  taken : ∀ f, ρ' f = .free -> ρ f = .free
  roles : ∀ f, ρ f ≠ .free -> ρ f ≠ .held -> ρ' f = ρ f

section Allocuvm

variable {flags : Nat -> Word} {page : Nat -> Nat -> Word} {ρ ρ₁ : Nat -> Role} {dirs : Finset Nat}
  {d lo mid oldsz newsz : Nat} {s t : Kernel}

theorem Grown.partly (grown : Grown flags page ρ ρ₁ dirs d lo mid s t)
    (sound : Sound ρ (whole dirs) s) (top : mid <= 0x80000) : Partly ρ ρ₁ dirs d lo mid s t where
  sound := grown.sound
  grows := grown.grows
  entries := grown.entries
  alone _ _ above below filled := grown.alone sound above below top filled
  present w above below := by
    rcases grown.added w above below with ⟨g, _, filled, _⟩
    rw [filled]
    nofun
  tabled w above below := by
    have inside : w / 1024 ∈ tableSet t.mem d := by
      rw [grown.tables, Finset.mem_union, Finset.mem_image]
      exact .inr ⟨w, Finset.mem_Ico.mpr ⟨above, below⟩, rfl⟩
    exact (mem_tableSet.mp inside).2
  fresh w g above below filled := by
    rcases grown.added w above below with ⟨g', _, filled', free, _⟩
    rw [filled'] at filled
    cases filled
    exact free
  count := grown.count

/-- The way back of `allocuvm`. -/
theorem deallocuvm_back (partly : Partly ρ ρ₁ dirs d lo mid s t) (sound : Sound ρ (whole dirs) s)
    (member : d ∈ dirs) (within : mid <= (newsz + 4095) / 4096)
    (unshared : Unshared dirs d (lo * 4096) newsz s.mem) (start : PGROUNDUP oldsz = lo * 4096)
    (order : oldsz < newsz) (top : newsz <= 2 ^ 31) :
    Ensures (deallocuvm d newsz oldsz) t
      (fun _ u => ∃ ρ', Failed ρ ρ' dirs d lo ((newsz + 4095) / 4096) s u /\
        (∀ f, ρ' f = .held <-> ρ₁ f = .held) /\ tableSet u.mem d = tableSet t.mem d /\
        ((∀ w, lo <= w -> w < (newsz + 4095) / 4096 -> target (entry s.mem d w) = none) ->
          Restored ρ ρ' d s u) /\
        ((∀ w, lo <= w -> w < (newsz + 4095) / 4096 -> target (entry t.mem d w) = none) -> u = t))
      (fun _ _ => False) := by
  have here : Unshared dirs d (lo * 4096) newsz t.mem := by
    intro w f above below filled
    by_cases early : w < mid
    · exact partly.alone w f (by omega) early filled
    · rw [partly.entries d w member (by omega) (by omega)] at filled
      have same : (whole dirs).sharersOf t.mem w f = (whole dirs).sharersOf s.mem w f := by
        refine sharers_congr fun d' member' => congrArg target ?_
        rw [view_whole, view_whole, partly.entries d' w member' (by omega) (by omega)]
      rw [same]
      exact unshared w f above below filled
  rw [deallocuvm, if_neg (by omega), start, ensures_bind]
  refine (deallocuvmLoop_shrink member top newsz ρ₁ t (lo * 4096) (by omega) (by omega) partly.sound
    here).imp ?_
  rintro _ u ⟨ρ', shrunk⟩
  rw [ensures_pure]
  have entries : ∀ w, w < 0x100000 -> entry u.mem d w = entry s.mem d w ∨
      lo <= w /\ w < (newsz + 4095) / 4096 /\ entry u.mem d w = 0#32 := by
    intro w bound
    rcases shrunk.entries w bound with same | ⟨above, below, gone⟩
    · by_cases inside : lo <= w /\ w < mid
      · right
        refine ⟨inside.1, by omega, shrunk.cleared w (by omega) (by omega) fun w' first last => ?_⟩
        exact partly.tabled w' (by omega) (by omega)
      · left
        rw [same, partly.entries d w member bound (fun both => inside both.2)]
    · exact .inr ⟨by omega, by omega, gone⟩
  refine ⟨ρ', ⟨shrunk.sound, partly.grows.keeps.trans shrunk.releases.keeps, entries, ?_,
    shrunk.count.trans partly.count⟩,
      fun f => ⟨shrunk.releases.noLeak, shrunk.held partly.sound member top⟩,
    tableSet_congr shrunk.directory, ?_, ?_⟩
  · intro f v used still
    exact (shrunk.releases.content f v still).trans (partly.grows.content f v used)
  · intro empty
    have taken : ∀ f, ρ' f = .free -> ρ f = .free := by
      intro f free
      rcases shrunk.gave f free with before | ⟨w, above, below, filled⟩
      · exact partly.grows.taken f before
      · by_cases early : w < mid
        · exact partly.fresh w f (by omega) early filled
        · rw [partly.entries d w member (by omega) (by omega), empty w (by omega) (by omega)] at filled
          cases filled
    refine ⟨fun w bound => ?_, taken, fun f used loose => ?_⟩
    · rcases entries w bound with same | ⟨above, below, gone⟩
      · exact same
      · have zero := sound.pages.absent d w member (by omega) (by rw [view_whole, empty w above below])
        rw [view_whole] at zero
        rw [gone, zero]
    · rcases shrunk.releases.roles f with same | free
      · rw [same, partly.grows.roles f used loose]
      · exact absurd (taken f free) used
  · intro empty
    exact shrunk.idle fun v above below => empty v (by omega) (by omega)

/-- Map one page, once it has a frame with its content. -/
theorem grow_page (flags : Nat -> Word) (page : Nat -> Nat -> Word) {v g : Nat} {rest : List Nat}
    (sound : Sound ρ (whole dirs) s) (member : d ∈ dirs) (bound : v < 0x80000)
    (list : s.freelist = g :: rest) (small : (flags v).toNat < 2 ^ 12) :
    Ensures (mappages d (v * 4096) PGSIZE (frameAddr g) (flags v))
      (Kernel.setMem { s with freelist := rest } (update s.mem g (page v)))
      (fun failed t => ∃ ρ',
        (failed = -1 /\ rest = [] /\ v / 1024 ∉ tableSet s.mem d /\ Partly ρ ρ' dirs d v v s t /\
            tableSet t.mem d = tableSet s.mem d /\ t.freelist = [] /\ ρ g = .free /\ ρ' g = .held) ∨
          (failed = 0 /\ (v / 1024 ∈ tableSet s.mem d ∨ rest ≠ []) /\
            target (entry s.mem d v) = none /\ Grown flags page ρ ρ' dirs d v (v + 1) s t))
      (fun reason _ => reason = .panic "remap" /\ target (entry s.mem d v) ≠ none) := by
  have free : ρ g = .free := (sound.frames.free_iff g).mp (by rw [list]; exact List.mem_cons_self)
  have ne : ∀ f, ρ f ≠ .free -> f ≠ g := by
    rintro f used rfl
    exact used free
  have held : update ρ g .held g = .held := update_self ..
  have taken := sound.take list
  have zeroed := taken.writeFrame (f := g) (page v) (by rw [held]; rfl)
  have grown : Grows d ρ (update ρ g .held) s
      (Kernel.setMem { s with freelist := rest } (update s.mem g (page v))) :=
    (Grows.take sound member list).trans (.fill taken member held _)
  have unchanged : ∀ f, f ≠ g -> update s.mem g (page v) f = s.mem f :=
    fun f apart => update_of_ne apart ..
  have sameEntry : ∀ d' w, d' ∈ dirs -> w < 0x100000 ->
      entry (update s.mem g (page v)) d' w = entry s.mem d' w := by
    intro d' w member' inside
    refine sound.tables.entry_congr (fun f structural => unchanged f ?_)
      (Scope.reaches_whole member' inside)
    apply ne
    intro free'
    rw [free'] at structural
    cases structural
  have directory : ρ d = .dir := (sound.tables.dir_iff d).mpr member
  have sameTables : tableSet (update s.mem g (page v)) d = tableSet s.mem d :=
    tableSet_congr (unchanged d (ne d (by simp [directory])))
  rw [mappages_page (by omega) (by omega)]
  refine (mappage_fresh zeroed member (v := v) (by omega) bound (by omega) held small).mono ?_ ?_
  · rintro failed t (⟨rfl, rfl, empty, missing⟩ | ⟨rfl, absent, count, ρ', mapped, role⟩)
    · refine ⟨update ρ g .held, .inl ⟨rfl, empty, ?_, ?_, sameTables, empty, free, held⟩⟩
      · rw [<- sameTables, mem_tableSet]
        intro inside
        exact inside.2 missing
      · exact ⟨zeroed, grown, fun d' w member' inside _ => sameEntry d' w member' inside,
          fun w _ above below => by omega,
          fun w above below => by
            omega, fun w above below => by omega, fun w _ above below => by omega, rfl⟩
    · change target (entry (update s.mem g (page v)) d v) = none at absent
      rw [sameEntry d v member (by omega)] at absent
      have tables := mapped.tables
      change tableSet t.mem d = insert (v / 1024) (tableSet (update s.mem g (page v)) d) at tables
      rw [sameTables] at tables
      have length := mapped.length
      change t.freelist.length + (tableSet t.mem d).card =
        rest.length + (tableSet (update s.mem g (page v)) d).card at length
      rw [sameTables] at length
      refine ⟨ρ', .inr ⟨rfl, ?_, absent, ?_⟩⟩
      · by_cases inside : v / 1024 ∈ tableSet s.mem d
        · exact .inl inside
        · right
          rintro rfl
          rw [tables, Finset.card_insert_of_notMem inside, List.length_nil] at length
          omega
      · refine { sound := mapped.sound, grows := grown.trans mapped.grows, entries := ?_, added := ?_,
                 tables := ?_, length := ?_, count := count, noLeak := ?_ }
        · intro d' w member' inside outside
          rw [mapped.entry d' w member' inside, if_neg (fun both => outside ⟨both.1, by omega, by omega⟩)]
          exact sameEntry d' w member' inside
        · intro w above below
          have same : w = v := by omega
          subst same
          have cell := (mapped.entry d w member (by omega)).trans (if_pos ⟨rfl, rfl⟩)
          refine ⟨g, cell, ?_, free, role, ?_⟩
          · rw [cell]
            exact target_entry (sound.frame_lt (by simp [free])) small
          · refine (mapped.content g (by rw [held]; simp) (by rw [held]; rfl)).trans ?_
            exact update_self ..
        · rw [tables]
          ext i
          simp
        · rw [list, List.length_cons]
          omega
        · intro f heldNow
          have apart : f ≠ g := by
            rintro rfl
            rw [role] at heldNow
            cases heldNow
          exact (update_of_ne apart ..).symm.trans (mapped.noLeak f heldNow)
  · rintro reason t ⟨rfl, present⟩
    refine ⟨rfl, ?_⟩
    rw [<- sameEntry d v member (by omega)]
    exact present

/-- A frame was lost after the pages before `mid` had been added. -/
private theorem Grown.waste {ρ₂ : Nat -> Role} {u : Kernel}
    (grown : Grown flags page ρ ρ₁ dirs d lo mid s t) (wasted : Partly ρ₁ ρ₂ dirs d mid mid t u)
    (same : tableSet u.mem d = tableSet t.mem d) (sound : Sound ρ (whole dirs) s)
    (member : d ∈ dirs) (top : mid <= 0x80000) : Partly ρ ρ₂ dirs d lo mid s u := by
  have before := grown.partly sound top
  have entries : ∀ d' w, d' ∈ dirs -> w < 0x100000 -> entry u.mem d' w = entry t.mem d' w :=
    fun d' w member' bound => wasted.entries d' w member' bound (by omega)
  refine ⟨wasted.sound, grown.grows.trans wasted.grows, ?_, ?_, ?_, ?_, ?_,
    wasted.count.trans grown.count⟩
  · intro d' w member' bound outside
    exact (entries d' w member' bound).trans (grown.entries d' w member' bound outside)
  · intro w g above below filled
    rw [entries d w member (by omega)] at filled
    have sharing : (whole dirs).sharersOf u.mem w g = (whole dirs).sharersOf t.mem w g := by
      refine sharers_congr fun d' member' => congrArg target ?_
      rw [view_whole, view_whole, entries d' w member' (by omega)]
    rw [sharing]
    exact before.alone w g above below filled
  · intro w above below
    rw [entries d w member (by omega)]
    exact before.present w above below
  · intro w above below
    have inside : w / 1024 ∈ tableSet u.mem d := by
      rw [same]
      exact mem_tableSet.mpr ⟨by omega, before.tabled w above below⟩
    exact (mem_tableSet.mp inside).2
  · intro w g above below filled
    rw [entries d w member (by omega)] at filled
    exact before.fresh w g above below filled

/-- The page tables of a growth that failed at page `mid`. -/
structure FailedAt (d lo mid hi : Nat) (s t : Kernel) : Prop where
  above : lo <= mid
  below : mid < hi
  tables : tableSet t.mem d = tableSet s.mem d ∪ (Finset.Ico lo mid).image (fun w => w / 1024)
  length : (tableSet t.mem d).card + (mid - lo) = s.freelist.length + (tableSet s.mem d).card

/-- A growth to page `hi` that reports success over a missing last page has used up memory. -/
structure Hole (d lo hi : Nat) (s t : Kernel) : Prop where
  freelist : t.freelist = []
  missing : (hi - 1) / 1024 ∉ tableSet t.mem d
  tables : tableSet t.mem d = tableSet s.mem d ∪ (Finset.Ico lo (hi - 1)).image (fun w => w / 1024)

/-- What `allocuvm` has done when it returns, by what the free frames allow. -/
def AllocDone (outcome : Supply) (result newsz : Nat) (ρ ρ' : Nat -> Role) (dirs : Finset Nat)
    (d lo : Nat) (s t : Kernel) : Prop :=
  match outcome with
  | .full => result = newsz /\ Zeroed ρ ρ' dirs d lo ((newsz + 4095) / 4096) s t
  | .hole => result = newsz /\ lo < (newsz + 4095) / 4096 /\
      Partly ρ ρ' dirs d lo ((newsz + 4095) / 4096 - 1) s t /\ Hole d lo ((newsz + 4095) / 4096) s t
  | .fails leaky => result = 0 /\ Failed ρ ρ' dirs d lo ((newsz + 4095) / 4096) s t /\
      (leaky = false -> (∀ f, ρ' f = .held -> ρ f = .held) /\
        ∃ mid, FailedAt d lo mid ((newsz + 4095) / 4096) s t) /\
      (leaky = true -> ∃ f, ρ f = .free /\ ρ' f = .held) /\
      ((∀ w, lo <= w -> w < (newsz + 4095) / 4096 -> target (entry s.mem d w) = none) ->
        Restored ρ ρ' d s t)

/-- The loop of `allocuvm`, after it has added the pages before `v`. -/
theorem allocuvmLoop_spec (sound : Sound ρ (whole dirs) s) (member : d ∈ dirs)
    (unshared : Unshared dirs d (lo * 4096) newsz s.mem) (start : PGROUNDUP oldsz = lo * 4096)
    (rounded : oldsz <= lo * 4096) (top : newsz <= 2 ^ 31) (n : Nat) :
    ∀ (ρ₁ : Nat -> Role) (t : Kernel) (v : Nat), (newsz + 4095) / 4096 = v + n -> lo <= v ->
      Zeroed ρ ρ₁ dirs d lo v s t ->
      Ensures (allocuvmLoop d oldsz newsz (v * 4096)) t
        (fun result u => ∃ ρ',
          AllocDone (supply n (tableSet t.mem d) v t.freelist.length) result newsz ρ ρ' dirs d lo s
            u)
        (fun reason _ => reason = .panic "remap" /\ ∃ w,
          lo <= w /\ w < (newsz + 4095) / 4096 /\ target (entry s.mem d w) ≠ none) := by
  induction n with
  | zero =>
    intro ρ₁ t v total above grown
    rw [allocuvmLoop, dif_neg (by omega), ensures_pure]
    refine ⟨ρ₁, rfl, ?_⟩
    rw [total]
    exact grown
  | succ n ih =>
    intro ρ₁ t v total above grown
    have bound : v < 0x80000 := by omega
    have partly := grown.partly sound (by omega)
    rw [allocuvmLoop, dif_pos (by omega), ensures_bind]
    cases list : t.freelist with
    | nil =>
      rw [ensures_kalloc_nil list, ensures_bind]
      refine (deallocuvm_back partly sound member (by omega) unshared start (by omega) top).mono ?_
        (fun _ _ impossible => impossible.elim)
      rintro _ u ⟨ρ', failed, held, tables, same, _⟩
      rw [ensures_pure]
      have length := grown.length
      rw [list, List.length_nil] at length
      refine ⟨ρ', ?_⟩
      rw [List.length_nil, supply_none]
      refine ⟨rfl, failed, fun _ => ⟨fun f now => grown.noLeak f ((held f).mp now), v, ?_⟩,
        (by rintro ⟨⟩), same⟩
      exact ⟨above, by omega, tables.trans grown.tables, by rw [tables]; omega⟩
    | cons g rest =>
      rw [ensures_kalloc_cons list]
      simp only [ensures_bind, ensures_writePage]
      refine (grow_page (fun _ => PTE_W ||| PTE_U) (fun _ _ => 0#32) grown.sound member bound list
        (by decide)).mono ?_ ?_
      · rintro failed u ⟨ρ₂, ⟨_, rfl, missing, wasted, same, empty, free, lostFrame⟩ | ⟨_, enough,
          absent, page⟩⟩
        · have lost := grown.waste wasted same sound member (by omega)
          have next : v * 4096 + PGSIZE = (v + 1) * 4096 := by
            unfold PGSIZE
            omega
          rw [next, List.length_cons, List.length_nil, supply_last missing]
          by_cases last : n = 0
          · rw [if_pos last, allocuvmLoop, dif_neg (by omega), ensures_pure]
            have final : (newsz + 4095) / 4096 - 1 = v := by omega
            refine ⟨ρ₂, rfl, by omega, ?_, empty, ?_, ?_⟩
            · rw [final]
              exact lost
            · rw [final, same]
              exact missing
            · rw [final, same]
              exact grown.tables
          · rw [if_neg last, allocuvmLoop, dif_pos (by omega), ensures_bind,
              ensures_kalloc_nil empty, ensures_bind]
            refine (deallocuvm_back lost sound member (by omega) unshared start (by omega) top).mono ?_
              (fun _ _ impossible => impossible.elim)
            rintro _ u' ⟨ρ', back, held, _, unchanged, _⟩
            rw [ensures_pure]
            refine ⟨ρ', rfl, back, (by rintro ⟨⟩), fun _ => ⟨g, ?_, ?_⟩, unchanged⟩
            · exact grown.grows.taken g free
            · exact (held g).mpr lostFrame
        · have next : v * 4096 + PGSIZE = (v + 1) * 4096 := by
            unfold PGSIZE
            omega
          have whole := grown.trans page member above (by omega) (by omega)
          have tables : tableSet u.mem d = insert (v / 1024) (tableSet t.mem d) := by
            rw [page.tables]
            ext i
            simp
          have length := page.length
          rw [list, List.length_cons] at length
          have step : supply (n + 1) (tableSet t.mem d) v (rest.length + 1) =
              supply n (tableSet u.mem d) (v + 1) u.freelist.length := supply_succ tables (by omega)
          rw [next, List.length_cons, step]
          exact ih ρ₂ u (v + 1) (by omega) (by omega) whole
      · rintro reason u ⟨rfl, present⟩
        refine ⟨rfl, v, above, by omega, ?_⟩
        rw [grown.entries d v member (by omega) (by omega)] at present
        exact present

omit L in
theorem PGROUNDUP_eq {sz : Nat} (small : sz <= 2 ^ 31) :
    PGROUNDUP sz = (sz + 4095) / 4096 * 4096 := by
  unfold PGROUNDUP PGSIZE
  omega

/-- `allocuvm` from one size to a larger one. -/
theorem allocuvm_spec (sound : Sound ρ (whole dirs) s) (member : d ∈ dirs)
    (unshared : Unshared dirs d oldsz newsz s.mem) (order : oldsz <= newsz)
    (top : newsz < KERNBASE) :
    Ensures (allocuvm d oldsz newsz) s
      (fun result t => ∃ ρ',
        AllocDone (supply ((newsz + 4095) / 4096 - (oldsz + 4095) / 4096) (tableSet s.mem d)
          ((oldsz + 4095) / 4096) s.freelist.length) result newsz ρ ρ' dirs d
            ((oldsz + 4095) / 4096) s t)
      (fun reason _ => reason = .panic "remap" /\ ∃ w,
        (oldsz + 4095) / 4096 <= w /\ w < (newsz + 4095) / 4096 /\
        target (entry s.mem d w) ≠ none) := by
  have below : newsz < 2 ^ 31 := top
  have start := PGROUNDUP_eq (show oldsz <= 2 ^ 31 by omega)
  rw [allocuvm, if_neg (by omega), if_neg (by omega), start]
  refine allocuvmLoop_spec sound member ?_ start (by omega) (by omega) _ ρ s _ (by omega) le_rfl
    (.refl sound d _)
  intro v f above under
  exact unshared v f (by omega) under

end Allocuvm

end Xv6.Ownership
