import Xv6.Ownership.Keeps
import Xv6.Ownership.Sound

namespace Xv6.Ownership

open Library Machine Memory
open Function
open Scope (whole reaches_whole)

/-!
# Adding entries: `walkpgdir` and `mappages`

The functions here only take frames from the free list and add entries to one
page table.  `Grows` is what they have in common.  The specifications name the
exact number of frames taken, because the callers behave differently when one
frame is left than when none is.
-/

variable [L : Layout]

/-! ## Growth -/

/-- An operation on `d` that takes free frames and adds entries. -/
structure Grows (d : Nat) (ρ ρ' : Nat -> Role) (s t : Kernel) : Prop where
  keeps : Keeps (fun d' => d' = d) ρ ρ' s t
  roles : ∀ f, ρ f ≠ .free -> ρ f ≠ .held -> ρ' f = ρ f
  taken : ∀ f, ρ' f = .free -> ρ f = .free
  content : ∀ f v, ρ f = .user v -> t.mem f = s.mem f
  entries : ∀ v, v < 0x100000 -> HasFlag (entry s.mem d v) PTE_P = true ->
    entry t.mem d v = entry s.mem d v
  fresh : ∀ v f, v < 0x80000 -> ρ f = .user v -> target (entry t.mem d v) = some f ->
    target (entry s.mem d v) = some f
  quiet : ρ s.cr3 = .dir -> TlbOk s -> TlbOk t

namespace Grows

variable {ρ ρ' ρ'' : Nat -> Role} {s t u : Kernel} {d : Nat} {dirs : Finset Nat}

omit L in
theorem refl (d : Nat) (ρ : Nat -> Role) (s : Kernel) : Grows d ρ ρ s s :=
  ⟨.refl _ ρ s, fun _ _ _ => rfl, fun _ free => free, fun _ _ _ => rfl, fun _ _ _ => rfl,
    fun _ _ _ _ found => found, fun _ agrees => agrees⟩

omit L in
theorem trans (first : Grows d ρ ρ' s t) (second : Grows d ρ' ρ'' t u) : Grows d ρ ρ'' s u where
  keeps := first.keeps.trans second.keeps
  roles f notFree notHeld := by
    have same := first.roles f notFree notHeld
    exact (second.roles f (same ▸ notFree) (same ▸ notHeld)).trans same
  taken f free := first.taken f (second.taken f free)
  content f v used := by
    have same := first.roles f (by simp [used]) (by simp [used])
    exact (second.content f v (same.trans used)).trans (first.content f v used)
  entries v bounded present := by
    have same := first.entries v bounded present
    exact (second.entries v bounded (same ▸ present)).trans same
  fresh v f bounded used found := by
    have still : ρ' f = .user v := (first.roles f (by simp [used]) (by simp [used])).trans used
    exact first.fresh v f bounded used (second.fresh v f bounded still found)
  quiet role agrees := by
    have register := first.keeps.cr3
    have still : ρ' s.cr3 = .dir := (first.roles s.cr3 (by simp [role]) (by simp [role])).trans role
    exact second.quiet (register.symm ▸ still) (first.quiet role agrees)

omit L in
/-- One step of growth, from what it does to the frames that are in use. -/
theorem make (tables : Tables ρ (whole dirs) s.mem) (member : d ∈ dirs)
    (rest : t =
      { s with mem := t.mem, freelist := t.freelist, pteArray := t.pteArray, tlb := t.tlb })
    (buffer : ∀ v e, t.tlb v e -> s.loaded v e)
    (roles : ∀ f, ρ f ≠ .free -> ρ f ≠ .held -> ρ' f = ρ f)
    (taken : ∀ f, ρ' f = .free -> ρ f = .free)
    (anchored : ∀ f, (ρ' f).anchored = true -> ρ' f = ρ f)
    (mem : ∀ f, ρ f ≠ .free -> ρ f ≠ .held -> f ≠ d -> (∀ i, ρ f ≠ .table d i) -> t.mem f = s.mem f)
    (entries : ∀ v, v < 0x100000 -> HasFlag (entry s.mem d v) PTE_P = true ->
      entry t.mem d v = entry s.mem d v)
    (fresh : ∀ v f, v < 0x80000 -> ρ f = .user v -> target (entry t.mem d v) = some f ->
      target (entry s.mem d v) = some f) : Grows d ρ ρ' s t := by
  have directory : ρ d = .dir := (tables.dir_iff d).mpr member
  have content : ∀ f v, ρ f = .user v -> t.mem f = s.mem f := by
    intro f v used
    refine mem f (by simp [used]) (by simp [used]) ?_ (by simp [used])
    rintro rfl
    rw [directory] at used
    cases used
  have keeps : Keeps (fun d' => d' = d) ρ ρ' s t := by
    refine .make tables (by simp) rest buffer anchored ?_ ?_
    · intro f kept
      unfold Kept at kept
      have notFree : ρ f ≠ .free := by
        intro free
        simp [free] at kept
      have notHeld : ρ f ≠ .held := by
        intro held
        simp [held] at kept
      refine ⟨roles f notFree notHeld, mem f notFree notHeld ?_ ?_⟩
      · rintro rfl
        simp [directory] at kept
      · intro i role
        simp [role] at kept
    · intro d' v f _ _ _ used _
      exact ⟨(roles f (by simp [used]) (by simp [used])).trans used, content f v used⟩
  refine ⟨keeps, roles, taken, content, entries, fresh, ?_⟩
  intro role agrees
  by_cases same : s.cr3 = d
  · refine agrees.step keeps.cr3 buffer fun v bounded present => ?_
    rw [same] at present ⊢
    rw [entries v bounded present]
    exact .refl present
  · exact keeps.quiet role same agrees

section

variable (sound : Sound ρ (whole dirs) s)

include sound

/-- Take a frame from the list. -/
theorem take {f : Nat} {list : List Nat} (member : d ∈ dirs) (found : s.freelist = f :: list) :
    Grows d ρ (update ρ f .held) s { s with freelist := list } := by
  have free : ρ f = .free := (sound.frames.free_iff f).mp (by rw [found]; exact List.mem_cons_self)
  refine .make sound.tables member rfl (fun v e old => .inl old) ?_ ?_ (fun _ => anchored_update rfl)
    (fun _ _ _ _ _ => rfl) (fun _ _ _ => rfl) (fun _ _ _ _ found => found)
  · intro g notFree _
    apply update_of_ne
    rintro rfl
    exact notFree free
  · intro g freeNow
    exact (of_update freeNow (by simp)).2

/-- Fill a held frame. -/
theorem fill {f : Nat} (member : d ∈ dirs) (held : ρ f = .held)
    (page : Nat -> Word) : Grows d ρ ρ s (s.setMem (update s.mem f page)) := by
  have same : ∀ v, v < 0x100000 -> entry (update s.mem f page) d v = entry s.mem d v := by
    intro v bounded
    refine sound.tables.entry_congr ?_ (reaches_whole member bounded)
    intro g structural
    apply update_of_ne
    rintro rfl
    rw [held] at structural
    cases structural
  refine .make sound.tables member rfl (fun _ _ held => held) (fun _ _ _ => rfl)
    (fun _ free => free) (fun _ _ => rfl) ?_ (fun v bounded _ => same v bounded) ?_
  · intro g _ notHeld _ _
    apply update_of_ne
    rintro rfl
    exact notHeld held
  · intro v g bounded _ found
    exact (congrArg target (same v (by omega))).symm.trans found

/-- Write an entry where there was none. -/
theorem addEntry {v table : Nat} {e : Word} (member : d ∈ dirs) (bounded : v < 0x100000)
    (present : target (s.mem d (v / 1024)) = some table) (empty : target (entry s.mem d v) = none)
    (roles : ∀ f, ρ f ≠ .free -> ρ f ≠ .held -> ρ' f = ρ f)
    (taken : ∀ f, ρ' f = .free -> ρ f = .free)
    (anchored : ∀ f, (ρ' f).anchored = true -> ρ' f = ρ f)
    (unused : ∀ f, v < 0x80000 -> target e = some f -> ρ f ≠ .user v) :
    Grows d ρ ρ' s (s.setMem (setPte s.mem d v e)) := by
  have reached := reaches_whole member bounded
  refine .make sound.tables member rfl (fun _ _ held => held) roles taken anchored ?_ ?_ ?_
  · intro f _ _ _ other
    exact sound.tables.setPte_other reached present (other _)
  · intro v' bounded' present'
    refine (sound.tables.entry_setPte reached present (reaches_whole member bounded')).trans (if_neg ?_)
    rintro ⟨_, rfl⟩
    rw [target_eq_none_iff.mp empty] at present'
    cases present'
  · intro v' f bounded' used found
    have cell := sound.tables.entry_setPte (e := e) reached present
      (reaches_whole member (show v' < 0x100000 by omega))
    change target (entry (setPte s.mem d v e) d v') = some f at found
    rw [cell] at found
    by_cases here : d = d /\ v' = v
    · rw [if_pos here] at found
      rcases here with ⟨_, rfl⟩
      exact absurd used (unused f bounded' found)
    · rw [if_neg here] at found
      exact found

end

end Grows

/-! ## `walkpgdir` with allocation -/

/-- The indices at which a directory has a page table. -/
@[irreducible] def tableSet (m : Memory) (d : Nat) : Finset Nat :=
  (Finset.range 1024).filter (fun i => target (m d i) ≠ none)

omit L in
theorem mem_tableSet {m : Memory} {d i : Nat} :
    i ∈ tableSet m d <-> i < 1024 /\ target (m d i) ≠ none := by
  simp [tableSet]

omit L in
theorem tableSet_congr {m n : Memory} {d : Nat} (same : n d = m d) :
    tableSet n d = tableSet m d := by
  unfold tableSet
  rw [same]

omit L in
theorem tableSet_of_link {m n : Memory} {d i table : Nat} (index : i < 1024)
    (present : target (n d i) = some table) (others : ∀ j, j ≠ i -> n d j = m d j) :
    tableSet n d = insert i (tableSet m d) := by
  ext j
  rw [Finset.mem_insert, mem_tableSet, mem_tableSet]
  by_cases same : j = i
  · subst same
    simp [present, index]
  · simp [same, others j same]

/-- The entry of page `v` of `d` has a page table, after at most one frame was
taken for it. -/
structure Ready (ρ ρ' : Nat -> Role) (dirs : Finset Nat) (d v table : Nat) (s t : Kernel) : Prop where
  sound : Sound ρ' (whole dirs) t
  present : target (t.mem d (v / 1024)) = some table
  grows : Grows d ρ ρ' s t
  roles : ∀ f, ρ f ≠ .free -> ρ' f = ρ f
  mem : ∀ f, ρ f ≠ .free -> f ≠ d -> t.mem f = s.mem f
  noLeak : ∀ f, ρ' f = .held -> ρ f = .held
  entries : ∀ d' v', d' ∈ dirs -> v' < 0x100000 -> entry t.mem d' v' = entry s.mem d' v'
  tables : tableSet t.mem d = insert (v / 1024) (tableSet s.mem d)
  length : t.freelist.length + (tableSet t.mem d).card = s.freelist.length + (tableSet s.mem d).card
  count : t.pteArray = s.pteArray

omit L in
/-- The directory entry that `walkpgdir` writes. -/
theorem pde_link {table : Nat} (bounded : table < 2 ^ 20) :
    target (frameAddr table ||| PTE_P ||| PTE_W ||| PTE_U) = some table /\
      HasFlag (frameAddr table ||| PTE_P ||| PTE_W ||| PTE_U) PTE_W = true /\
        HasFlag (frameAddr table ||| PTE_P ||| PTE_W ||| PTE_U) PTE_U = true := by
  refine ⟨target_eq_some_iff.mpr ⟨by simp [hasFlag_or], ?_⟩, by simp [hasFlag_or], by simp [hasFlag_or]⟩
  rw [frameOf_or _ (by decide), frameOf_or _ (by decide), frameOf_or _ (by decide),
    frameOf_frameAddr bounded]

section Walk

variable {ρ : Nat -> Role} {dirs : Finset Nat} {s : Kernel} {d v va : Nat}

/-- The second half of making a page table: a held frame of zeroes is put into
the directory. -/
private theorem grows_link {table : Nat} (sound : Sound ρ (whole dirs) s) (member : d ∈ dirs)
    (bounded : v < 0x100000) (missing : target (s.mem d (v / 1024)) = none) (held : ρ table = .held)
    (zero : ∀ j, j < 1024 -> s.mem table j = 0#32) :
    let pde := frameAddr table ||| PTE_P ||| PTE_W ||| PTE_U
    let t := s.setMem (setWord s.mem d (v / 1024) pde)
    let ρ' := update ρ table (.table d (v / 1024))
    Sound ρ' (whole dirs) t /\ Grows d ρ ρ' s t /\ target (t.mem d (v / 1024)) = some table /\
      ∀ d' v', d' ∈ dirs -> v' < 0x100000 -> entry t.mem d' v' = entry s.mem d' v' := by
  intro pde t ρ'
  have small : table < 2 ^ 20 := by
    have bound := (sound.frames.allocatable table (by simp [held])).lt
    omega
  rcases pde_link small with ⟨filled, writable, user⟩
  rcases sound.link member (by omega) (by simp) held zero missing filled writable user with ⟨linked, same⟩
  have entries : ∀ d' v', d' ∈ dirs -> v' < 0x100000 -> entry t.mem d' v' = entry s.mem d' v' :=
    fun d' v' member' bounded' => same d' v' (reaches_whole member' bounded')
  refine ⟨linked, ?_, ?_, entries⟩
  · refine .make sound.tables member rfl (fun _ _ old => old) ?_ ?_ (fun _ => anchored_update rfl) ?_
      (fun v' bounded' _ => entries d v' member bounded')
      (fun v' f bounded' _ found => (congrArg target (entries d v' member (by omega))).symm.trans found)
    · intro f _ notHeld
      apply update_of_ne
      rintro rfl
      exact notHeld held
    · intro f free
      exact (of_update free (by simp)).2
    · intro f _ _ other _
      exact setWord_other other
  · exact (congrArg target ((setWord_apply ..).trans (if_pos ⟨rfl, rfl⟩))).trans filled

/-- `walkpgdir` with allocation fails only when no frame is left for the page
table that is missing. -/
theorem walkpgdir_alloc (sound : Sound ρ (whole dirs) s) (member : d ∈ dirs) (page : va / 4096 = v)
    (small : va < 2 ^ 32) :
    Ensures (walkpgdir d va true) s
      (fun found t =>
        (found = none /\ t = s /\ s.freelist = [] /\ target (s.mem d (v / 1024)) = none) ∨
          ∃ table ρ', found = some (table, v % 1024) /\ Ready ρ ρ' dirs d v table s t)
      (fun _ _ => False) := by
  have bounded : v < 0x100000 := by omega
  subst page
  rw [walkpgdir, ensures_bind, ensures_readWord, PDX_eq small, PTX_eq]
  by_cases present : HasFlag (s.mem d (va / 4096 / 1024)) PTE_P = true
  · have table := target_of_present present
    rw [if_pos present, ensures_pure]
    refine .inr ⟨_, ρ, rfl, ?_⟩
    refine { sound := sound, present := table, grows := .refl d ρ s, roles := fun _ _ => rfl,
             mem := fun _ _ _ => rfl, noLeak := fun _ held => held, entries := fun _ _ _ _ => rfl,
             tables := (Finset.insert_eq_of_mem ?_).symm, length := rfl, count := rfl }
    exact mem_tableSet.mpr ⟨by omega, by simp [table]⟩
  · have missing : target (s.mem d (va / 4096 / 1024)) = none :=
      target_eq_none_iff.mpr (by simpa using present)
    rw [if_neg present, if_pos rfl, ensures_bind]
    cases list : s.freelist with
    | nil =>
      rw [ensures_kalloc_nil list, ensures_pure]
      exact .inl ⟨rfl, rfl, rfl, missing⟩
    | cons table rest =>
      rw [ensures_kalloc_cons list]
      simp only [ensures_bind, ensures_writePage, ensures_writeWord, ensures_pure]
      have free : ρ table = .free :=
        (sound.frames.free_iff table).mp (by rw [list]; exact List.mem_cons_self)
      have directory : ρ d = .dir := (sound.tables.dir_iff d).mpr member
      have ne : ∀ f, ρ f ≠ .free -> f ≠ table := by
        rintro f used rfl
        exact used free
      have separate : d ≠ table := ne d (by simp [directory])
      have taken := sound.take list
      have held : update ρ table .held table = .held := update_self ..
      have zeroed := taken.writeFrame (f := table) (fun _ => 0#32) (by rw [held]; rfl)
      have unchanged : ∀ f, f ≠ table -> update s.mem table (fun _ => 0#32) f = s.mem f :=
        fun f ne => update_of_ne ne ..
      have blank : ∀ j, j < 1024 -> update s.mem table (fun _ => 0#32) table j = 0#32 := by
        intro j _
        rw [update_self]
      rcases grows_link zeroed member bounded
        ((congrArg target (congrFun (unchanged d separate) _)).trans missing) held
        blank with
        ⟨linked, grown, present', entries⟩
      rw [update_idem] at linked grown
      have others : ∀ i, i ≠ va / 4096 / 1024 ->
          setWord (update s.mem table (fun _ => 0#32)) d (va / 4096 / 1024)
            (frameAddr table ||| PTE_P ||| PTE_W ||| PTE_U) d i = s.mem d i := by
        intro i elsewhere
        rw [setWord_apply, if_neg (fun both => elsewhere both.2), unchanged d separate]
      have tables := tableSet_of_link (m := s.mem) (by omega) present' others
      refine .inr ⟨table, update ρ table (.table d (va / 4096 / 1024)), rfl, ?_⟩
      refine { sound := linked, present := present', grows := ?_, roles := ?_, mem := ?_, noLeak := ?_,
               entries := ?_, tables := tables, length := ?_, count := rfl }
      · exact ((Grows.take sound member list).trans (.fill taken member held _)).trans grown
      · intro f used
        exact update_of_ne (ne f used) ..
      · intro f used other
        exact (setWord_other other).trans (unchanged f (ne f used))
      · intro f heldNow
        exact (of_update heldNow (by simp)).2
      · intro d' v' member' bounded'
        refine (entries d' v' member' bounded').trans
          (sound.tables.entry_congr ?_ (reaches_whole member' bounded'))
        intro f structural
        apply unchanged
        rintro rfl
        rw [free] at structural
        cases structural
      · have fresh : va / 4096 / 1024 ∉ tableSet s.mem d := by
          rw [mem_tableSet, missing]
          simp
        rw [tables, Finset.card_insert_of_notMem fresh, list, List.length_cons]
        change rest.length + _ = _
        omega

end Walk

/-! ## One pass of `mappages` -/

/-- The entry `e` was added for page `v` of `d`. -/
structure Mapped (ρ ρ' : Nat -> Role) (dirs : Finset Nat) (d v : Nat) (e : Word) (s t : Kernel) :
  Prop where
  sound : Sound ρ' (whole dirs) t
  grows : Grows d ρ ρ' s t
  entry : ∀ d' v', d' ∈ dirs -> v' < 0x100000 ->
    entry t.mem d' v' = if d' = d /\ v' = v then e else entry s.mem d' v'
  tables : tableSet t.mem d = insert (v / 1024) (tableSet s.mem d)
  length : t.freelist.length + (tableSet t.mem d).card = s.freelist.length + (tableSet s.mem d).card
  content : ∀ f, ρ f ≠ .free -> (ρ f).structural = false -> t.mem f = s.mem f
  noLeak : ∀ f, ρ' f = .held -> ρ f = .held

section Map

variable {ρ ρ' ρ₁ : Nat -> Role} {dirs : Finset Nat} {s t : Kernel} {d v va g f table : Nat}
  {e pa perm : Word}

/-- The write after the walk. -/
private theorem Ready.addEntry (ready : Ready ρ ρ₁ dirs d v table s t) (member : d ∈ dirs)
    (bounded : v < 0x100000) (empty : target (entry s.mem d v) = none)
    (sound : Sound ρ' (whole dirs) (t.setMem (setPte t.mem d v e)))
    (roles : ∀ f, ρ₁ f ≠ .free -> ρ₁ f ≠ .held -> ρ' f = ρ₁ f)
    (taken : ∀ f, ρ' f = .free -> ρ₁ f = .free)
    (anchored : ∀ f, (ρ' f).anchored = true -> ρ' f = ρ₁ f)
    (noLeak : ∀ f, ρ' f = .held -> ρ₁ f = .held)
    (unused : ∀ f, v < 0x80000 -> target e = some f -> ρ₁ f ≠ .user v) :
    Mapped ρ ρ' dirs d v e s (t.setMem (setPte t.mem d v e)) := by
  have tables := ready.sound.tables
  have reached := reaches_whole member bounded
  have empty' : target (entry t.mem d v) = none := by
    rw [ready.entries d v member bounded, empty]
  have directory : ρ₁ d = .dir := (tables.dir_iff d).mpr member
  have sameDirectory : setPte t.mem d v e d = t.mem d :=
    tables.setPte_other reached ready.present (by simp [directory])
  have sameTables : tableSet (setPte t.mem d v e) d = tableSet t.mem d := tableSet_congr sameDirectory
  refine { sound := sound, grows := ?_, entry := ?_, tables := sameTables.trans ready.tables,
           length := ?_, content := ?_, noLeak := fun f held => ready.noLeak f (noLeak f held) }
  · exact ready.grows.trans (.addEntry ready.sound member bounded ready.present empty' roles taken
      anchored unused)
  · intro d' v' member' bounded'
    rw [<- ready.entries d' v' member' bounded']
    exact tables.entry_setPte reached ready.present (reaches_whole member' bounded')
  · have length := ready.length
    rw [<- sameTables] at length
    exact length
  · intro f used plain
    have role := ready.roles f used
    have notDirectory : f ≠ d := by
      rintro rfl
      rw [<- role, directory] at plain
      cases plain
    refine (tables.setPte_other reached ready.present ?_).trans (ready.mem f used notDirectory)
    rw [role]
    intro structural
    rw [structural] at plain
    cases plain

/-- How `mappages` treats one page: it fails when there is no frame for the
page table, panics on a present entry, and else writes the entry. -/
theorem mappage_rule (sound : Sound ρ (whole dirs) s) (member : d ∈ dirs) (page : va / 4096 = v)
    (small : va < 2 ^ 32) {returned : Int -> Kernel -> Prop}
    (failed : s.freelist = [] -> target (s.mem d (v / 1024)) = none -> returned (-1) s)
    (written : ∀ ρ₁ table t, Ready ρ ρ₁ dirs d v table s t -> target (entry s.mem d v) = none ->
      returned 0 (t.setMem (setPte t.mem d v (pa ||| perm ||| PTE_P)))) :
    Ensures (mappage d va pa perm) s returned
      (fun reason _ => reason = .panic "remap" /\ target (entry s.mem d v) ≠ none) := by
  rw [mappage, ensures_bind]
  refine (walkpgdir_alloc sound member page small).mono ?_ (fun _ _ impossible => impossible.elim)
  rintro _ t (⟨rfl, rfl, list, missing⟩ | ⟨table, ρ₁, rfl, ready⟩)
  · rw [ensures_pure]
    exact failed list missing
  · have bounded : v < 0x100000 := by omega
    have read : t.mem table (v % 1024) = entry s.mem d v := by
      rw [<- ready.entries d v member bounded, entry_of_table ready.present]
    have place : frameOf (t.mem d (v / 1024)) = table := (target_eq_some_iff.mp ready.present).2
    simp only [ensures_bind, ensures_readWord, read]
    by_cases present : HasFlag (entry s.mem d v) PTE_P = true
    · rw [if_pos present, ensures_throw]
      exact ⟨rfl, by simp [target_of_present present]⟩
    · rw [if_neg present]
      simp only [ensures_bind, ensures_writeWord, ensures_pure]
      have empty : target (entry s.mem d v) = none := target_eq_none_iff.mpr (by simpa using present)
      have done := written ρ₁ table t ready empty
      rw [setPte, place] at done
      exact done

omit L in
/-- The entry for a frame and flags. -/
theorem target_entry (small : g < 2 ^ 20) (flags : perm.toNat < 2 ^ 12) :
    target (frameAddr g ||| perm ||| PTE_P) = some g := by
  refine target_eq_some_iff.mpr ⟨by simp [hasFlag_or], ?_⟩
  rw [frameOf_or _ (by decide), frameOf_or _ flags, frameOf_frameAddr small]

theorem Sound.frame_lt (sound : Sound ρ (whole dirs) s) (moved : ρ g ≠ .fixed) : g < 2 ^ 20 := by
  have bound := (sound.frames.allocatable g moved).lt
  omega

/-- Map a held frame as a user page. -/
theorem mappage_fresh (sound : Sound ρ (whole dirs) s) (member : d ∈ dirs) (page : va / 4096 = v)
    (bounded : v < 0x80000) (small : va < 2 ^ 32) (held : ρ g = .held)
    (flags : perm.toNat < 2 ^ 12) :
    Ensures (mappage d va (frameAddr g) perm) s
      (fun failed t =>
        (failed = -1 /\ t = s /\ s.freelist = [] /\ target (s.mem d (v / 1024)) = none) ∨
          (failed = 0 /\ target (entry s.mem d v) = none /\ t.pteArray = s.pteArray /\ ∃ ρ',
            Mapped ρ ρ' dirs d v (frameAddr g ||| perm ||| PTE_P) s t /\ ρ' g = .user v))
      (fun reason _ => reason = .panic "remap" /\ target (entry s.mem d v) ≠ none) := by
  refine mappage_rule sound member page small (fun list missing => .inl ⟨rfl, rfl, list, missing⟩) ?_
  intro ρ₁ table t ready empty
  have heldStill : ρ₁ g = .held := (ready.roles g (by simp [held])).trans held
  have empty' : target (entry t.mem d v) = none := by
    rw [ready.entries d v member (by omega), empty]
  have filled := target_entry (g := g) (ready.sound.frame_lt (by simp [heldStill])) flags
  have mapped := ready.sound.mapFresh (t := t.setMem (setPte t.mem d v (frameAddr g ||| perm ||| PTE_P)))
    member bounded (by simp) ready.present empty' heldStill filled rfl rfl rfl
  refine .inr ⟨rfl, empty, ready.count, _, ready.addEntry member (by omega) empty mapped ?_ ?_
    (fun _ => anchored_update rfl) ?_ ?_,
    update_self ..⟩
  · intro f _ notHeld
    apply update_of_ne
    rintro rfl
    exact notHeld heldStill
  · intro f free
    exact (of_update free (by simp)).2
  · intro f heldNow
    exact (of_update heldNow (by simp)).2
  · intro f _ found used
    rw [filled] at found
    cases found
    rw [heldStill] at used
    cases used

end Map

end Xv6.Ownership
