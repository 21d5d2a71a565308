import Xv6.Ownership.Mapping

namespace Xv6.Ownership

open Library Machine Memory
open Function
open Scope (whole view_whole)

/-!
# Giving frames back: `deallocuvm`

`deallocuvm` frees a page whose count is below two and clears its entry.  With
a higher count it only lowers the count and leaves the entry.  The rule here is
for a range without shared pages, where the entries are cleared.
-/

variable [L : Layout]

/-- An operation on `d` that only gives frames back. -/
structure Releases (d : Nat) (ρ ρ' : Nat -> Role) (s t : Kernel) : Prop where
  keeps : Keeps (fun d' => d' = d) ρ ρ' s t
  roles : ∀ f, ρ' f = ρ f ∨ ρ' f = .free
  content : ∀ f v, ρ' f = .user v -> t.mem f = s.mem f

namespace Releases

variable {ρ ρ' ρ'' : Nat -> Role} {s t u : Kernel} {d : Nat}

omit L in
theorem refl (d : Nat) (ρ : Nat -> Role) (s : Kernel) : Releases d ρ ρ s s :=
  ⟨.refl _ ρ s, fun _ => .inl rfl, fun _ _ _ => rfl⟩

omit L in
theorem trans (first : Releases d ρ ρ' s t) (second : Releases d ρ' ρ'' t u) :
    Releases d ρ ρ'' s u where
  keeps := first.keeps.trans second.keeps
  roles f := by
    rcases second.roles f with same | free
    · rw [same]
      exact first.roles f
    · exact .inr free
  content f v used := by
    have middle : ρ' f = .user v := by
      rcases second.roles f with same | free
      · exact same.symm.trans used
      · rw [free] at used
        cases used
    exact (second.content f v used).trans (first.content f v middle)

omit L in
/-- Nothing is lost. -/
theorem noLeak (releases : Releases d ρ ρ' s t) {f : Nat} (held : ρ' f = .held) : ρ f = .held := by
  rcases releases.roles f with same | free
  · exact same.symm.trans held
  · rw [free] at held
    cases held

end Releases

section Page

variable {ρ : Nat -> Role} {dirs : Finset Nat} {s : Kernel} {d v f : Nat}

/-- The state after a page was freed and its entry cleared. -/
def released (s : Kernel) (d v f : Nat) : Kernel :=
  (freed s f).setMem (setPte (freed s f).mem d v 0#32)

/-- Free a page that only `d` maps. -/
theorem release_page (sound : Sound ρ (whole dirs) s) (member : d ∈ dirs) (bound : v < 0x80000)
    (filled : target (entry s.mem d v) = some f)
    (single : ((whole dirs).sharersOf s.mem v f).card <= 1) :
    Sound (update ρ f .free) (whole dirs) (released s d v f) /\
      Releases d ρ (update ρ f .free) s (released s d v f) /\
      (∀ d' v', d' ∈ dirs -> v' < 0x100000 ->
        entry (released s d v f).mem d' v' =
          if d' = d /\ v' = v then 0#32 else entry s.mem d' v') /\
      (released s d v f).mem d = s.mem d := by
  have used : ρ f = .user v := sound.pages.page d v f member bound (by rw [view_whole, filled])
  have reached : (whole dirs).Reaches d v := Scope.reaches_whole member (by omega)
  have plain : (ρ f).structural = false := by rw [used]; rfl
  -- overwriting the page first does not touch any table
  have written := sound.writeFrame (freedPage s.freelist) plain
  have sameTables : ∀ g, (ρ g).structural = true ->
      update s.mem f (freedPage s.freelist) g = s.mem g := by
    intro g structural
    apply update_of_ne
    rintro rfl
    rw [plain] at structural
    cases structural
  have sameEntry : ∀ d' v', d' ∈ dirs -> v' < 0x100000 ->
      entry (update s.mem f (freedPage s.freelist)) d' v' = entry s.mem d' v' :=
    fun d' v' member' bounded' => sound.tables.entry_congr sameTables
      (Scope.reaches_whole member' bounded')
  have filled' : target (entry (update s.mem f (freedPage s.freelist)) d v) = some f := by
    rw [sameEntry d v member (by omega), filled]
  rcases table_of_target filled' with ⟨table, present⟩
  have sameShare : (whole dirs).sharersOf (update s.mem f (freedPage s.freelist)) v f =
      (whole dirs).sharersOf s.mem v f :=
    sharers_congr fun d' member' => congrArg target (sound.tables.view_congr sameTables member' bound)
  have small : (s.pteArray f).toNat <= 1 := (sound.pages.counted f v used).2 single
  have cleared := written.unmapLast (t := Kernel.setMem (s.setMem (update s.mem f (freedPage s.freelist)))
      (setPte (update s.mem f (freedPage s.freelist)) d v 0#32)) (c := s.pteArray f)
    member bound (by simp) filled' ((congrArg Finset.card sameShare).le.trans single) small rfl rfl
    (update_eq_self f s.pteArray).symm
  have free := cleared.release (t := released s d v f) (f := f) (by rw [update_self]; rfl) rfl rfl rfl
  rw [update_idem] at free
  have role : update ρ f .free f = .free := update_self ..
  have others : ∀ d', d' ∈ dirs -> d' ≠ d -> ∀ v', v' < 0x80000 ->
      target (entry s.mem d' v') ≠ some f := by
    intro d' member' ne v' bounded' filled''
    have used' := sound.pages.page d' v' f member' bounded' (by rw [view_whole, filled''])
    rw [used] at used'
    cases used'
    exact ne (eq_of_card_sharers_one single ⟨member', by rw [targets, view_whole, filled'']⟩
      ⟨member, by rw [targets, view_whole, filled]⟩)
  have tables' : Tables (update ρ f .free) (whole dirs) (freed s f).mem :=
    (sound.tables.congr sameTables).recast plain rfl
  have unlisted : ∀ g, (∀ w, ρ g ≠ .user w) -> g ≠ f := by
    rintro g other rfl
    exact other v used
  have page : ∀ g, g ≠ f -> (∀ i, ρ g ≠ .table d i) -> (released s d v f).mem g = s.mem g := by
    intro g ne other
    refine (tables'.setPte_other reached present ?_).trans (update_of_ne ne ..)
    rw [update_of_ne ne]
    exact other _
  have first : Keeps (fun d' => d' = d) ρ (update ρ f .free) s (freed s f) := by
    refine .make sound.tables (fun _ _ _ => Scope.stage_whole ..) rfl (fun _ _ old => old)
      (fun _ => anchored_update rfl) ?_ ?_
    · intro g kept
      have ne : g ≠ f := by
        rintro rfl
        unfold Kept at kept
        rw [used] at kept
        exact kept
      exact ⟨update_of_ne ne .., update_of_ne ne ..⟩
    · intro d' v' g member' ne bounded' role' filled''
      have apart : g ≠ f := by
        rintro rfl
        exact others d' member' ne v' bounded' filled''
      exact ⟨(update_of_ne apart ..).trans role', update_of_ne apart ..⟩
  have second : Keeps (fun d' => d' = d) (update ρ f .free) (update ρ f .free) (freed s f)
      (released s d v f) := by
    exact .setEntry s.pteArray tables' (fun _ _ _ => Scope.stage_whole ..) rfl reached present
  refine ⟨free, ⟨first.trans second, ?_, ?_⟩, ?_, ?_⟩
  · intro g
    by_cases same : g = f
    · subst same
      exact .inr role
    · exact .inl (update_of_ne same ..)
  · intro g w role'
    rcases of_update role' (by simp) with ⟨ne, before⟩
    exact page g ne (by simp [before])
  · intro d' v' member' bounded'
    rw [<- sameEntry d' v' member' bounded']
    exact tables'.entry_setPte reached present (Scope.reaches_whole member' bounded')
  · have directory : ρ d = .dir := (sound.tables.dir_iff d).mpr member
    exact page d (unlisted d (by simp [directory])) (by simp [directory])

/-- The three ways of one pass of `deallocuvm` over a page that nobody else has. -/
theorem deallocuvmLoop_pass {oldsz a : Nat} {returned : Unit -> Kernel -> Prop}
    {stopped : Stop -> Kernel -> Prop} (sound : Sound ρ (whole dirs) s) (member : d ∈ dirs)
    (page : a / 4096 = v) (inside : a < oldsz) (top : oldsz <= 2 ^ 31)
    (single : ∀ f, target (entry s.mem d v) = some f ->
      ((whole dirs).sharersOf s.mem v f).card <= 1)
    (missing : target (s.mem d (v / 1024)) = none ->
      Ensures (deallocuvmLoop d oldsz (a + 4194304)) s returned stopped)
    (absent : ∀ table, target (s.mem d (v / 1024)) = some table ->
      target (entry s.mem d v) = none ->
      Ensures (deallocuvmLoop d oldsz (a + 4096)) s returned stopped)
    (mapped : ∀ f, target (entry s.mem d v) = some f ->
      Ensures (deallocuvmLoop d oldsz (a + 4096)) (released s d v f) returned stopped) :
    Ensures (deallocuvmLoop d oldsz a) s returned stopped := by
  have bound : v < 0x80000 := by omega
  have jump : a + (NPTENTRIES - 1) * PGSIZE + PGSIZE = a + 4194304 := by
    unfold NPTENTRIES PGSIZE
    omega
  rw [deallocuvmLoop, dif_pos inside, ensures_bind, ensures_walkpgdir (by omega), page]
  by_cases table : HasFlag (s.mem d (v / 1024)) PTE_P = true
  · rw [if_pos table]
    have present := target_of_present table
    simp only [ensures_bind, ensures_readWord]
    rw [<- entry_of_table present]
    by_cases here : HasFlag (entry s.mem d v) PTE_P = true
    · have filled := target_of_present here
      have used : ρ (frameOf (entry s.mem d v)) = .user v :=
        sound.pages.page d v _ member bound (by rw [view_whole, filled])
      have allocatable := sound.frames.allocatable _ (by rw [used]; simp)
      have nonzero : frameOf (entry s.mem d v) ≠ 0 := by
        have above := allocatable.ge
        omega
      have low : (s.pteArray (frameOf (entry s.mem d v))).toInt < 2 := by
        have count := (sound.pages.counted _ v used).2 (single _ filled)
        rw [BitVec.toInt_eq_toNat_of_lt (by omega)]
        omega
      rw [if_pos here]
      simp only [ensures_bind, ensures_get]
      rw [if_pos low, if_neg nonzero, ensures_bind, ensures_kfree allocatable]
      simp only [ensures_bind, ensures_writeWord]
      have sameDirectory : (freed s (frameOf (entry s.mem d v))).mem d = s.mem d := by
        apply update_of_ne
        intro same
        rw [<- same, (sound.tables.dir_iff d).mpr member] at used
        cases used
      have next := mapped _ filled
      unfold released setPte at next
      rw [sameDirectory] at next
      exact next
    · rw [if_neg here]
      exact absent _ present (target_eq_none_iff.mpr (by simpa using here))
  · rw [if_neg table]
    change Ensures (deallocuvmLoop d oldsz (a + (NPTENTRIES - 1) * PGSIZE + PGSIZE)) s returned stopped
    rw [jump]
    exact missing (target_eq_none_iff.mpr (by simpa using table))

/-- The end of the loop. -/
theorem deallocuvmLoop_done {oldsz a : Nat} {returned : Unit -> Kernel -> Prop}
    {stopped : Stop -> Kernel -> Prop} (outside : oldsz <= a) :
    Ensures (deallocuvmLoop d oldsz a) s returned stopped <-> returned () s := by
  rw [deallocuvmLoop, dif_neg (Nat.not_lt.mpr outside), ensures_pure]

end Page

/-! ## Shrinking -/

/-- The pages of `d` from address `a` to `oldsz` were given back. -/
structure Shrunk (ρ ρ' : Nat -> Role) (dirs : Finset Nat) (d a oldsz : Nat) (s t : Kernel) : Prop where
  sound : Sound ρ' (whole dirs) t
  releases : Releases d ρ ρ' s t
  directory : t.mem d = s.mem d
  entries : ∀ v, v < 0x100000 -> entry t.mem d v = entry s.mem d v ∨
    a <= v * 4096 /\ v * 4096 < oldsz /\ entry t.mem d v = 0#32
  cleared : ∀ v, a <= v * 4096 -> v * 4096 < oldsz ->
    (∀ w, a / 4096 <= w -> w <= v -> target (s.mem d (w / 1024)) ≠ none) -> entry t.mem d v = 0#32
  idle : (∀ v, a <= v * 4096 -> v * 4096 < oldsz -> target (entry s.mem d v) = none) -> t = s
  count : t.pteArray = s.pteArray
  /-- Only the frames of pages in the range are given back. -/
  gave : ∀ f, ρ' f = .free -> ρ f = .free ∨
    ∃ v, a <= v * 4096 /\ v * 4096 < oldsz /\ target (entry s.mem d v) = some f

/-- What nothing refers to stays so. -/
theorem Shrunk.held {ρ ρ' : Nat -> Role} {dirs : Finset Nat} {d a oldsz : Nat} {s t : Kernel}
    (shrunk : Shrunk ρ ρ' dirs d a oldsz s t) (sound : Sound ρ (whole dirs) s) (member : d ∈ dirs)
    (top : oldsz <= 2 ^ 31) {f : Nat} (before : ρ f = .held) : ρ' f = .held := by
  rcases shrunk.releases.roles f with same | free
  · rw [same, before]
  · rcases shrunk.gave f free with wrong | ⟨v, _, below, filled⟩
    · rw [before] at wrong
      cases wrong
    · have used := sound.pages.page d v f member (by omega) (by rw [view_whole]; exact filled)
      rw [before] at used
      cases used

/-- No page in a range of addresses is mapped by another directory. -/
def Unshared (dirs : Finset Nat) (d a oldsz : Nat) (m : Memory) : Prop :=
  ∀ v f, a <= v * 4096 -> v * 4096 < oldsz -> target (entry m d v) = some f ->
    ((whole dirs).sharersOf m v f).card <= 1

/-- `deallocuvm` on a range without shared pages clears it, up to where page
tables are missing. -/
theorem deallocuvmLoop_shrink {dirs : Finset Nat} {d oldsz : Nat} (member : d ∈ dirs)
    (top : oldsz <= 2 ^ 31) (n : Nat) :
    ∀ (ρ : Nat -> Role) (s : Kernel) (a : Nat), oldsz <= a + n * 4096 -> a % 4096 = 0 ->
      Sound ρ (whole dirs) s -> Unshared dirs d a oldsz s.mem ->
      Ensures (deallocuvmLoop d oldsz a) s
        (fun _ t => ∃ ρ', Shrunk ρ ρ' dirs d a oldsz s t) (fun _ _ => False) := by
  induction n with
  | zero =>
    intro ρ s a enough aligned sound unshared
    rw [deallocuvmLoop_done (by omega)]
    refine ⟨ρ, sound, .refl d ρ s, rfl, fun _ _ => .inl rfl, ?_, fun _ => rfl, rfl, fun _ => .inl⟩
    intro v above below
    omega
  | succ n ih =>
    intro ρ s a enough aligned sound unshared
    by_cases inside : a < oldsz
    · have place : a = a / 4096 * 4096 := by omega
      -- the range that is left after a pass which changed nothing
      have skip : ∀ b, a < b -> b % 4096 = 0 ->
          (∀ v, a <= v * 4096 -> v * 4096 < b -> v * 4096 < oldsz ->
            target (s.mem d (a / 4096 / 1024)) ≠ none -> entry s.mem d v = 0#32) ->
          oldsz <= b + n * 4096 ->
          Ensures (deallocuvmLoop d oldsz b) s
            (fun _ t => ∃ ρ', Shrunk ρ ρ' dirs d a oldsz s t) (fun _ _ => False) := by
        intro b later aligned' passed enough'
        refine (ih ρ s b enough' aligned' sound fun v f above => unshared v f (by omega)).imp ?_
        rintro _ t ⟨ρ', shrunk⟩
        refine ⟨ρ', { shrunk with entries := ?_, cleared := ?_, idle := ?_, gave := ?_ }⟩
        · intro v bound
          exact (shrunk.entries v bound).imp_right fun range => ⟨by omega, range.2.1, range.2.2⟩
        · intro v above below tables
          by_cases rest : b <= v * 4096
          · exact shrunk.cleared v rest below fun w first last => tables w (by omega) last
          · have gone := passed v above (by omega) below (tables (a / 4096) le_rfl (by omega))
            rcases shrunk.entries v (by omega) with same | range
            · rw [same, gone]
            · exact range.2.2
        · intro empty
          exact shrunk.idle fun v above below => empty v (by omega) below
        · intro f free
          exact (shrunk.gave f free).imp_right fun ⟨v, above, range⟩ => ⟨v, by omega, range⟩
      refine deallocuvmLoop_pass sound member rfl inside top
        (fun f => unshared (a / 4096) f (by omega) (by omega)) ?_ ?_ ?_
      · intro missing
        exact skip (a + 4194304) (by omega) (by omega)
          (fun v above below _ present => absurd missing present) (by omega)
      · intro table present empty
        refine skip (a + 4096) (by omega) (by omega) (fun v above below _ _ => ?_) (by omega)
        have same : v = a / 4096 := by omega
        rw [same]
        rw [<- view_whole dirs s.mem] at empty ⊢
        exact sound.pages.absent d _ member (by omega) empty
      · intro f filled
        rcases release_page sound member (by omega) filled
          (unshared (a / 4096) f (by omega) (by omega) filled) with
          ⟨next, releases, entries, directory⟩
        refine (ih _ _ (a + 4096) (by omega) (by omega) next ?_).imp ?_
        · intro v g above below filled'
          rw [entries d v member (by omega), if_neg (by omega)] at filled'
          have same : (whole dirs).sharersOf (released s d (a / 4096) f).mem v g =
              (whole dirs).sharersOf s.mem v g := by
            refine sharers_congr fun d' member' => congrArg target ?_
            rw [view_whole, view_whole, entries d' v member' (by omega),
              if_neg (by omega)]
          rw [same]
          exact unshared v g (by omega) below filled'
        · rintro _ t ⟨ρ', shrunk⟩
          refine ⟨ρ', shrunk.sound, releases.trans shrunk.releases,
            shrunk.directory.trans directory, ?_, ?_, ?_, shrunk.count, ?_⟩
          · intro v bound
            have before := entries d v member bound
            rcases shrunk.entries v bound with same | range
            · rw [same, before]
              by_cases here : v = a / 4096
              · rw [if_pos ⟨rfl, here⟩]
                exact .inr ⟨by omega, by omega, rfl⟩
              · rw [if_neg (fun both => here both.2)]
                exact .inl rfl
            · exact .inr ⟨by omega, range.2.1, range.2.2⟩
          · intro v above below tables
            by_cases here : v = a / 4096
            · rcases shrunk.entries v (by omega) with same | range
              · rw [same, entries d v member (by omega), if_pos ⟨rfl, here⟩]
              · exact range.2.2
            · refine shrunk.cleared v (by omega) below fun w first last => ?_
              rw [directory]
              exact tables w (by omega) last
          · intro empty
            rw [empty (a / 4096) (by omega) (by omega)] at filled
            cases filled
          · intro g free
            rcases shrunk.gave g free with before | ⟨v, above, below, there⟩
            · by_cases same : g = f
              · subst same
                exact .inr ⟨a / 4096, by omega, by omega, filled⟩
              · rw [update_of_ne same] at before
                exact .inl before
            · rw [entries d v member (by omega), if_neg (by omega)] at there
              exact .inr ⟨v, by omega, below, there⟩
    · rw [deallocuvmLoop_done (by omega)]
      refine ⟨ρ, sound, .refl d ρ s, rfl, fun _ _ => .inl rfl, ?_, fun _ => rfl, rfl, fun _ => .inl⟩
      intro v above below
      omega

end Xv6.Ownership
