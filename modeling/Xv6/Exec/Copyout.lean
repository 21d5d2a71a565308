import Xv6.System.FaultType

namespace Xv6.Exec

open Library Machine Memory Ownership Process
open Xv6.System (onePage)

/-!
# `copyout` on any page table

The bytes that `copyout` has stored are those of a front part of the buffer, up to the
first page that is not open to the process.  If that page has a page table, `copyout`
returns -1.  If it has none, `uva2ka` follows the null pointer that `walkpgdir` returns.
-/

/-! ## One pass -/

section Pass

variable {d f : Nat} {t : Kernel}

variable {va : Nat} {data : List (BitVec 8)}

theorem ensures_uva2ka {returned : Option Nat -> Kernel -> Prop} {stopped : Stop -> Kernel -> Prop}
    (small : va < 2 ^ 32) (present : target (t.mem d (va / 4096 / 1024)) ≠ none) :
    Ensures (uva2ka d va) t returned stopped <->
      returned (if HasFlag (entry t.mem d (va / 4096)) PTE_P = true /\
        HasFlag (entry t.mem d (va / 4096)) PTE_U = true
        then some (frameOf (entry t.mem d (va / 4096))) else none) t := by
  have table : HasFlag (t.mem d (va / 4096 / 1024)) PTE_P = true := by
    by_contra missing
    exact present (target_eq_none_iff.mpr (Bool.eq_false_iff.mpr missing))
  rw [uva2ka, ensures_bind, ensures_walkpgdir small, if_pos table]
  simp only [ensures_bind, ensures_readWord]
  rw [<- entry_of_table (target_of_present table)]
  cases there : HasFlag (entry t.mem d (va / 4096)) PTE_P with
  | false =>
    rw [if_pos rfl, if_neg (by simp), ensures_pure]
  | true =>
    cases user : HasFlag (entry t.mem d (va / 4096)) PTE_U with
    | false => rw [if_neg (by simp), if_pos rfl, if_neg (by simp), ensures_pure]
    | true => rw [if_neg (by simp), if_neg (by simp), if_pos ⟨rfl, rfl⟩, ensures_pure]

/-- One pass of `copyout`, over a page that the process may use. -/
theorem ensures_copyout {returned : Int -> Kernel -> Prop} {stopped : Stop -> Kernel -> Prop}
    (small : va < 2 ^ 32) (filled : target (entry t.mem d (va / 4096)) = some f)
    (user : HasFlag (entry t.mem d (va / 4096)) PTE_U = true) (some : data ≠ []) :
    Ensures (copyout d va data) t returned stopped <->
      Ensures (writeBytes f (va % 4096) (data.take (4096 - va % 4096))) t
        (fun _ u => Ensures (copyout d ((va / 4096 * 4096 + 4096) % 2 ^ 32)
          (data.drop (4096 - va % 4096))) u
          returned stopped) stopped := by
  rcases table_of_target filled with ⟨table, found⟩
  rcases target_eq_some_iff.mp filled with ⟨there, frame⟩
  have down : PGROUNDDOWN va = va / 4096 * 4096 := rfl
  have number : va / 4096 * 4096 / 4096 = va / 4096 := by omega
  have offset : va - va / 4096 * 4096 = va % 4096 := by omega
  have take : data.take (min (PGSIZE - va % 4096) data.length) = data.take (4096 - va % 4096) := by
    rw [<- List.take_eq_take_min]
    rfl
  have drop : data.drop (min (PGSIZE - va % 4096) data.length) = data.drop (4096 - va % 4096) := by
    by_cases less : data.length <= 4096 - va % 4096
    · rw [List.drop_of_length_le less, List.drop_of_length_le (by unfold PGSIZE; omega)]
    · rw [Nat.min_eq_left (by unfold PGSIZE; omega)]
      rfl
  rw [copyout, dif_neg some, ensures_bind, down,
    ensures_uva2ka (by omega) (by rw [number, found]; nofun), number, if_pos ⟨there, user⟩, frame]
  simp only [ensures_bind, offset, take, drop]
  rfl

/-- The page of `va` is not one that the process may use, but has a page table. -/
structure Refuses (t : Kernel) (d v : Nat) : Prop where
  table : target (t.mem d (v / 1024)) ≠ none
  closed : HasFlag (entry t.mem d v) PTE_P = false ∨ HasFlag (entry t.mem d v) PTE_U = false

theorem copyout_refused (small : va < 2 ^ 32) (refuses : Refuses t d (va / 4096))
    (some : data ≠ []) :
    Ensures (copyout d va data) t (fun failed u => failed = -1 /\ u = t) (fun _ _ => False) := by
  have down : PGROUNDDOWN va = va / 4096 * 4096 := rfl
  have number : va / 4096 * 4096 / 4096 = va / 4096 := by omega
  have closed : ¬ (HasFlag (entry t.mem d (va / 4096)) PTE_P = true /\
      HasFlag (entry t.mem d (va / 4096)) PTE_U = true) := by
    rintro ⟨there, user⟩
    rcases refuses.closed with absent | closed
    · rw [there] at absent
      cases absent
    · rw [user] at closed
      cases closed
  rw [copyout, dif_neg some, ensures_bind, down,
    ensures_uva2ka (by omega) (by rw [number]; exact refuses.table), number, if_neg closed]
  exact (ensures_pure _ _ _ _).mpr ⟨rfl, rfl⟩

/-- Without a page table a null pointer is followed. -/
theorem copyout_undefined (small : va < 2 ^ 32)
    (missing : target (t.mem d (va / 4096 / 1024)) = none) (some : data ≠ []) :
    Ensures (copyout d va data) t (fun _ _ => False)
      (fun reason u => reason = .undefined /\ u = t) := by
  have down : PGROUNDDOWN va = va / 4096 * 4096 := rfl
  have number : va / 4096 * 4096 / 4096 = va / 4096 := by omega
  have absent := target_eq_none_iff.mp missing
  rw [copyout, dif_neg some, ensures_bind, down, uva2ka, ensures_bind, ensures_walkpgdir (by omega),
    number, if_neg (by rw [absent]; nofun)]
  exact (ensures_throw _ _ _ _).mpr ⟨rfl, rfl⟩

end Pass

/-! ## Pages of a range -/

/-- Page `v` is present and a user page. -/
def Open (s : Kernel) (d v : Nat) : Prop :=
  HasFlag (entry s.mem d v) PTE_P = true /\ HasFlag (entry s.mem d v) PTE_U = true

/-- Page `v` has a byte of the range. -/
def Overlaps (va n v : Nat) : Prop := ∃ x, va <= x /\ x < va + n /\ x / 4096 = v

/-- The frame behind an address. -/
def frameAt (s : Kernel) (d x : Nat) : Nat := frameOf (entry s.mem d (x / 4096))

/-- The open pages of a range are frames of physical memory, one each, and none is part of the page
table. -/
structure Separate (s : Kernel) (d va n : Nat) : Prop where
  memory : ∀ v, Overlaps va n v -> Open s d v -> frameOf (entry s.mem d v) * 4096 < PHYSTOP
  directory : ∀ v, Overlaps va n v -> Open s d v -> frameOf (entry s.mem d v) ≠ d
  tables : ∀ v, Overlaps va n v -> Open s d v ->
    ∀ i, target (s.mem d i) ≠ some (frameOf (entry s.mem d v))
  apart : ∀ v w, Overlaps va n v -> Overlaps va n w -> Open s d v -> Open s d w ->
    frameOf (entry s.mem d v) = frameOf (entry s.mem d w) -> v = w

/-! ## What is stored -/

/-- The bytes at `va` are `data`, and all other bytes are as before. -/
structure Written (s t : Kernel) (d va : Nat) (data : List (BitVec 8)) : Prop where
  rest : t = { s with mem := t.mem, tlb := t.tlb }
  directory : t.mem d = s.mem d
  entries : ∀ v, entry t.mem d v = entry s.mem d v
  opened : ∀ k, k < data.length -> Open s d ((va + k) / 4096)
  stored : ∀ k, k < data.length ->
    pageByte (t.mem (frameAt s d (va + k))) ((va + k) % 4096) = data.getD k 0#8
  others : ∀ f j, (∀ k, k < data.length -> ¬ (frameAt s d (va + k) = f /\ (va + k) % 4096 = j)) ->
    pageByte (t.mem f) j = pageByte (s.mem f) j

theorem overlaps_of_lt {va n k : Nat} (inside : k < n) : Overlaps va n ((va + k) / 4096) :=
  ⟨va + k, Nat.le_add_right va k, Nat.add_lt_add_left inside va, rfl⟩

theorem Overlaps.mono {va va' n n' v : Nat} (overlaps : Overlaps va n v) (low : va' <= va)
    (high : va + n <= va' + n') : Overlaps va' n' v := by
  rcases overlaps with ⟨x, first, last, page⟩
  exact ⟨x, Nat.le_trans low first, Nat.lt_of_lt_of_le last high, page⟩

namespace Separate

variable {s t : Kernel} {d va va' n n' : Nat}

theorem mono (separate : Separate s d va n) (low : va <= va') (high : va' + n' <= va + n) :
    Separate s d va' n' where
  memory v overlaps := separate.memory v (overlaps.mono low high)
  directory v overlaps := separate.directory v (overlaps.mono low high)
  tables v overlaps := separate.tables v (overlaps.mono low high)
  apart v w first second := separate.apart v w (first.mono low high) (second.mono low high)

/-- The property is one of the page table. -/
theorem congr (separate : Separate s d va n) (directory : t.mem d = s.mem d)
    (entries : ∀ v, entry t.mem d v = entry s.mem d v) : Separate t d va n := by
  have opens : ∀ v, Open t d v <-> Open s d v := by
    intro v
    unfold Open
    rw [entries]
  constructor
  case memory =>
    intro v overlaps there
    rw [entries]
    exact separate.memory v overlaps ((opens v).mp there)
  case directory =>
    intro v overlaps there
    rw [entries]
    exact separate.directory v overlaps ((opens v).mp there)
  case tables =>
    intro v overlaps there i
    rw [entries, directory]
    exact separate.tables v overlaps ((opens v).mp there) i
  case apart =>
    intro v w first second there here
    rw [entries, entries]
    exact separate.apart v w first second ((opens v).mp there) ((opens w).mp here)

/-- Two addresses of the range are two bytes of memory. -/
theorem address_eq (separate : Separate s d va n) {k j : Nat} (first : k < n) (second : j < n)
    (there : Open s d ((va + k) / 4096)) (here : Open s d ((va + j) / 4096))
    (frame : frameAt s d (va + k) = frameAt s d (va + j))
    (offset : (va + k) % 4096 = (va + j) % 4096) : k = j := by
  have page := separate.apart _ _ (overlaps_of_lt first) (overlaps_of_lt second) there here frame
  have one := Nat.div_add_mod (va + k) 4096
  have two := Nat.div_add_mod (va + j) 4096
  rw [page, offset] at one
  omega

end Separate

namespace Written

variable {s t u : Kernel} {d va : Nat} {data first second : List (BitVec 8)}

theorem nil (s : Kernel) (d va : Nat) : Written s s d va [] where
  rest := rfl
  directory := rfl
  entries _ := rfl
  opened _ impossible := absurd impossible (Nat.not_lt_zero _)
  stored _ impossible := absurd impossible (Nat.not_lt_zero _)
  others _ _ _ := rfl

theorem frameAt_eq (written : Written s t d va data) (x : Nat) : frameAt t d x = frameAt s d x := by
  unfold frameAt
  rw [written.entries]

theorem open_iff (written : Written s t d va data) (v : Nat) : Open t d v <-> Open s d v := by
  unfold Open
  rw [written.entries]

theorem append (one : Written s u d va first) (two : Written u t d (va + first.length) second)
    (separate : Separate s d va (first.length + second.length)) :
    Written s t d va (first ++ second) := by
  have opened : ∀ k, k < first.length + second.length -> Open s d ((va + k) / 4096) := by
    intro k inside
    by_cases early : k < first.length
    · exact one.opened k early
    · have late := (one.open_iff _).mp (two.opened (k - first.length) (by omega))
      rwa [show va + first.length + (k - first.length) = va + k by omega] at late
  constructor
  case rest =>
    have last := two.rest
    rw [one.rest] at last
    exact last
  case directory => exact two.directory.trans one.directory
  case entries => exact fun v => (two.entries v).trans (one.entries v)
  case opened =>
    intro k inside
    rw [List.length_append] at inside
    exact opened k inside
  case stored =>
    intro k inside
    rw [List.length_append] at inside
    by_cases early : k < first.length
    · rw [List.getD_append _ _ _ _ early, <- one.stored k early]
      apply two.others
      rintro j within ⟨frame, offset⟩
      rw [one.frameAt_eq, Nat.add_assoc] at frame
      rw [Nat.add_assoc] at offset
      have same := separate.address_eq (by omega) inside (opened _ (by omega)) (opened _ inside)
          frame offset
      omega
    · have late := two.stored (k - first.length) (by omega)
      rw [one.frameAt_eq, show va + first.length + (k - first.length) = va + k by omega] at late
      rw [List.getD_append_right _ _ _ _ (by omega)]
      exact late
  case others =>
    intro f j outside
    rw [List.length_append] at outside
    rw [two.others f j, one.others f j]
    · exact fun k inside => outside k (by omega)
    · intro k inside
      rw [one.frameAt_eq, Nat.add_assoc]
      exact outside (first.length + k) (by omega)

/-- A front part, and then a front part of what follows it. -/
theorem further {c m : Nat} (first : Written s u d va (data.take c)) (fits : c <= data.length)
    (second : Written u t d (va + c) ((data.drop c).take m))
    (separate : Separate s d va data.length) : Written s t d va (data.take (c + m)) := by
  have full : (data.take c).length = c := by
    rw [List.length_take]
    omega
  have less : ((data.drop c).take m).length <= data.length - c := by
    rw [List.length_take, List.length_drop]
    exact Nat.min_le_right ..
  rw [List.take_add]
  exact first.append (by rw [full]; exact second) (separate.mono (Nat.le_refl va) (by omega))

end Written

/-! ## One page -/

/-- The bytes that `writeBytes` leaves in a page. -/
theorem writeBytes_page (f : Nat) (data : List (BitVec 8)) : ∀ (off : Nat) (s : Kernel),
    Ensures (writeBytes f off data) s
      (fun _ t => t = { s with mem := t.mem, tlb := t.tlb } /\ (∀ g, g ≠ f -> t.mem g = s.mem g) /\
        ∀ k, pageByte (t.mem f) k =
          if off <= k /\ k < off + data.length then data.getD (k - off) 0#8
          else pageByte (s.mem f) k)
      (fun _ _ => False) := by
  induction data with
  | nil =>
    intro off s
    rw [writeBytes, ensures_pure]
    refine ⟨rfl, fun _ _ => rfl, fun k => ?_⟩
    rw [if_neg]
    rintro ⟨above, below⟩
    rw [List.length_nil] at below
    omega
  | cons byte rest ih =>
    intro off s
    rw [writeBytes, writeByte]
    simp only [ensures_bind, ensures_readWord, ensures_writeWord]
    refine (ih (off + 1) _).imp ?_
    rintro _ t ⟨same, elsewhere, bytes⟩
    refine ⟨same, fun g other => ?_, fun k => ?_⟩
    · rw [elsewhere g other]
      exact Function.update_of_ne other ..
    · rw [bytes k]
      change (if _ then _ else pageByte (Function.update s.mem f _ f) k) = _
      rw [Function.update_self, pageByte_update, List.length_cons]
      by_cases later : off + 1 <= k /\ k < off + 1 + rest.length
      · rw [if_pos later, if_pos (by omega), show k - off = k - (off + 1) + 1 by omega]
        rfl
      · rw [if_neg later]
        by_cases here : k = off
        · rw [if_pos here, if_pos (by omega), here, Nat.sub_self]
          rfl
        · rw [if_neg here, if_neg (by omega)]

section Passes

variable {s : Kernel} {d va : Nat} {data : List (BitVec 8)}

/-- The store of one pass. -/
theorem writeBytes_written (separate : Separate s d va data.length) (some : data ≠ [])
    (inside : va % 4096 + data.length <= 4096) (there : Open s d (va / 4096)) :
    Ensures (writeBytes (frameAt s d va) (va % 4096) data) s (fun _ t => Written s t d va data)
      (fun _ _ => False) := by
  have pos := List.length_pos_iff.mpr some
  have here : Overlaps va data.length (va / 4096) := overlaps_of_lt (k := 0) pos
  have page : ∀ k, k < data.length -> (va + k) / 4096 = va / 4096 /\ (va + k) % 4096 = va % 4096 + k := by
    intro k less
    omega
  have frame : ∀ k, k < data.length -> frameAt s d (va + k) = frameAt s d va := by
    intro k less
    unfold frameAt
    rw [(page k less).1]
  refine (writeBytes_page (frameAt s d va) data (va % 4096) s).imp ?_
  rintro _ t ⟨same, elsewhere, bytes⟩
  have directory : t.mem d = s.mem d := elsewhere d (separate.directory _ here there).symm
  constructor
  case rest => exact same
  case directory => exact directory
  case entries =>
    intro v
    refine entry_elsewhere directory fun table found => elsewhere table ?_
    rintro rfl
    exact separate.tables _ here there _ found
  case opened =>
    intro k less
    rw [(page k less).1]
    exact there
  case stored =>
    intro k less
    rw [frame k less, (page k less).2, bytes, if_pos (by omega), Nat.add_sub_cancel_left]
  case others =>
    intro f j outside
    by_cases this : f = frameAt s d va
    · subst this
      rw [bytes, if_neg]
      rintro ⟨low, high⟩
      have less : j - va % 4096 < data.length := by omega
      refine outside (j - va % 4096) less ⟨frame _ less, ?_⟩
      rw [(page _ less).2]
      omega
    · rw [elsewhere f this]

/-- How `copyout` ends: `m` bytes are stored, and the page of the next one, if any, is not open. -/
theorem copyout_spec (n : Nat) :
    ∀ (va : Nat) (data : List (BitVec 8)) (s : Kernel), data.length <= n ->
    va + data.length <= 2 ^ 32 -> Separate s d va data.length ->
    Ensures (copyout d va data) s
      (fun result t => ∃ m, Written s t d va (data.take m) /\
        (result = 0 /\ m = data.length ∨
          result = -1 /\ m < data.length /\ Refuses s d ((va + m) / 4096)))
      (fun _ t => ∃ m, Written s t d va (data.take m) /\ m < data.length /\
        target (s.mem d ((va + m) / 4096 / 1024)) = none) := by
  induction n with
  | zero =>
    intro va data s short _ _
    have empty : data = [] := List.length_eq_zero_iff.mp (Nat.le_zero.mp short)
    subst empty
    rw [copyout, dif_pos rfl, ensures_pure]
    exact ⟨0, .nil s d va, .inl ⟨rfl, rfl⟩⟩
  | succ n ih =>
    intro va data s short fits separate
    by_cases none : data = []
    · subst none
      rw [copyout, dif_pos rfl, ensures_pure]
      exact ⟨0, .nil s d va, .inl ⟨rfl, rfl⟩⟩
    have pos := List.length_pos_iff.mpr none
    have nothing : Written s s d va (data.take 0) := .nil s d va
    cases found : target (s.mem d (va / 4096 / 1024)) with
    | none =>
      refine (copyout_undefined (by omega) found none).mono (fun _ _ impossible => impossible.elim) ?_
      rintro _ t ⟨_, rfl⟩
      exact ⟨0, nothing, pos, found⟩
    | some table =>
      by_cases there : Open s d (va / 4096)
      · -- The chunk of this page, and then the rest of the buffer from the next page on.
        have filled : target (entry s.mem d (va / 4096)) = some (frameAt s d va) :=
          target_of_present there.1
        have size : (data.take (4096 - va % 4096)).length = min (4096 - va % 4096) data.length :=
          List.length_take ..
        have chunk : data.take (4096 - va % 4096) ≠ [] := List.ne_nil_of_length_pos (by omega)
        rw [ensures_copyout (by omega) filled there.2 none]
        refine (writeBytes_written (separate.mono (Nat.le_refl va) (by omega)) chunk (by omega)
          there).mono ?_ (fun _ _ impossible => impossible.elim)
        intro _ u first
        have left : (data.drop (4096 - va % 4096)).length = data.length - (4096 - va % 4096) :=
          List.length_drop ..
        by_cases last : data.length <= 4096 - va % 4096
        · rw [List.drop_of_length_le last, copyout, dif_pos rfl, ensures_pure]
          refine ⟨data.length, ?_, .inl ⟨rfl, rfl⟩⟩
          rw [List.take_length]
          rwa [List.take_of_length_le last] at first
        · have fits : 4096 - va % 4096 <= data.length := by omega
          have onward : (va / 4096 * 4096 + 4096) % 2 ^ 32 = va + (4096 - va % 4096) := by omega
          have kept : Separate u d (va + (4096 - va % 4096)) (data.drop (4096 - va % 4096)).length :=
            (separate.congr first.directory first.entries).mono (Nat.le_add_right ..) (by omega)
          rw [onward]
          refine (ih _ _ u (by omega) (by omega) kept).mono ?_ ?_
          · rintro result t ⟨m, second, ending⟩
            refine ⟨4096 - va % 4096 + m, first.further fits second separate, ?_⟩
            rw [Nat.add_assoc] at ending
            rcases ending with ⟨rfl, all⟩ | ⟨rfl, less, refuses⟩
            · exact .inl ⟨rfl, by omega⟩
            · refine .inr ⟨rfl, by omega, ?_, ?_⟩
              · rw [<- first.directory]
                exact refuses.table
              · rw [<- first.entries]
                exact refuses.closed
          · rintro _ t ⟨m, second, less, missing⟩
            rw [Nat.add_assoc, first.directory] at missing
            exact ⟨4096 - va % 4096 + m, first.further fits second separate, by omega, missing⟩
      · have refuses : Refuses s d (va / 4096) := by
          refine ⟨by rw [found]; nofun, ?_⟩
          by_cases present : HasFlag (entry s.mem d (va / 4096)) PTE_P = true
          · exact .inr (Bool.eq_false_iff.mpr fun user => there ⟨present, user⟩)
          · exact .inl (Bool.eq_false_iff.mpr present)
        refine (copyout_refused (by omega) refuses none).mono ?_ (fun _ _ impossible => impossible.elim)
        rintro _ t ⟨rfl, rfl⟩
        exact ⟨0, nothing, .inr ⟨rfl, pos, refuses⟩⟩

end Passes

/-! ## The whole call -/

/-- The byte at a user address, through the page table. -/
def byteAt (t : Kernel) (d x : Nat) : BitVec 8 := pageByte (t.mem (frameAt t d x)) (x % 4096)

/-- What a call that returns should have done. -/
structure Outcome (s t : Kernel) (d va : Nat) (data : List (BitVec 8)) (result : Int) : Prop where
  zero_iff : result = 0 <-> ∀ v, Overlaps va data.length v -> Open s d v
  refused : result ≠ 0 -> result = -1
  copied : result = 0 -> ∀ k, k < data.length -> byteAt t d (va + k) = data.getD k 0#8
  kept : ∀ f j, pageByte (t.mem f) j ≠ pageByte (s.mem f) j -> ∃ x,
    va <= x /\ x < va + data.length /\ Open s d (x / 4096) /\ frameAt s d x = f /\ x % 4096 = j
  rest : t = { s with mem := t.mem, tlb := t.tlb }

/-- The first page of the range that is not open has a page table. -/
def Tabled (s : Kernel) (d va n : Nat) : Prop :=
  ∀ v, Overlaps va n v -> ¬ Open s d v -> (∀ w, w < v -> Overlaps va n w -> Open s d w) ->
    target (s.mem d (v / 1024)) ≠ none

section Call

variable {s t : Kernel} {d va m : Nat} {data : List (BitVec 8)}

theorem Refuses.not_open {v : Nat} (refuses : Refuses s d v) : ¬ Open s d v := by
  rintro ⟨present, user⟩
  rcases refuses.closed with absent | closed
  · rw [present] at absent
    cases absent
  · rw [user] at closed
    cases closed

theorem not_open_of_none {v : Nat}
    (missing : target (s.mem d (v / 1024)) = none) : ¬ Open s d v := by
  rintro ⟨present, _⟩
  rw [entry_of_none missing, hasFlag_zero] at present
  cases present

/-- The pages before the one where the copy stops are open. -/
theorem Written.before (written : Written s t d va (data.take m)) (less : m < data.length) {w : Nat}
    (earlier : w < (va + m) / 4096) (overlaps : Overlaps va data.length w) : Open s d w := by
  rcases overlaps with ⟨x, low, high, page⟩
  have inside : x - va < (data.take m).length := by
    rw [List.length_take]
    have order : x < va + m := by
      by_contra late
      have after := Nat.div_le_div_right (c := 4096) (Nat.le_of_not_lt late)
      omega
    omega
  have opened := written.opened (x - va) inside
  rwa [Nat.add_sub_cancel' low, page] at opened

theorem Written.kept (written : Written s t d va (data.take m)) (f j : Nat)
    (changed : pageByte (t.mem f) j ≠ pageByte (s.mem f) j) : ∃ x,
      va <= x /\ x < va + data.length /\ Open s d (x / 4096) /\ frameAt s d x = f /\
      x % 4096 = j := by
  by_contra none
  refine changed (written.others f j fun k inside same => none ⟨va + k, ?_⟩)
  have opened := written.opened k inside
  rw [List.length_take] at inside
  exact ⟨by omega, by omega, opened, same.1, same.2⟩

theorem Written.outcome (written : Written s t d va data) : Outcome s t d va data 0 := by
  have whole : Written s t d va (data.take data.length) := by
    rw [List.take_length]
    exact written
  refine ⟨⟨fun _ v overlaps => ?_, fun _ => rfl⟩, fun nonzero => absurd rfl nonzero,
    fun _ k inside => ?_, whole.kept, written.rest⟩
  · rcases overlaps with ⟨x, low, high, rfl⟩
    have opened := written.opened (x - va) (by omega)
    rwa [Nat.add_sub_cancel' low] at opened
  · rw [byteAt, written.frameAt_eq]
    exact written.stored k inside

/-- `copyout` does what it should exactly when it needs no page table that is missing. -/
theorem copyout_iff (fits : va + data.length <= 2 ^ 32) (separate : Separate s d va data.length) :
    (∃ result t, copyout d va data s = .ok result t /\ Outcome s t d va data result) <->
      Tabled s d va data.length := by
  have spec := copyout_spec data.length va data s (Nat.le_refl _) fits separate
  constructor
  · rintro ⟨result, t, run, outcome⟩ v overlaps closed before
    rcases spec.of_ok run with ⟨m, written, ⟨zero, _⟩ | ⟨_, less, refuses⟩⟩
    · exact absurd (outcome.zero_iff.mp zero v overlaps) closed
    · have same : v = (va + m) / 4096 := by
        rcases Nat.lt_trichotomy v ((va + m) / 4096) with earlier | same | later
        · exact absurd (written.before less earlier overlaps) closed
        · exact same
        · exact absurd (before _ later (overlaps_of_lt less)) refuses.not_open
      rw [same]
      exact refuses.table
  · intro tabled
    have returns : Ensures (copyout d va data) s _ (fun _ _ => False) :=
      spec.mono (fun _ _ ends => ends) ?_
    · rcases returns.exists_ok with ⟨result, t, run, m, written, ⟨rfl, rfl⟩ | ⟨rfl, less, refuses⟩⟩
      · rw [List.take_length] at written
        exact ⟨0, t, run, written.outcome⟩
      · refine ⟨-1, t, run, ⟨fun zero => (by cases zero), fun all => ?_⟩, fun _ => rfl,
          fun zero => (by cases zero), written.kept, written.rest⟩
        exact absurd (all _ (overlaps_of_lt less)) refuses.not_open
    · rintro _ t ⟨m, written, less, missing⟩
      exact tabled _ (overlaps_of_lt less) (not_open_of_none missing)
        (fun w earlier overlaps => written.before less earlier overlaps) missing

end Call

/-! ### A process with one page -/

theorem onePage_tables (i : Nat) : target (onePage.mem 1 i) ≠ some 3 := by
  change target (System.onePageMemory 1 i) ≠ some 3
  by_cases first : i = 0
  · rw [first]
    decide
  · have zero : System.onePageMemory 1 i = 0#32 := by simp [System.onePageMemory, first]
    rw [zero]
    decide

theorem onePage_separate : Separate onePage 1 0x1000 1 := by
  have only : ∀ v, Overlaps 0x1000 1 v -> v = 1 := by
    rintro v ⟨x, low, high, rfl⟩
    omega
  have frame : frameOf (entry onePage.mem 1 1) = 3 := by decide
  constructor
  case memory =>
    intro v overlaps _
    rw [only v overlaps, frame]
    decide
  case directory =>
    intro v overlaps _
    rw [only v overlaps, frame]
    decide
  case tables =>
    intro v overlaps _ i
    rw [only v overlaps, frame]
    exact onePage_tables i
  case apart => exact fun v w first second _ _ _ => (only v first).trans (only w second).symm

/-- A byte is stored in the page. -/
theorem copyout_one : ∃ result t,
    copyout 1 0x1000 [65#8] onePage = .ok result t /\ Outcome onePage t 1 0x1000 [65#8] result := by
  refine (copyout_iff (by decide) onePage_separate).mpr ?_
  rintro v ⟨x, low, high, rfl⟩ closed _
  have page : x / 4096 = 1 := by
    rw [List.length_singleton] at high
    omega
  rw [page]
  decide

/-- The page table of the address is missing. -/
theorem copyout_null : Separate onePage 1 0x400000 [65#8].length /\
    ¬ (∃ result t, copyout 1 0x400000 [65#8] onePage = .ok result t /\
      Outcome onePage t 1 0x400000 [65#8] result) := by
  have only : ∀ v, Overlaps 0x400000 [65#8].length v -> v = 1024 := by
    rintro v ⟨x, low, high, rfl⟩
    rw [List.length_singleton] at high
    omega
  have missing : target (onePage.mem 1 (0x400000 / 4096 / 1024)) = none := by decide
  have closed : ∀ {v}, Overlaps 0x400000 [65#8].length v -> ¬ Open onePage 1 v := by
    intro v overlaps
    rw [only v overlaps]
    exact not_open_of_none missing
  refine ⟨?_, ?_⟩
  · constructor
    case memory => exact fun v overlaps there => absurd there (closed overlaps)
    case directory => exact fun v overlaps there => absurd there (closed overlaps)
    case tables => exact fun v overlaps there => absurd there (closed overlaps)
    case apart => exact fun v w overlaps _ there => absurd there (closed overlaps)
  · rintro ⟨result, t, run, _⟩
    exact (copyout_undefined (by decide) missing (List.cons_ne_nil _ _)).of_ok run

end Xv6.Exec
