import Xv6.Grep.Match

namespace Xv6.Grep

open Function

/-!
# The loop of `grep`

The function `grep`, with the places of memory counted from `buf`.  `read` gives
the input chunk by chunk.  What `strchr` looks at is compared with the bytes that
have been read and not yet consumed: those from `p` on that are below `m`.

No NUL is stored behind what has been read.  The last search of every pass goes
on there, so that any input makes `grep` look at bytes that are not its own, and
a newline that is left there makes it print them.
-/

/-- The variables of `grep`, its output, and whether all that it looked at was read and not
consumed. -/
structure Buffer where
  mem : Int -> Char
  m : Int := 0
  p : Int := 0
  out : List Char := []
  own : Bool := true

/-- Where `strchr` stops, and whether this is at the character.  It has no result if it leaves
memory. -/
def strchr (mem : Int -> Char) (c : Char) : Nat -> Int -> Option (Int × Bool)
  | 0, _ => none
  | fuel + 1, s =>
      if mem s = NUL then some (s, false) else if mem s = c then some (s, true)
      else strchr mem c fuel (s + 1)

/-- The characters from `p` up to `q`. -/
def slice (mem : Int -> Char) (p q : Int) : List Char :=
  (List.range (q - p).toNat).map fun i => mem (p + i)

/-- The inner loop.  `hit` is `match` with the pattern. -/
def lines (hit : List Char -> Bool) (fuel : Nat) : Nat -> Buffer -> Option Buffer
  | 0, _ => none
  | turns + 1, b =>
      (strchr b.mem '\n' fuel b.p).bind fun (q, found) =>
        let text := slice b.mem b.p q
        let own := b.own && decide (q < b.m)
        if found then
          lines hit fuel turns { b with
            mem := update b.mem q (if hit text then '\n' else NUL)
            out := if hit text then b.out ++ text ++ ['\n'] else b.out
            p := q + 1
            own := own }
        else
          some { b with own := own }

/-- The body of the outer loop, after `read` has stored a chunk at `buf+m`. -/
def pass (hit : List Char -> Bool) (fuel : Nat) (b : Buffer) : Option Buffer :=
  (lines hit fuel fuel { b with p := 0 }).map fun b =>
    let m := if b.p = 0 then 0 else b.m
    if 0 < m then
      { b with m := m - b.p, mem := fun i => if 0 <= i /\ i < m - b.p then b.mem (b.p + i) else b.mem i }
    else
      { b with m := m }

/-- What `read` leaves. -/
def stored (b : Buffer) (chunk : List Char) : Buffer :=
  { b with
    mem := fun i => if b.m <= i /\ i < b.m + chunk.length then chunk.getD (i - b.m).toNat NUL else b.mem i
    m := b.m + chunk.length }

/-- The outer loop.  A chunk is not longer than `sizeof(buf)-m`. -/
def passes (hit : List Char -> Bool) (fuel : Nat) : List (List Char) -> Buffer -> Option Buffer
  | [], b => some b
  | chunk :: rest, b =>
      if b.m + chunk.length <= 1024 then (pass hit fuel (stored b chunk)).bind
        (passes hit fuel rest) else none

def grep (pattern : List Char) (mem : Int -> Char) (fuel : Nat)
    (chunks : List (List Char)) : Option Buffer :=
  passes (match' pattern) fuel chunks { mem := mem }

/-- The lines of the input that match. -/
def matching (pattern input : List Char) : List Char :=
  ((input.splitOn '\n').dropLast.filter (match' pattern)).flatMap (· ++ ['\n'])

section Own

variable {hit : List Char -> Bool} {fuel : Nat}

theorem strchr_stop {mem : Int -> Char} {c : Char} {q : Int} {found : Bool} : ∀ {s : Int},
    strchr mem c fuel s = some (q, found) -> s <= q /\ (found = false -> mem q = NUL) := by
  induction fuel with
  | zero => nofun
  | succ fuel ih =>
    intro s stop
    rw [strchr] at stop
    by_cases ends : mem s = NUL
    · rw [if_pos ends] at stop
      cases stop
      exact ⟨le_rfl, fun _ => ends⟩
    · rw [if_neg ends] at stop
      by_cases here : mem s = c
      · rw [if_pos here] at stop
        cases stop
        exact ⟨le_rfl, nofun⟩
      · rw [if_neg here] at stop
        exact (ih stop).imp_left fun later => by omega

/-- The searches go on behind what has been read, if that has no NUL. -/
theorem lines_not_own (turns : Nat) : ∀ {b b' : Buffer}, lines hit fuel turns b = some b' ->
    (b.own = true -> ∀ i, b.p <= i -> i < b.m -> b.mem i ≠ NUL) -> b'.own = false := by
  induction turns with
  | zero => nofun
  | succ turns ih =>
    intro b b' run text
    rw [lines, Option.bind_eq_some_iff] at run
    rcases run with ⟨⟨q, found⟩, search, run⟩
    rcases strchr_stop search with ⟨above, ends⟩
    cases found with
    | true =>
      refine ih run fun own i later below => ?_
      have behind : q + 1 <= i := later
      change update b.mem q _ i ≠ NUL
      rw [update_of_ne (by omega)]
      exact text (Bool.and_eq_true_iff.mp own).1 i (by omega) below
    | false =>
      cases run
      cases before : b.own with
      | false => rfl
      | true => exact decide_eq_false fun below => text before q above below (ends rfl)

theorem pass_not_own {b b' : Buffer} (run : pass hit fuel b = some b')
    (text : b.own = true -> ∀ i, 0 <= i -> i < b.m -> b.mem i ≠ NUL) : b'.own = false := by
  rcases Option.map_eq_some_iff.mp run with ⟨after, inner, rfl⟩
  have other := lines_not_own fuel inner text
  dsimp only
  split_ifs <;> exact other

theorem passes_not_own (chunks : List (List Char)) :
    ∀ {b b' : Buffer}, passes hit fuel chunks b = some b' -> b.own = false -> b'.own = false := by
  induction chunks with
  | nil =>
    intro b b' run other
    cases run
    exact other
  | cons chunk rest ih =>
    intro b b' run other
    rw [passes, Option.ite_none_right_eq_some, Option.bind_eq_some_iff] at run
    rcases run with ⟨_, after, first, later⟩
    refine ih later (pass_not_own first fun own => ?_)
    rw [stored, other] at own
    cases own

end Own

/-- `grep` prints the lines that match and looks only at what it has read, if there is nothing to
read. -/
theorem grep_own_iff (pattern : List Char) (mem : Int -> Char) (chunks : List (List Char))
    (text : ∀ chunk, chunk ∈ chunks -> chunk ≠ [] /\ NUL ∉ chunk) :
    (∃ fuel b, grep pattern mem fuel chunks = some b /\
      b.out = matching pattern chunks.flatten /\ b.own = true) ↔ chunks = [] := by
  constructor
  · rintro ⟨fuel, b, run, _, own⟩
    cases chunks with
    | nil => rfl
    | cons chunk rest =>
      rw [grep, passes, Option.ite_none_right_eq_some, Option.bind_eq_some_iff] at run
      rcases run with ⟨_, after, first, later⟩
      have other : b.own = false := by
        refine passes_not_own rest later (pass_not_own first fun _ i above below => ?_)
        have inside : i.toNat < chunk.length := by
          change i < 0 + (chunk.length : Int) at below
          omega
        have byte : (stored { mem := mem } chunk).mem i = chunk.getD (i - 0).toNat NUL :=
          if_pos ⟨above, below⟩
        rw [byte, Int.sub_zero, List.getD_eq_getElem?_getD, List.getElem?_eq_getElem inside,
          Option.getD_some]
        intro zero
        exact (text chunk List.mem_cons_self).2 (zero ▸ List.getElem_mem inside)
      rw [other] at own
      cases own
  · rintro rfl
    exact ⟨0, _, rfl, rfl, rfl⟩

private theorem match_nil : match' [] = fun _ => true := by
  funext text
  rw [match', if_neg (by decide), matchLoop, matchhere, dif_pos (show char [] = NUL from rfl), if_pos rfl]

/-- A buffer of zeros. -/
private def zeros : Int -> Char := fun _ => NUL

theorem grep_own_empty :
    (∃ fuel b, grep [] zeros fuel [] = some b /\ b.out = matching [] [].flatten /\ b.own = true) /\
    ¬ ∃ fuel b, grep [] zeros fuel [['a', '\n']] = some b /\
    b.out = matching [] [['a', '\n']].flatten /\ b.own = true :=
  ⟨(grep_own_iff [] zeros [] nofun).mpr rfl,
    fun own => nomatch (grep_own_iff [] zeros [['a', '\n']] (by decide)).mp own⟩

/-- The line `a` arrives whole or in two parts: the second time its start is lost.  A shorter line
that comes after a longer one is followed by what is left of that. -/
theorem grep_chunks_matter :
    (grep [] zeros 9 [['a', '\n']]).map Buffer.out = some ['a', '\n'] /\
    (grep [] zeros 9 [['a'], ['\n']]).map Buffer.out = some ['\n'] /\
    (grep [] zeros 9 [['a', 'b', 'c', '\n'], ['d', '\n']]).map Buffer.out =
      some ['a', 'b', 'c', '\n', 'd', '\n', 'c', '\n'] /\
    matching [] ['a', '\n'] = ['a', '\n'] /\
    matching [] ['a', 'b', 'c', '\n', 'd', '\n'] = ['a', 'b', 'c', '\n', 'd', '\n'] := by
  unfold grep matching
  rw [match_nil]
  decide +kernel

end Xv6.Grep
