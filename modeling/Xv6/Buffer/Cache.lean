import Xv6.Library.Circle
import Xv6.Buffer.Ide

namespace Xv6.Cache

open Library
open Fs (Block)
open Ide (Buf Memory)
open Function

/-!
# The buffer cache of `bio.c`

A step is a section of `bget` or `brelse` that holds `bcache.lock`, a transfer
that the driver makes for `bread` or `bwrite`, or something that a process does
with a buffer that it has got from `bread`.  The driver is `iderw` of
`memide.c`.

`holds`, `latest`, `unsaved` and `careless` are not in the source.  They say
who has got a buffer and not given it back, what was last put into the buffer
of a sector, which buffers were changed and not passed to `log_write` or
`bwrite` since, and for which sectors such a buffer was given back.
-/

variable {ι : Type} {NBUF : Nat}

/-- `(uint)-1` -/
def nodev : Nat := 2 ^ 32 - 1

/-- What a process is doing. -/
inductive Activity (NBUF : Nat) where
  | running
  /-- It is about to look through the cache. -/
  | bget (dev sector : Nat)
  /-- It sleeps on a buffer in `bget`. -/
  | asleep (dev sector : Nat) (b : Fin NBUF)
  /-- `bget` has returned to `bread`. -/
  | bread (dev sector : Nat) (b : Fin NBUF)
  /-- `bwrite` has set `B_DIRTY`. -/
  | bwrite (b : Fin NBUF)
deriving DecidableEq

structure State (ι : Type) (NBUF : Nat) where
  disk : Nat -> Nat -> Block
  buf : Fin NBUF -> Buf
  /-- The list through `prev` and `next`. -/
  links : Links (Fin NBUF)
  activity : ι -> Activity NBUF
  holds : ι -> Fin NBUF -> Bool
  latest : Nat -> Nat -> Block
  unsaved : Fin NBUF -> Bool
  careless : Nat -> Nat -> Bool

inductive Label (ι : Type) (NBUF : Nat) where
  | bread (p : ι) (dev sector : Nat)
  | bget (p : ι)
  | iderw (p : ι)
  /-- A process changes the data of a buffer. -/
  | modify (p : ι) (b : Fin NBUF) (data : Block)
  | logWrite (p : ι) (b : Fin NBUF)
  | bwrite (p : ι) (b : Fin NBUF)
  | brelse (p : ι) (b : Fin NBUF)

def put {α β γ : Type} [DecidableEq α] [DecidableEq β] (f : α -> β -> γ) (a : α) (b : β)
    (value : γ) : α -> β -> γ :=
  fun x y => if x = a /\ y = b then value else f x y

/-- The state of the list when the buffers of an array have been put into it one after another. -/
def binitLinks (buffers : List (Fin NBUF)) : Links (Fin NBUF) :=
  buffers.foldl Links.pushFront ⟨fun _ => none, fun _ => none⟩

def binit (ι : Type) (NBUF : Nat) (disk : Nat -> Nat -> Block) : State ι NBUF where
  disk := disk
  buf := fun _ => ⟨nodev, 0, false, false, false, fun _ => 0#8⟩
  links := binitLinks (List.finRange NBUF)
  activity := fun _ => .running
  holds := fun _ _ => false
  latest := disk
  unsaved := fun _ => false
  careless := fun _ _ => false

def wakeup (activity : ι -> Activity NBUF) (b : Fin NBUF) : ι -> Activity NBUF := fun p =>
  match activity p with
  | .asleep dev sector c => if c = b then .bget dev sector else .asleep dev sector c
  | other => other

/-- The transfer that the driver makes. -/
def iderw (s : State ι NBUF) (b : Fin NBUF) : State ι NBUF :=
  let m := Memory.iderw ⟨s.disk (s.buf b).dev, s.buf⟩ b
  { s with
    disk := update s.disk (s.buf b).dev m.disk
    buf := m.buf
    activity := wakeup s.activity b }

variable [DecidableEq ι]

/-- `bget` from its label `loop` on. -/
def bget (s : State ι NBUF) (p : ι) (dev sector : Nat) : Option (State ι NBUF) :=
  let cached b := (s.buf b).dev == dev && (s.buf b).sector == sector
  let reusable b := !(s.buf b).busy && !(s.buf b).dirty
  match seek s.links.next cached (NBUF + 1) (s.links.next none) with
  | none => none
  | some (some b) =>
    if (s.buf b).busy = true then some { s with activity := update s.activity p (.asleep dev sector b) }
    else
      some { s with
        buf := update s.buf b { s.buf b with busy := true }
        activity := update s.activity p (.bread dev sector b)
        holds := put s.holds p b true }
  | some none =>
    match seek s.links.prev reusable (NBUF + 1) (s.links.prev none) with
    | some (some b) =>
      some { s with
        buf := update s.buf b ⟨dev, sector, true, false, false, (s.buf b).data⟩
        activity := update s.activity p (.bread dev sector b)
        holds := put s.holds p b true
        unsaved := update s.unsaved b false }
    -- panic("bget: no buffers")
    | _ => none

/-- The rest of `bread` or `bwrite`. -/
def finish (s : State ι NBUF) (p : ι) : Option (State ι NBUF) :=
  match s.activity p with
  | .bread _ _ b =>
    let t := if (s.buf b).valid = true then s else iderw s b
    some { t with activity := update t.activity p .running }
  | .bwrite b => some { iderw s b with activity := update (iderw s b).activity p .running }
  | _ => none

def brelse (s : State ι NBUF) (p : ι) (b : Fin NBUF) : State ι NBUF :=
  { s with
    links := (s.links.unlink b).pushFront b
    buf := update s.buf b { s.buf b with busy := false }
    activity := wakeup s.activity b
    holds := put s.holds p b false
    careless := if s.unsaved b = true then put s.careless (s.buf b).dev (s.buf b).sector true
      else s.careless }

def perform (s : State ι NBUF) : Label ι NBUF -> Option (State ι NBUF)
  | .bread p dev sector =>
    if s.activity p = .running then some { s with activity := update s.activity p (.bget dev sector) }
    else none
  | .bget p =>
    match s.activity p with
    | .bget dev sector => bget s p dev sector
    | _ => none
  | .iderw p => finish s p
  | .modify p b data =>
    if s.activity p = .running /\ s.holds p b = true then
      some { s with
        buf := update s.buf b { s.buf b with data := data }
        latest := put s.latest (s.buf b).dev (s.buf b).sector data
        unsaved := update s.unsaved b true }
    else none
  | .logWrite p b =>
    if s.activity p = .running /\ s.holds p b = true then
      some { s with
        buf := update s.buf b { s.buf b with dirty := true }
        unsaved := update s.unsaved b false }
    else none
  | .bwrite p b =>
    if s.activity p = .running /\ s.holds p b = true /\ (s.buf b).busy = true then
      some { s with
        buf := update s.buf b { s.buf b with dirty := true }
        activity := update s.activity p (.bwrite b)
        unsaved := update s.unsaved b false }
    else none
  | .brelse p b =>
    if s.activity p = .running /\ s.holds p b = true /\ (s.buf b).busy = true then some (brelse s p
      b) else none

def Step (s : State ι NBUF) (label : Label ι NBUF) (t : State ι NBUF) : Prop :=
  perform s label = some t

section Put

variable {α β γ : Type} [DecidableEq α] [DecidableEq β] {f : α -> β -> γ} {a x : α} {b y : β} {value : γ}

@[simp]
theorem put_self : put f a b value a b = value := if_pos ⟨rfl, rfl⟩

theorem put_of_ne (ne : ¬ (x = a /\ y = b)) : put f a b value x y = f x y := if_neg ne

end Put

/-! ## The list -/

omit [DecidableEq ι] in
theorem binitLinks_circle (buffers : List (Fin NBUF)) (nodup : buffers.Nodup) :
    Circle (binitLinks buffers) buffers.reverse := by
  induction buffers using List.reverseRecOn with
  | nil => exact ⟨⟨rfl, rfl⟩, List.nodup_nil⟩
  | append_singleton earlier b ih =>
    rcases List.nodup_append.mp nodup with ⟨nodupEarlier, _, apart⟩
    have absent : b ∉ earlier.reverse := by
      intro listed
      exact apart b (List.mem_reverse.mp listed) b (List.mem_singleton_self b) rfl
    have circle := (ih nodupEarlier).pushFront absent
    unfold binitLinks at circle ⊢
    rw [List.foldl_append, List.reverse_append]
    exact circle

/-- The list has every buffer. -/
def Listed (l : Links (Fin NBUF)) : Prop := ∃ cells, Circle l cells /\ ∀ b, b ∈ cells

section Listed

variable {l : Links (Fin NBUF)}

theorem Listed.moveFront (listed : Listed l) (b : Fin NBUF) :
    Listed ((l.unlink b).pushFront b) := by
  rcases listed with ⟨cells, circle, all⟩
  rcases circle.moveFront (all b) with ⟨cells', moved, same⟩
  exact ⟨cells', moved, fun c => same.mem_iff.mpr (all c)⟩

theorem length_lt {cells : List (Fin NBUF)} (nodup : cells.Nodup) : cells.length < NBUF + 1 := by
  have bound := nodup.length_le_card
  rw [Fintype.card_fin] at bound
  exact Nat.lt_succ_of_le bound

/-- The walk along `next` finds a buffer or sees them all. -/
theorem Listed.seek_next (listed : Listed l) (accept : Fin NBUF -> Bool) : ∃ found,
    seek l.next accept (NBUF + 1) (l.next none) = some found /\
      (∀ b, found = some b -> accept b = true) /\ (found = none -> ∀ b, accept b = false) := by
  rcases listed with ⟨cells, circle, all⟩
  refine ⟨cells.find? accept, circle.path.seek_eq (length_lt circle.nodup), ?_, ?_⟩
  · exact fun b found => List.find?_some found
  · intro nothing b
    exact Bool.eq_false_of_not_eq_true (List.find?_eq_none.mp nothing b (all b))

theorem Listed.swap (listed : Listed l) : Listed l.swap := by
  rcases listed with ⟨cells, circle, all⟩
  exact ⟨cells.reverse, ⟨circle.path.reverse, List.nodup_reverse.mpr circle.nodup⟩,
    fun b => List.mem_reverse.mpr (all b)⟩

/-- The walk along `prev` ends too. -/
theorem Listed.seek_prev (listed : Listed l) (accept : Fin NBUF -> Bool) : ∃ found,
    seek l.prev accept (NBUF + 1) (l.prev none) = some found /\ ∀ b, found = some b ->
    accept b = true := by
  rcases listed.swap.seek_next accept with ⟨found, walk, accepted, _⟩
  exact ⟨found, walk, accepted⟩

end Listed

/-! ## Who has a buffer -/

structure Locked (buf : Fin NBUF -> Buf) (holds : ι -> Fin NBUF -> Bool)
  (activity : ι -> Activity NBUF) : Prop where
  exclusive : ∀ p q b, holds p b = true -> holds q b = true -> p = q
  busy : ∀ b, (buf b).busy = true <-> ∃ p, holds p b = true
  reading : ∀ p d k b, activity p = .bread d k b ->
    holds p b = true /\ (buf b).dev = d /\ (buf b).sector = k
  writing : ∀ p b, activity p = .bwrite b -> holds p b = true /\ (buf b).dirty = true
  filled : ∀ p b, holds p b = true -> (∀ d k, activity p ≠ .bread d k b) -> (buf b).valid = true
  dirty : ∀ b, (buf b).dirty = true -> (buf b).valid = true

/-- Processes differ at most in whether they wait in `bget`. -/
structure Alike (before after : ι -> Activity NBUF) : Prop where
  bread : ∀ p d k b, after p = .bread d k b <-> before p = .bread d k b
  bwrite : ∀ p b, after p = .bwrite b <-> before p = .bwrite b

omit [DecidableEq ι] in
theorem wakeup_alike (activity : ι -> Activity NBUF) (b : Fin NBUF) :
    Alike activity (wakeup activity b) := by
  have same : ∀ p, wakeup activity b p = activity p ∨
      ∃ d k c, activity p = .asleep d k c /\ wakeup activity b p = .bget d k := by
    intro p
    unfold wakeup
    split
    next d k c here =>
      split
      next => exact .inr ⟨d, k, c, here, rfl⟩
      next => exact .inl here.symm
    next => exact .inl rfl
  constructor
  · intro p d k c
    rcases same p with here | ⟨_, _, _, before, after⟩
    · rw [here]
    · rw [before, after]
      exact ⟨nofun, nofun⟩
  · intro p c
    rcases same p with here | ⟨_, _, _, before, after⟩
    · rw [here]
    · rw [before, after]
      exact ⟨nofun, nofun⟩

/-- A process enters `bget` or falls asleep in it. -/
theorem update_alike {activity : ι -> Activity NBUF} {p : ι} {a : Activity NBUF}
    (before : (∀ d k b, activity p ≠ .bread d k b) /\ ∀ b, activity p ≠ .bwrite b)
    (after : (∀ d k b, a ≠ .bread d k b) /\ ∀ b, a ≠ .bwrite b) :
    Alike activity (update activity p a) := by
  constructor
  · grind [update_apply]
  · grind [update_apply]

namespace Locked

variable {buf : Fin NBUF -> Buf} {holds : ι -> Fin NBUF -> Bool} {activity activity' : ι -> Activity NBUF}
  {p : ι} {b : Fin NBUF} {x : Buf} {d k : Nat}

omit [DecidableEq ι] in
theorem alike (locked : Locked buf holds activity) (same : Alike activity activity') :
    Locked buf holds activity' where
  exclusive := locked.exclusive
  busy := locked.busy
  reading := fun p d k b here => locked.reading p d k b ((same.bread p d k b).mp here)
  writing := fun p b here => locked.writing p b ((same.bwrite p b).mp here)
  filled := fun p b held here =>
    locked.filled p b held fun d k reads => here d k ((same.bread p d k b).mpr reads)
  dirty := locked.dirty

/-- `bget` gives a buffer that nobody has. -/
theorem take (locked : Locked buf holds activity) (free : (buf b).busy = false)
    (idle : ∀ c, activity p ≠ .bwrite c) (others : ∀ d k c, activity p ≠ .bread d k c)
    (busy : x.busy = true) (dev : x.dev = d) (sector : x.sector = k)
    (dirty : x.dirty = true -> x.valid = true) :
    Locked (update buf b x) (put holds p b true) (update activity p (.bread d k b)) := by
  have nobody : ∀ q, holds q b = true -> False := by
    intro q held
    rw [(locked.busy b).mpr ⟨q, held⟩] at free
    cases free
  have still : ∀ q c, c ≠ b -> put holds p b true q c = holds q c :=
    fun q c other => put_of_ne fun same => other same.2
  have mine : ∀ q, put holds p b true q b = true -> q = p := by
    intro q held
    by_contra other
    rw [put_of_ne fun same => other same.1] at held
    exact nobody q held
  constructor
  · intro q r c
    rcases eq_or_ne c b with rfl | other
    · exact fun first second => (mine q first).trans (mine r second).symm
    · rw [still q c other, still r c other]
      exact locked.exclusive q r c
  · intro c
    rcases eq_or_ne c b with rfl | other
    · rw [update_self]
      exact ⟨fun _ => ⟨p, put_self⟩, fun _ => busy⟩
    · rw [update_of_ne other, locked.busy c]
      exact exists_congr fun q => by rw [still q c other]
  · grind [update_apply, put, locked.reading]
  · grind [update_apply, locked.writing]
  · intro q c held here
    rcases eq_or_ne c b with rfl | other
    · obtain rfl := mine q held
      exact absurd (update_self _ _ _) (here d k)
    · grind [update_apply, locked.filled]
  · grind [update_apply, locked.dirty]

/-- The holder changes a buffer, and possibly what it is doing. -/
theorem change (locked : Locked buf holds activity) {a : Activity NBUF} (held : holds p b = true)
    (busy : x.busy = (buf b).busy) (place : x.dev = (buf b).dev /\ x.sector = (buf b).sector)
    (valid : x.valid = true) (before : ∀ c d k, activity p = .bread d k c -> c = b)
    (after : a = .running ∨ a = .bwrite b) (dirty : a = .bwrite b -> x.dirty = true) :
    Locked (update buf b x) holds (update activity p a) := by
  have mine : ∀ q, holds q b = true -> q = p := fun q other => locked.exclusive q p b other held
  constructor
  · exact locked.exclusive
  · grind [update_apply, locked.busy]
  · grind [update_apply, locked.reading]
  · grind [update_apply, locked.writing]
  · grind [update_apply, locked.filled]
  · grind [update_apply, locked.dirty]

theorem release (locked : Locked buf holds activity) (held : holds p b = true)
    (running : activity p = .running) :
    Locked (update buf b { buf b with busy := false }) (put holds p b false) activity := by
  have mine : ∀ q, holds q b = true -> q = p := fun q other => locked.exclusive q p b other held
  have still : ∀ q c, put holds p b false q c = true <-> holds q c = true /\ c ≠ b := by
    intro q c
    by_cases same : q = p /\ c = b
    · rw [same.1, same.2, put_self]
      exact ⟨nofun, fun both => absurd rfl both.2⟩
    · rw [put_of_ne same]
      refine ⟨fun holding => ⟨holding, ?_⟩, And.left⟩
      rintro rfl
      exact same ⟨mine q holding, rfl⟩
  have others : ∀ q, q ≠ p -> ∀ c, holds q c = true -> c ≠ b := by
    rintro q notMe c holding rfl
    exact notMe (mine q holding)
  have notMe : ∀ {q a}, activity q = a -> a ≠ .running -> q ≠ p := by
    rintro q a here ne rfl
    exact ne (here.symm.trans running)
  constructor
  · exact fun q r c first second =>
      locked.exclusive q r c ((still q c).mp first).1 ((still r c).mp second).1
  · grind [update_apply, locked.busy]
  · grind [update_apply, locked.reading]
  · grind [update_apply, locked.writing]
  · grind [update_apply, locked.filled]
  · grind [update_apply, locked.dirty]

end Locked

/-! ## What is in the buffers -/

structure Coherent (disk : Nat -> Nat -> Block) (buf : Fin NBUF -> Buf) (latest : Nat -> Nat -> Block)
    (unsaved : Fin NBUF -> Bool) (careless : Nat -> Nat -> Bool) : Prop where
  unique : ∀ b c, (buf b).dev ≠ nodev -> (buf c).dev = (buf b).dev ->
    (buf c).sector = (buf b).sector -> c = b
  cached : ∀ b, (buf b).valid = true -> (buf b).dev ≠ nodev ->
    careless (buf b).dev (buf b).sector = false -> (buf b).data = latest (buf b).dev (buf b).sector
  uncached : ∀ d k, d ≠ nodev -> careless d k = false ->
    (∀ b, (buf b).valid = true -> ¬ ((buf b).dev = d /\ (buf b).sector = k)) -> latest d k = disk d k
  clean : ∀ b, (buf b).valid = true -> (buf b).dirty = false -> unsaved b = false ->
    (buf b).dev ≠ nodev ->
    careless (buf b).dev (buf b).sector = false -> (buf b).data = disk (buf b).dev (buf b).sector
  released : ∀ b, (buf b).busy = false -> unsaved b = true -> careless (buf b).dev (buf b).sector = true

/-- A buffer is changed and stays with its sector. -/
theorem update_place {buf : Fin NBUF -> Buf} {b : Fin NBUF} {x : Buf}
    (place : x.dev = (buf b).dev /\ x.sector = (buf b).sector) (c : Fin NBUF) :
    (update buf b x c).dev = (buf c).dev /\ (update buf b x c).sector = (buf c).sector := by
  rcases eq_or_ne c b with rfl | other
  · rw [update_self]
    exact place
  · rw [update_of_ne other]
    exact ⟨rfl, rfl⟩

namespace Coherent

variable {disk latest : Nat -> Nat -> Block} {buf : Fin NBUF -> Buf} {unsaved unsaved' : Fin NBUF -> Bool}
  {careless careless' : Nat -> Nat -> Bool} {b : Fin NBUF} {d k : Nat}

/-- A buffer is given to a process or taken back. -/
theorem setBusy (coherent : Coherent disk buf latest unsaved careless) {flag : Bool}
    (grow : ∀ d k, careless' d k = false -> careless d k = false)
    (released : flag = false -> unsaved b = true -> careless' (buf b).dev (buf b).sector = true) :
    Coherent disk (update buf b { buf b with busy := flag }) latest unsaved careless' := by
  have same : ∀ c, ∃ flag', update buf b { buf b with busy := flag } c =
      { buf c with busy := flag' } /\ (c = b ∨ (buf c).busy = flag') := by
    intro c
    rcases eq_or_ne c b with rfl | other
    · exact ⟨flag, update_self _ _ _, .inl rfl⟩
    · exact ⟨(buf c).busy, update_of_ne other _ _, .inr rfl⟩
  constructor
  · intro c e
    rcases same c with ⟨_, cSame, _⟩
    rcases same e with ⟨_, eSame, _⟩
    rw [cSame, eSame]
    exact coherent.unique c e
  · intro c
    rcases same c with ⟨_, cSame, _⟩
    rw [cSame]
    exact fun valid real trusted => coherent.cached c valid real (grow _ _ trusted)
  · intro d k real trusted nowhere
    apply coherent.uncached d k real (grow _ _ trusted)
    intro c
    rcases same c with ⟨_, cSame, _⟩
    have kept := nowhere c
    rw [cSame] at kept
    exact kept
  · intro c
    rcases same c with ⟨_, cSame, _⟩
    rw [cSame]
    exact fun valid saved passed real trusted =>
      coherent.clean c valid saved passed real (grow _ _ trusted)
  · grind [update_apply, coherent.released]

/-- A buffer that nobody has and that is clean is reused. -/
theorem recycle (coherent : Coherent disk buf latest unsaved careless) (free : (buf b).busy = false)
    (saved : (buf b).dirty = false) (absent : ∀ c, ¬ ((buf c).dev = d /\ (buf c).sector = k))
    {x : Buf} (dev : x.dev = d) (sector : x.sector = k) (invalid : x.valid = false) :
    Coherent disk (update buf b x) latest (update unsaved b false) careless := by
  constructor
  · grind [update_apply, coherent.unique]
  · grind [update_apply, coherent.cached]
  · intro d' k' real trusted nowhere
    by_cases here : (buf b).valid = true /\ (buf b).dev = d' /\ (buf b).sector = k'
    · rcases here with ⟨valid, rfl, rfl⟩
      have passed : unsaved b = false := by
        cases changed : unsaved b with
        | false => rfl
        | true =>
          rw [coherent.released b free changed] at trusted
          cases trusted
      rw [<- coherent.cached b valid real trusted]
      exact coherent.clean b valid saved passed real trusted
    · apply coherent.uncached d' k' real trusted
      intro c valid place
      rcases eq_or_ne c b with rfl | other
      · exact here ⟨valid, place⟩
      · have later := nowhere c
        rw [update_of_ne other] at later
        exact later valid place
  · grind [update_apply, coherent.clean]
  · grind [update_apply, coherent.released]

section Change

variable {x : Buf} {disk' latest' : Nat -> Nat -> Block}

/-- One busy buffer changes its contents, or those of the disk, without moving to another sector. -/
theorem change (coherent : Coherent disk buf latest unsaved careless)
    (place : x.dev = (buf b).dev /\ x.sector = (buf b).sector) (busy : x.busy = true)
    (valid : x.valid = true)
    (others : ∀ d k, ¬ (d = (buf b).dev /\ k = (buf b).sector) ->
      disk' d k = disk d k /\ latest' d k = latest d k)
    (flagged : ∀ c, c ≠ b -> unsaved' c = unsaved c)
    (cached : (buf b).dev ≠ nodev -> careless (buf b).dev (buf b).sector = false ->
      x.data = latest' (buf b).dev (buf b).sector)
    (clean : x.dirty = false -> unsaved' b = false -> x.data = disk' (buf b).dev (buf b).sector) :
    Coherent disk' (update buf b x) latest' unsaved' careless := by
  have apart : ∀ c, c ≠ b -> (buf c).dev ≠ nodev ->
      ¬ ((buf c).dev = (buf b).dev /\ (buf c).sector = (buf b).sector) :=
    fun c other real same => other (coherent.unique b c (same.1 ▸ real) same.1 same.2)
  have places := update_place place
  constructor
  · intro c e
    rw [(places c).1, (places c).2, (places e).1, (places e).2]
    exact coherent.unique c e
  · grind [update_apply, coherent.cached]
  · grind [update_apply, coherent.uncached]
  · grind [update_apply, coherent.clean]
  · grind [update_apply, coherent.released]

end Change

end Coherent

/-! ## The steps -/

structure Inv (s : State ι NBUF) : Prop where
  listed : Listed s.links
  locked : Locked s.buf s.holds s.activity
  coherent : Coherent s.disk s.buf s.latest s.unsaved s.careless

namespace Inv

variable {s t : State ι NBUF} {p : ι} {b : Fin NBUF} {dev sector : Nat}

omit [DecidableEq ι] in
theorem binit (disk : Nat -> Nat -> Block) : Inv (Cache.binit ι NBUF disk) where
  listed := ⟨(List.finRange NBUF).reverse, binitLinks_circle _ (List.nodup_finRange NBUF),
    fun b => List.mem_reverse.mpr (List.mem_finRange b)⟩
  locked := ⟨nofun, fun _ => ⟨nofun, nofun⟩, nofun, nofun, nofun, nofun⟩
  coherent := ⟨fun _ _ real => absurd rfl real, nofun, fun _ _ _ _ _ => rfl, nofun, nofun⟩

omit [DecidableEq ι] in
theorem alike {activity : ι -> Activity NBUF} (inv : Inv s) (same : Alike s.activity activity) :
    Inv { s with activity := activity } :=
  ⟨inv.listed, inv.locked.alike same, inv.coherent⟩

/-- One turn of `bget`. -/
theorem bget (inv : Inv s) (here : s.activity p = .bget dev sector)
    (step : Cache.bget s p dev sector = some t) : Inv t := by
  have notReading : ∀ d k c, s.activity p ≠ .bread d k c := by
    rw [here]
    exact nofun
  have notWriting : ∀ c, s.activity p ≠ .bwrite c := by
    rw [here]
    exact nofun
  rcases inv.listed.seek_next (fun b => (s.buf b).dev == dev && (s.buf b).sector == sector)
    with ⟨found, walk, match_, absent⟩
  unfold Cache.bget at step
  dsimp only at step
  rw [walk] at step
  cases found with
  | some b =>
    have cached := match_ b rfl
    rw [Bool.and_eq_true, beq_iff_eq, beq_iff_eq] at cached
    dsimp only at step
    split at step
    next =>
      cases step
      exact inv.alike (update_alike ⟨notReading, notWriting⟩ ⟨nofun, nofun⟩)
    next notBusy =>
      cases step
      have free := Bool.eq_false_of_not_eq_true notBusy
      refine ⟨inv.listed, inv.locked.take free notWriting notReading rfl cached.1 cached.2
        (inv.locked.dirty b), ?_⟩
      exact inv.coherent.setBusy (fun _ _ trusted => trusted) nofun
  | none =>
    rcases inv.listed.seek_prev (fun b => !(s.buf b).busy && !(s.buf b).dirty) with ⟨reused,
      backward, reusable⟩
    dsimp only at step
    rw [backward] at step
    cases reused with
    | none => cases step
    | some b =>
      cases step
      have unused := reusable b rfl
      rw [Bool.and_eq_true, Bool.not_eq_true', Bool.not_eq_true'] at unused
      refine ⟨inv.listed, inv.locked.take unused.1 notWriting notReading rfl rfl rfl nofun, ?_⟩
      apply inv.coherent.recycle unused.1 unused.2 _ rfl rfl rfl
      intro c place
      have other := absent rfl c
      rw [place.1, place.2, beq_self_eq_true, beq_self_eq_true] at other
      cases other

section

omit [DecidableEq ι]

theorem iderw_dirty (dirty : (s.buf b).dirty = true) : iderw s b =
    { s with
      disk := put s.disk (s.buf b).dev (s.buf b).sector (s.buf b).data
      buf := update s.buf b { s.buf b with dirty := false, valid := true }
      activity := wakeup s.activity b } := by
  unfold iderw Memory.iderw
  dsimp only
  rw [if_pos dirty]
  congr 1
  funext d k
  unfold put
  rcases eq_or_ne d (s.buf b).dev with rfl | otherDev
  · rw [update_self]
    dsimp only
    rcases eq_or_ne k (s.buf b).sector with rfl | otherSector
    · rw [update_self, if_pos ⟨rfl, rfl⟩]
    · rw [update_of_ne otherSector, if_neg fun both => otherSector both.2]
  · rw [update_of_ne otherDev, if_neg fun both => otherDev both.1]

theorem iderw_clean (clean : (s.buf b).dirty = false) : iderw s b =
    { s with
      buf := update s.buf b
        { s.buf b with data := s.disk (s.buf b).dev (s.buf b).sector, valid := true }
      activity := wakeup s.activity b } := by
  unfold iderw Memory.iderw
  dsimp only
  rw [if_neg (by rw [clean]; exact nofun), update_eq_self]

/-- `B_BUSY` is set on a buffer that a process has. -/
theorem held_busy (inv : Inv s) (held : s.holds p b = true) : (s.buf b).busy = true :=
  (inv.locked.busy b).mpr ⟨p, held⟩

end

theorem readIn (inv : Inv s) (here : s.activity p = .bread dev sector b)
    (invalid : (s.buf b).valid = false) :
    Inv { iderw s b with activity := update (iderw s b).activity p .running } := by
  have held := (inv.locked.reading p dev sector b here).1
  have clean : (s.buf b).dirty = false := by
    cases flag : (s.buf b).dirty with
    | false => rfl
    | true =>
      rw [inv.locked.dirty b flag] at invalid
      cases invalid
  rw [iderw_clean clean]
  have woken := inv.locked.alike (wakeup_alike s.activity b)
  refine ⟨inv.listed, ?_, ?_⟩
  · apply woken.change (x :=
      { s.buf b with data := s.disk (s.buf b).dev (s.buf b).sector, valid := true }) held rfl
      ⟨rfl, rfl⟩ rfl _ (.inl rfl) nofun
    intro c d k reads
    rw [(wakeup_alike s.activity b).bread p d k c, here] at reads
    cases reads
    rfl
  · apply inv.coherent.change (x :=
      { s.buf b with data := s.disk (s.buf b).dev (s.buf b).sector, valid := true })
      ⟨rfl, rfl⟩ (inv.held_busy held) rfl (fun _ _ _ => ⟨rfl, rfl⟩) (fun _ _ => rfl) _ fun _ _ => rfl
    intro real trusted
    refine (inv.coherent.uncached _ _ real trusted ?_).symm
    intro c valid place
    obtain rfl := inv.coherent.unique b c real place.1 place.2
    rw [invalid] at valid
    cases valid

theorem writeOut (inv : Inv s) (here : s.activity p = .bwrite b) :
    Inv { iderw s b with activity := update (iderw s b).activity p .running } := by
  rcases inv.locked.writing p b here with ⟨held, dirty⟩
  rw [iderw_dirty dirty]
  have woken := inv.locked.alike (wakeup_alike s.activity b)
  refine ⟨inv.listed, ?_, ?_⟩
  · apply woken.change (x := { s.buf b with dirty := false, valid := true }) held rfl ⟨rfl, rfl⟩ rfl
      _ (.inl rfl) nofun
    intro c d k reads
    rw [(wakeup_alike s.activity b).bread p d k c, here] at reads
    cases reads
  · apply inv.coherent.change (x := { s.buf b with dirty := false, valid := true }) ⟨rfl, rfl⟩
      (inv.held_busy held) rfl _ (fun _ _ => rfl) _ fun _ _ => put_self.symm
    · exact fun d k other => ⟨put_of_ne other, rfl⟩
    · exact fun real trusted => inv.coherent.cached b (inv.locked.dirty b dirty) real trusted

theorem finish (inv : Inv s) (step : Cache.finish s p = some t) : Inv t := by
  unfold Cache.finish at step
  split at step
  next dev sector b here =>
    cases step
    split
    next valid =>
      have held := (inv.locked.reading p dev sector b here).1
      refine ⟨inv.listed, ?_, inv.coherent⟩
      have only : ∀ c d k, s.activity p = .bread d k c -> c = b := by
        intro c d k reads
        rw [here] at reads
        cases reads
        rfl
      have kept := inv.locked.change (x := s.buf b) held rfl ⟨rfl, rfl⟩ valid only (.inl rfl) nofun
      rw [update_eq_self] at kept
      exact kept
    next notValid => exact inv.readIn here (Bool.eq_false_of_not_eq_true notValid)
  next b here =>
    cases step
    exact inv.writeOut here
  next => cases step

omit [DecidableEq ι] in
theorem held_valid (inv : Inv s) (running : s.activity p = .running) (held : s.holds p b = true) :
    (s.buf b).valid = true := by
  apply inv.locked.filled p b held
  rw [running]
  exact nofun

theorem modify (inv : Inv s) (running : s.activity p = .running) (held : s.holds p b = true)
    (data : Block) :
    Inv { s with
      buf := update s.buf b { s.buf b with data := data }
      latest := put s.latest (s.buf b).dev (s.buf b).sector data
      unsaved := update s.unsaved b true } := by
  have valid := inv.held_valid running held
  refine ⟨inv.listed, ?_, ?_⟩
  · have none : ∀ c d k, s.activity p = .bread d k c -> c = b := by
      rw [running]
      exact nofun
    have kept := inv.locked.change (x := { s.buf b with data := data }) held rfl ⟨rfl, rfl⟩ valid
        none (.inl rfl) nofun
    rw [<- running, update_eq_self] at kept
    exact kept
  · apply inv.coherent.change (x := { s.buf b with data := data }) ⟨rfl, rfl⟩ (inv.held_busy held) valid
    · exact fun d k other => ⟨rfl, put_of_ne other⟩
    · exact fun c other => update_of_ne other _ _
    · exact fun _ _ => put_self.symm
    · exact fun _ passed => nomatch (update_self b true s.unsaved).symm.trans passed

/-- `log_write` and `bwrite` set `B_DIRTY`. -/
theorem mark (inv : Inv s) (running : s.activity p = .running) (held : s.holds p b = true)
    {a : Activity NBUF} (after : a = .running ∨ a = .bwrite b) :
    Inv { s with
      buf := update s.buf b { s.buf b with dirty := true }
      activity := update s.activity p a
      unsaved := update s.unsaved b false } := by
  have valid := inv.held_valid running held
  refine ⟨inv.listed, ?_, ?_⟩
  · apply inv.locked.change (x := { s.buf b with dirty := true }) held rfl ⟨rfl, rfl⟩ valid _ after
      fun _ => rfl
    rw [running]
    exact nofun
  · apply inv.coherent.change (x := { s.buf b with dirty := true }) ⟨rfl, rfl⟩ (inv.held_busy held) valid
      fun _ _ _ => ⟨rfl, rfl⟩
    · exact fun c other => update_of_ne other _ _
    · exact fun real trusted => inv.coherent.cached b valid real trusted
    · exact nofun

theorem brelse (inv : Inv s) (running : s.activity p = .running) (held : s.holds p b = true) :
    Inv (Cache.brelse s p b) := by
  unfold Cache.brelse
  refine ⟨inv.listed.moveFront b, (inv.locked.release held running).alike (wakeup_alike _ _), ?_⟩
  have grow : ∀ d k, (if s.unsaved b = true then put s.careless (s.buf b).dev (s.buf b).sector true
      else s.careless) d k = false -> s.careless d k = false := by
    intro d k
    split
    next =>
      by_cases same : d = (s.buf b).dev /\ k = (s.buf b).sector
      · rw [same.1, same.2, put_self]
        exact nofun
      · rw [put_of_ne same]
        exact id
    next => exact id
  apply inv.coherent.setBusy grow
  intro _ changed
  rw [if_pos changed, put_self]

theorem step {label : Label ι NBUF} (inv : Inv s) (step : Step s label t) : Inv t := by
  unfold Step perform at step
  cases label with
  | bread p dev sector =>
    dsimp only at step
    split at step
    next running =>
      cases step
      apply inv.alike
      apply update_alike
      · rw [running]
        exact ⟨nofun, nofun⟩
      · exact ⟨nofun, nofun⟩
    next => cases step
  | bget p =>
    dsimp only at step
    split at step
    next dev sector here => exact inv.bget here step
    next => cases step
  | iderw p => exact inv.finish step
  | modify p b data =>
    dsimp only at step
    split at step
    next allowed =>
      cases step
      exact inv.modify allowed.1 allowed.2 data
    next => cases step
  | logWrite p b =>
    dsimp only at step
    split at step
    next allowed =>
      cases step
      have marked := inv.mark allowed.1 allowed.2 (.inl rfl)
      rw [<- allowed.1, update_eq_self] at marked
      exact marked
    next => cases step
  | bwrite p b =>
    dsimp only at step
    split at step
    next allowed =>
      cases step
      exact inv.mark allowed.1 allowed.2.1 (.inr rfl)
    next => cases step
  | brelse p b =>
    dsimp only at step
    split at step
    next allowed =>
      cases step
      exact inv.brelse allowed.1 allowed.2.1
    next => cases step

end Inv

section Results

variable {s t : State ι NBUF} {p : ι} {b : Fin NBUF}

omit [DecidableEq ι] in
theorem iderw_place (s : State ι NBUF) (b c : Fin NBUF) :
    ((iderw s b).buf c).dev = (s.buf c).dev /\ ((iderw s b).buf c).sector = (s.buf c).sector := by
  unfold iderw Memory.iderw
  dsimp only
  split
  next =>
    apply update_place
    exact ⟨rfl, rfl⟩
  next =>
    apply update_place
    exact ⟨rfl, rfl⟩

/-- Only a buffer that nobody has and that is clean goes to another sector. -/
theorem bget_place (inv : Inv s) {dev sector : Nat} (step : bget s p dev sector = some t) :
    (t.buf b).dev = (s.buf b).dev /\ (t.buf b).sector = (s.buf b).sector ∨
      (s.buf b).busy = false /\ (s.buf b).dirty = false := by
  unfold bget at step
  dsimp only at step
  split at step
  next => cases step
  next =>
    split at step
    next =>
      cases step
      exact .inl ⟨rfl, rfl⟩
    next =>
      cases step
      left
      apply update_place
      exact ⟨rfl, rfl⟩
  next =>
    rcases inv.listed.seek_prev (fun b => !(s.buf b).busy && !(s.buf b).dirty) with ⟨reused,
      backward, reusable⟩
    rw [backward] at step
    cases reused with
    | none => cases step
    | some c =>
      cases step
      rcases eq_or_ne b c with rfl | other
      · have unused := reusable b rfl
        rw [Bool.and_eq_true, Bool.not_eq_true', Bool.not_eq_true'] at unused
        exact .inr unused
      · refine .inl ?_
        dsimp only
        rw [update_of_ne other]
        exact ⟨rfl, rfl⟩

theorem dirty_place {label : Label ι NBUF} (inv : Inv s) (step : Step s label t)
    (dirty : (s.buf b).dirty = true) :
    (t.buf b).dev = (s.buf b).dev /\ (t.buf b).sector = (s.buf b).sector := by
  unfold Step perform at step
  cases label with
  | bget p =>
    dsimp only at step
    split at step
    next =>
      rcases bget_place inv step with kept | wrong
      · exact kept
      · rw [dirty] at wrong
        cases wrong.2
    next => cases step
  | iderw p =>
    dsimp only at step
    unfold finish at step
    split at step
    next c _ =>
      cases step
      split
      next => exact ⟨rfl, rfl⟩
      next => exact iderw_place s c b
    next c _ =>
      cases step
      exact iderw_place s c b
    next => cases step
  | bread p dev sector =>
    dsimp only at step
    split at step
    next =>
      cases step
      exact ⟨rfl, rfl⟩
    next => cases step
  | modify p c data | logWrite p c | bwrite p c | brelse p c =>
    dsimp only at step
    split at step
    next =>
      cases step
      apply update_place
      exact ⟨rfl, rfl⟩
    next => cases step

/-- `bread` returns the data in the cache, or the one on the disk. -/
theorem bread_returns (inv : Inv s) {dev sector : Nat} (here : s.activity p = .bread dev sector b) :
    ∃ t, Step s (.iderw p) t /\ t.activity p = .running /\ t.holds p b = true /\
    (t.buf b).valid = true /\
      (t.buf b).dev = dev /\ (t.buf b).sector = sector /\ t.latest = s.latest /\
      t.careless = s.careless /\
      (t.buf b).data = if (s.buf b).valid = true then (s.buf b).data else s.disk dev sector := by
  rcases inv.locked.reading p dev sector b here with ⟨held, rfl, rfl⟩
  cases valid : (s.buf b).valid with
  | true =>
    refine ⟨{ s with activity := update s.activity p .running }, ?_, update_self _ _ _, held, valid,
      rfl, rfl, rfl, rfl, rfl⟩
    change finish s p = _
    unfold finish
    rw [here]
    dsimp only
    rw [if_pos valid]
  | false =>
    have clean : (s.buf b).dirty = false := by
      cases flag : (s.buf b).dirty with
      | false => rfl
      | true =>
        rw [inv.locked.dirty b flag] at valid
        cases valid
    have bufEq : (iderw s b).buf b =
        { s.buf b with data := s.disk (s.buf b).dev (s.buf b).sector, valid := true } := by
      rw [Inv.iderw_clean clean]
      exact update_self _ _ _
    refine ⟨{ iderw s b with activity := update (iderw s b).activity p .running }, ?_,
      update_self _ _ _, held, ?_, ?_, ?_, rfl, rfl, ?_⟩
    · change finish s p = _
      unfold finish
      rw [here]
      dsimp only
      rw [if_neg (by rw [valid]; exact nofun)]
    · dsimp only
      rw [bufEq]
    · dsimp only
      rw [bufEq]
    · dsimp only
      rw [bufEq]
    · dsimp only
      rw [bufEq]
      rfl

/-- The buffer cache.  In every state that a run of processes reaches, a sector has at most one
buffer, a buffer has at most one holder and `B_BUSY` is set when it has one, the list has every
buffer once in both directions, no step moves a dirty buffer to another sector, and `bread` returns
the buffer of its sector with the data that was last put there, unless somebody gave that buffer
back with a change that went to neither `log_write` nor `bwrite`; in any case it is the data of the
buffer if that was in the cache, and else that of the disk. -/
theorem buffer_cache {disk : Nat -> Nat -> Block} {labels : List (Label ι NBUF)}
    (run : GuardedRun Step (fun _ _ => True) (binit ι NBUF disk) labels s) :
    (∀ b c, (s.buf b).dev ≠ nodev -> (s.buf c).dev = (s.buf b).dev ->
      (s.buf c).sector = (s.buf b).sector -> c = b) /\
    (∀ p q b, s.holds p b = true -> s.holds q b = true -> p = q) /\
    (∀ b, (s.buf b).busy = true <-> ∃ p, s.holds p b = true) /\
    (∃ cells, cells.Nodup /\ (∀ b, b ∈ cells) /\ Path s.links none cells none /\
      Path s.links.swap none cells.reverse none) /\
    (∀ label t b, Step s label t -> (s.buf b).dirty = true ->
      (t.buf b).dev = (s.buf b).dev /\ (t.buf b).sector = (s.buf b).sector) /\
    ∀ p dev sector b, s.activity p = .bread dev sector b -> ∃ t, Step s (.iderw p) t /\
      t.activity p = .running /\ t.holds p b = true /\ (t.buf b).valid = true /\
      (t.buf b).dev = dev /\ (t.buf b).sector = sector /\
      ((t.buf b).data = if (s.buf b).valid = true then (s.buf b).data else s.disk dev sector) /\
      (dev ≠ nodev -> s.careless dev sector = false -> (t.buf b).data = s.latest dev sector) := by
  have inv : Inv s := run.invariant (fun _ _ _ _ step before => before.step step) (Inv.binit disk)
  rcases inv.listed with ⟨cells, circle, all⟩
  refine ⟨inv.coherent.unique, inv.locked.exclusive, inv.locked.busy,
    ⟨cells, circle.nodup, all, circle.path, circle.path.reverse⟩, fun _ _ _ => dirty_place inv, ?_⟩
  intro p dev sector b here
  rcases bread_returns inv here with ⟨t, step, running, held, valid, rfl, rfl, latest, careless, data⟩
  refine ⟨t, step, running, held, valid, rfl, rfl, data, ?_⟩
  rw [<- latest, <- careless]
  exact (inv.step step).coherent.cached b valid

end Results

/-- A process changes a block while another waits for it. -/
def waitForBlock : List (Label Bool 2) :=
  [.bread false 1 5, .bget false, .iderw false, .bread true 1 5, .bget true,
    .modify false ⟨0, Nat.two_pos⟩ fun _ => 7#8,
    .logWrite false ⟨0, Nat.two_pos⟩, .brelse false ⟨0, Nat.two_pos⟩, .bget true]

theorem buffer_cache_waitForBlock : ∃ s : State Bool 2,
    GuardedRun Step (fun _ _ => True) (binit Bool 2 fun _ _ _ => 0#8) waitForBlock s /\
      s.activity true = .bread 1 5 0 /\ ∃ t, Step s (.iderw true) t /\ (t.buf 0).data = fun _ =>
        7#8 := by
  have outcome : ∃ s : State Bool 2,
      checked (fun _ _ => True) perform (binit Bool 2 fun _ _ _ => 0#8) waitForBlock =
        some s /\ s.activity true = .bread 1 5 0 /\ s.careless 1 5 = false /\
          s.latest 1 5 = fun _ => 7#8 := by
    refine ⟨_, rfl, rfl, rfl, rfl⟩
  rcases outcome with ⟨s, reached, here, careful, latest⟩
  have run := GuardedRun.of_checked reached
  rcases buffer_cache run with ⟨_, _, _, _, _, returns⟩
  rcases returns true 1 5 0 here with ⟨t, step, _, _, _, _, _, _, data⟩
  exact ⟨s, run, here, t, step, (data (by decide) careful).trans latest⟩

end Xv6.Cache
