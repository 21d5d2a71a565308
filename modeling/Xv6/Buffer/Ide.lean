import Mathlib.Data.Fintype.Card
import Mathlib.Data.Fintype.Basic
import Xv6.Library.Chain
import Xv6.Fs.Blocks

namespace Xv6.Ide

open Library
open Fs (Block)
open Function

/-!
# The disk driver of `ide.c`, and the one of `memide.c`

`iderw` puts a busy buffer into a queue linked by `qnext` and sleeps; the disk
works on the first buffer of the queue, and `ideintr` takes it off the queue
and starts the disk on the next one.  A step is a section that holds
`idelock`, or what the disk does by itself: it finishes the command that it was
given and raises its interrupt, once for each command and without an error.

`iderw` of `memide.c` copies the block at once.  `memory` is what the disk and
the buffers would be with that driver, called once for each request in the
order of arrival.
-/

structure Buf where
  dev : Nat
  sector : Nat
  /-- `B_BUSY` -/
  busy : Bool
  /-- `B_VALID` -/
  valid : Bool
  /-- `B_DIRTY` -/
  dirty : Bool
  data : Block

/-- `(b->flags & (B_VALID|B_DIRTY)) == B_VALID` -/
def Buf.Synced (x : Buf) : Prop := x.valid = true /\ x.dirty = false

instance (x : Buf) : Decidable x.Synced := inferInstanceAs (Decidable (_ /\ _))

variable {ι β : Type}

/-! ## `memide.c` -/

structure Memory (β : Type) where
  /-- `memdisk`, by sectors -/
  disk : Nat -> Block
  buf : β -> Buf

/-- `(uint)_binary_fs_img_size/512` -/
def disksize (size : BitVec 32) : Nat := size.toNat / 512

/-- The request does not panic. -/
def Accepted (size : BitVec 32) (x : Buf) : Prop :=
  x.busy = true /\ ¬ x.Synced /\ x.dev = 1 /\ x.sector < disksize size

instance (size : BitVec 32) (x : Buf) : Decidable (Accepted size x) :=
  inferInstanceAs (Decidable (_ /\ _))

variable [DecidableEq β]

/-- `iderw` of `memide.c`, for a request that does not panic. -/
def Memory.iderw (m : Memory β) (b : β) : Memory β :=
  let x := m.buf b
  if x.dirty = true then
    ⟨update m.disk x.sector x.data, update m.buf b { x with dirty := false, valid := true }⟩
  else ⟨m.disk, update m.buf b { x with data := m.disk x.sector, valid := true }⟩

/-! ## `ide.c` -/

/-- What the disk is doing. -/
inductive Device where
  | idle
  | reading (drive sector : Nat)
  | writing (drive sector : Nat) (data : Block)
  /-- The command is done and the interrupt has been raised; after a read the data can be fetched. -/
  | raised (data : Option Block)

structure State (ι β : Type) where
  /-- The sectors of each drive. -/
  disks : Nat -> Nat -> Block
  havedisk1 : Bool
  buf : β -> Buf
  /-- The process that has set `B_BUSY`. -/
  owner : β -> Option ι
  idequeue : Option β
  qnext : β -> Option β
  device : Device
  /-- The buffer that a process waits for in `iderw`. -/
  waits : ι -> Option β
  arrived : List β
  served : List β
  memory : Memory β

inductive Label (ι β : Type) where
  | iderw (p : ι) (b : β)
  /-- The disk finishes its command. -/
  | finish
  | ideintr
  /-- A process in `iderw` is awake and looks at the flags. -/
  | wake (p : ι)
  /-- Whatever happens to a buffer that is not in `iderw`. -/
  | use (b : β) (owner : Option ι) (x : Buf)

/-- The command for a buffer: the drive is the low bit of `dev`, and a sector number has 28 bits. -/
def command (x : Buf) : Device :=
  if x.dirty = true then .writing (x.dev % 2) (x.sector % 2 ^ 28) x.data
  else .reading (x.dev % 2) (x.sector % 2 ^ 28)

/-- The buffer after `ideintr` has fetched the data of a read. -/
def fetched (x : Buf) (data : Option Block) : Buf :=
  { x with
    data := if x.dirty = true then x.data else data.getD x.data
    valid := true
    dirty := false }

/-- A transfer has been asked for and its `iderw` has not returned. -/
def InFlight (s : State ι β) (b : β) : Prop :=
  match s.owner b with
  | none => False
  | some p => s.waits p = some b

instance (s : State ι β) (b : β) : Decidable (InFlight s b) := by
  unfold InFlight
  split
  next => infer_instance
  next => infer_instance

variable [DecidableEq ι] [Fintype β]

/-- `iderw` up to its `sleep`. -/
def request (s : State ι β) (p : ι) (b : β) : Option (State ι β) :=
  if (s.buf b).busy = false ∨ (s.buf b).Synced ∨ ((s.buf b).dev ≠ 0 /\ s.havedisk1 = false) then none
  else
    (Chain.enqueue (Fintype.card β) s.qnext s.idequeue b).map fun links =>
      { s with
        idequeue := links.1
        qnext := links.2
        device := if links.1 = some b then command (s.buf b) else s.device
        waits := update s.waits p (some b)
        arrived := s.arrived ++ [b]
        memory := s.memory.iderw b }

omit [DecidableEq β] [DecidableEq ι] [Fintype β] in
/-- The disk carries out its command. -/
def carryOut (s : State ι β) : Option (State ι β) :=
  match s.device with
  | .reading drive sector => some { s with device := .raised (some (s.disks drive sector)) }
  | .writing drive sector data =>
    some { s with
      disks := update s.disks drive (update (s.disks drive) sector data)
      device := .raised none }
  | _ => none

omit [DecidableEq ι] [Fintype β] in
/-- The interrupt handler, when the disk has raised its interrupt. -/
def ideintr (s : State ι β) : Option (State ι β) :=
  match s.device with
  | .raised data =>
    match s.idequeue with
    | none => some { s with device := .idle }
    | some b =>
      let buf := update s.buf b (fetched (s.buf b) data)
      some { s with
        buf := buf
        idequeue := s.qnext b
        device := match s.qnext b with
          | none => .idle
          | some next => command (buf next)
        served := s.served ++ [b] }
  | _ => none

def perform (s : State ι β) : Label ι β -> Option (State ι β)
  | .iderw p b => if s.owner b = some p /\ s.waits p = none then request s p b else none
  | .finish => carryOut s
  | .ideintr => ideintr s
  | .wake p =>
    match s.waits p with
    | none => none
    | some b => if (s.buf b).Synced then some { s with waits := update s.waits p none } else some s
  | .use b owner x =>
    if InFlight s b then none
    else some { s with
      owner := update s.owner b owner
      buf := update s.buf b x
      memory := { s.memory with buf := update s.memory.buf b x } }

def Step (s : State ι β) (label : Label ι β) (t : State ι β) : Prop := perform s label = some t

section

omit [DecidableEq ι] [DecidableEq β] [Fintype β]

/-- The requests are such that `memide.c` takes them. -/
def Comparable (size : BitVec 32) (s : State ι β) : Label ι β -> Prop
  | .iderw _ b => Accepted size (s.buf b)
  | _ => True

instance (size : BitVec 32) (s : State ι β) (label : Label ι β) :
    Decidable (Comparable size s label) := by
  cases label with
  | iderw p b => exact inferInstanceAs (Decidable (Accepted size (s.buf b)))
  | _ => exact inferInstanceAs (Decidable True)

/-- No request has been made. -/
def quiet (disks : Nat -> Nat -> Block) (havedisk1 : Bool) (buf : β -> Buf) (owner : β -> Option ι)
    (qnext : β -> Option β) : State ι β where
  disks := disks
  havedisk1 := havedisk1
  buf := buf
  owner := owner
  idequeue := none
  qnext := qnext
  device := .idle
  waits := fun _ => none
  arrived := []
  served := []
  memory := ⟨disks 1, buf⟩

end

/-! ## `memide.c` on several requests -/

section Memory

omit [Fintype β]

variable {disk : Nat -> Block} {buf : β -> Buf} {b c : β} {x : Buf}

theorem iderw_update_of_ne (ne : c ≠ b) :
    Memory.iderw ⟨disk, update buf b x⟩ c =
      ⟨(Memory.iderw ⟨disk, buf⟩ c).disk, update (Memory.iderw ⟨disk, buf⟩ c).buf b x⟩ := by
  unfold Memory.iderw
  dsimp only
  rw [update_of_ne ne]
  split
  next => rw [update_comm ne]
  next => rw [update_comm ne]

/-- A buffer that is not among the requests may change before or after them. -/
theorem foldl_update (requests : List β) : ∀ {disk : Nat -> Block} {buf : β -> Buf}, b ∉ requests ->
    requests.foldl Memory.iderw ⟨disk, update buf b x⟩ =
      ⟨(requests.foldl Memory.iderw ⟨disk, buf⟩).disk,
        update (requests.foldl Memory.iderw ⟨disk, buf⟩).buf b x⟩ := by
  induction requests with
  | nil => exact fun _ => rfl
  | cons first rest ih =>
    intro disk buf absent
    have ne : first ≠ b := fun same => absent (by rw [same]; exact List.mem_cons_self)
    rw [List.foldl_cons, List.foldl_cons, iderw_update_of_ne ne]
    exact ih fun listed => absent (List.mem_cons_of_mem _ listed)

theorem foldl_buf (requests : List β) : ∀ {m : Memory β}, b ∉ requests ->
    (requests.foldl Memory.iderw m).buf b = m.buf b := by
  induction requests with
  | nil => exact fun _ => rfl
  | cons first rest ih =>
    intro m absent
    have ne : b ≠ first := fun same => absent (by rw [same]; exact List.mem_cons_self)
    rw [List.foldl_cons, ih fun listed => absent (List.mem_cons_of_mem _ listed)]
    unfold Memory.iderw
    dsimp only
    split
    next => exact update_of_ne ne _ _
    next => exact update_of_ne ne _ _

/-- Writing the block of a dirty buffer before `memide.c` does makes no difference. -/
theorem iderw_written (dirty : (buf b).dirty = true) :
    Memory.iderw ⟨update disk (buf b).sector (buf b).data, buf⟩ b = Memory.iderw ⟨disk, buf⟩ b := by
  unfold Memory.iderw
  dsimp only
  rw [if_pos dirty, if_pos dirty, update_idem]

end Memory

/-! ## The invariant -/

/-- How far the disk is with the first buffer of the queue. -/
def Phase (disk : Nat -> Block) (x : Buf) : Device -> Prop
  | .idle => False
  | .reading drive sector => x.dirty = false /\ drive = 1 /\ sector = x.sector
  | .writing drive sector data => x.dirty = true /\ drive = 1 /\ sector = x.sector /\ data = x.data
  | .raised data =>
    (x.dirty = true /\ disk x.sector = x.data) ∨ (x.dirty = false /\ data = some (disk x.sector))

omit [DecidableEq ι] [DecidableEq β] [Fintype β] in
def Serving (s : State ι β) : List β -> Prop
  | [] => s.device = .idle
  | b :: _ => Phase (s.disks 1) (s.buf b) s.device

/-- The invariant, for the buffers in the queue. -/
structure Inv (size : BitVec 32) (s : State ι β) (queue : List β) : Prop where
  chain : Chain s.qnext s.idequeue queue
  nodup : queue.Nodup
  order : s.arrived = s.served ++ queue
  accepted : ∀ b, b ∈ queue -> Accepted size (s.buf b)
  waiting : ∀ b, b ∈ queue -> ∃ p, s.owner b = some p /\ s.waits p = some b
  awake : ∀ p b, s.waits p = some b -> s.owner b = some p /\ (b ∉ queue -> (s.buf b).Synced)
  serving : Serving s queue
  memory : queue.foldl Memory.iderw ⟨s.disks 1, s.buf⟩ = s.memory

theorem phase_command {size : BitVec 32} {disk : Nat -> Block} {x : Buf}
    (accepted : Accepted size x) : Phase disk x (command x) := by
  rcases accepted with ⟨_, _, dev, small⟩
  have bound := size.isLt
  unfold disksize at small
  have sector : x.sector % 2 ^ 28 = x.sector := Nat.mod_eq_of_lt (by omega)
  unfold command
  rw [dev, sector]
  cases dirty : x.dirty with
  | false => exact ⟨dirty, rfl, rfl⟩
  | true => exact ⟨dirty, rfl, rfl, rfl⟩

namespace Inv

variable {size : BitVec 32} {s t : State ι β} {queue : List β} {b : β} {p : ι}

omit [DecidableEq ι] [Fintype β] in
theorem inFlight (inv : Inv size s queue) (listed : b ∈ queue) : InFlight s b := by
  rcases inv.waiting b listed with ⟨p, owner, waits⟩
  unfold InFlight
  rw [owner]
  exact waits

theorem request (inv : Inv size s queue) (owner : s.owner b = some p) (free : s.waits p = none)
    (accepted : Accepted size (s.buf b)) (done : request s p b = some t) :
    Inv size t (queue ++ [b]) := by
  have absent : b ∉ queue := by
    intro listed
    rcases inv.waiting b listed with ⟨q, other, waits⟩
    rw [owner] at other
    cases other
    rw [free] at waits
    cases waits
  rcases Chain.enqueue_eq inv.chain inv.nodup absent inv.nodup.length_le_card with ⟨links, put, chain⟩
  unfold Ide.request at done
  split at done
  next => cases done
  next =>
    rw [put] at done
    cases done
    constructor
    · exact chain
    · rw [List.nodup_append]
      refine ⟨inv.nodup, List.nodup_singleton b, ?_⟩
      rintro c listed d single rfl
      rw [List.mem_singleton.mp single] at listed
      exact absent listed
    · dsimp only
      rw [inv.order, List.append_assoc]
    · intro c listed
      rcases List.mem_append.mp listed with old | new
      · exact inv.accepted c old
      · rw [List.mem_singleton.mp new]
        exact accepted
    · grind [update_apply, inv.waiting]
    · grind [update_apply, inv.awake]
    · cases queue with
      | nil =>
        have first : links.1 = some b := chain.1
        change Phase _ _ (if links.1 = some b then command (s.buf b) else s.device)
        rw [if_pos first]
        exact phase_command accepted
      | cons first rest =>
        have head : links.1 = some first := chain.1
        have ne : ¬ links.1 = some b := by
          rw [head]
          intro same
          cases same
          exact absent List.mem_cons_self
        change Phase _ _ (if links.1 = some b then command (s.buf b) else s.device)
        rw [if_neg ne]
        exact inv.serving
    · dsimp only
      rw [List.foldl_append, inv.memory]
      rfl

omit [DecidableEq ι] [Fintype β] in
theorem carryOut (inv : Inv size s queue) (done : carryOut s = some t) : Inv size t queue := by
  have serving := inv.serving
  unfold Ide.carryOut at done
  cases queue with
  | nil =>
    have idle : s.device = .idle := serving
    rw [idle] at done
    cases done
  | cons b rest =>
    have phase : Phase (s.disks 1) (s.buf b) s.device := serving
    cases device : s.device with
    | idle =>
      rw [device] at done
      cases done
    | raised data =>
      rw [device] at done
      cases done
    | reading drive sector =>
      rw [device] at done phase
      cases done
      rcases phase with ⟨clean, rfl, rfl⟩
      exact { inv with serving := .inr ⟨clean, rfl⟩ }
    | writing drive sector data =>
      rw [device] at done phase
      cases done
      rcases phase with ⟨dirty, rfl, rfl, rfl⟩
      have written : update s.disks 1 (update (s.disks 1) (s.buf b).sector (s.buf b).data) 1 =
          update (s.disks 1) (s.buf b).sector (s.buf b).data := update_self _ _ _
      exact { inv with
        serving := by
          left
          refine ⟨dirty, ?_⟩
          dsimp only
          rw [written, update_self]
        memory := by
          dsimp only
          rw [written, List.foldl_cons, iderw_written dirty]
          exact inv.memory }

omit [Fintype β] in
/-- `ideintr` does to the first buffer what `memide.c` does. -/
theorem fetched_eq {disk : Nat -> Block} {buf : β -> Buf} {data : Option Block}
    (phase : ((buf b).dirty = true /\ disk (buf b).sector = (buf b).data) ∨
      ((buf b).dirty = false /\ data = some (disk (buf b).sector))) :
    (⟨disk, update buf b (fetched (buf b) data)⟩ : Memory β) = Memory.iderw ⟨disk, buf⟩ b := by
  unfold Memory.iderw fetched
  dsimp only
  rcases phase with ⟨dirty, same⟩ | ⟨clean, rfl⟩
  · rw [if_pos dirty, if_pos dirty, <- same, update_eq_self]
  · rw [if_neg (by rw [clean]; decide), if_neg (by rw [clean]; decide), clean]
    rfl

omit [DecidableEq ι] [Fintype β] in
theorem ideintr (inv : Inv size s queue) (done : ideintr s = some t) : ∃ rest, Inv size t rest := by
  have serving := inv.serving
  unfold Ide.ideintr at done
  cases queue with
  | nil =>
    have idle : s.device = .idle := serving
    rw [idle] at done
    cases done
  | cons b rest =>
    rcases inv.chain with ⟨head, later⟩
    rcases List.nodup_cons.mp inv.nodup with ⟨absent, nodup⟩
    have phase : Phase (s.disks 1) (s.buf b) s.device := serving
    cases device : s.device with
    | raised data =>
      rw [device, head] at done
      rw [device] at phase
      cases done
      have others : ∀ {c : β}, c ≠ b -> update s.buf b (fetched (s.buf b) data) c = s.buf c :=
        fun ne => update_of_ne ne _ _
      have apart : ∀ {c : β}, c ∈ rest -> c ≠ b := by
        rintro c listed rfl
        exact absent listed
      refine ⟨rest, ?_⟩
      constructor
      · exact later
      · exact nodup
      · dsimp only
        rw [inv.order, List.append_assoc]
        rfl
      · intro c listed
        dsimp only
        rw [others (apart listed)]
        exact inv.accepted c (List.mem_cons_of_mem _ listed)
      · exact fun c listed => inv.waiting c (List.mem_cons_of_mem _ listed)
      · intro p c waits
        rcases inv.awake p c waits with ⟨owner, synced⟩
        refine ⟨owner, fun gone => ?_⟩
        dsimp only
        by_cases same : c = b
        · rw [same, update_self]
          exact ⟨rfl, rfl⟩
        · rw [others same]
          apply synced
          intro listed
          rcases List.mem_cons.mp listed with equal | old
          · exact same equal
          · exact gone old
      · cases rest with
        | nil =>
          have ends : s.qnext b = none := later
          change (match s.qnext b with
            | none => Device.idle
            | some next => _) = _
          rw [ends]
        | cons c rest =>
          have next : s.qnext b = some c := later.1
          have same : update s.buf b (fetched (s.buf b) data) c = s.buf c :=
            others (apart List.mem_cons_self)
          change Phase (s.disks 1) (update s.buf b (fetched (s.buf b) data) c) (match s.qnext b with
            | none => Device.idle
            | some next => command (update s.buf b (fetched (s.buf b) data) next))
          rw [next, same]
          dsimp only
          rw [same]
          exact phase_command (inv.accepted c (List.mem_cons_of_mem _ List.mem_cons_self))
      · dsimp only
        rw [fetched_eq phase]
        exact inv.memory
    | _ =>
      rw [device] at done
      cases done

omit [Fintype β] in
theorem wake (inv : Inv size s queue) (waits : s.waits p = some b) (synced : (s.buf b).Synced) :
    Inv size { s with waits := update s.waits p none } queue := by
  have absent : b ∉ queue := fun listed => (inv.accepted b listed).2.1 synced
  exact { inv with
    waiting := by
      intro c listed
      rcases inv.waiting c listed with ⟨q, owner, here⟩
      refine ⟨q, owner, ?_⟩
      dsimp only
      rw [update_of_ne]
      · exact here
      · rintro rfl
        rw [waits] at here
        cases here
        exact absent listed
    awake := by
      intro q c still
      dsimp only at still
      by_cases same : q = p
      · rw [same, update_self] at still
        cases still
      · rw [update_of_ne same] at still
        exact inv.awake q c still }

omit [DecidableEq ι] [Fintype β] in
theorem use (inv : Inv size s queue) (owner : Option ι) (x : Buf) (free : ¬ InFlight s b) :
    Inv size { s with
      owner := update s.owner b owner
      buf := update s.buf b x
      memory := { s.memory with buf := update s.memory.buf b x } } queue := by
  have absent : b ∉ queue := fun listed => free (inv.inFlight listed)
  have apart : ∀ {c : β}, c ∈ queue -> c ≠ b := by
    rintro c listed rfl
    exact absent listed
  have others : ∀ {c : β}, c ≠ b -> update s.buf b x c = s.buf c :=
    fun ne => update_of_ne ne _ _
  exact { inv with
    accepted := by
      intro c listed
      dsimp only
      rw [others (apart listed)]
      exact inv.accepted c listed
    waiting := by
      intro c listed
      dsimp only
      rw [update_of_ne (apart listed)]
      exact inv.waiting c listed
    awake := by
      intro q c waits
      have ne : c ≠ b := by
        rintro rfl
        apply free
        unfold InFlight
        rw [(inv.awake q c waits).1]
        exact waits
      dsimp only
      rw [update_of_ne ne, others ne]
      exact inv.awake q c waits
    serving := by
      have before := inv.serving
      cases queue with
      | nil => exact before
      | cons first rest =>
        change Phase _ (update s.buf b x first) _
        rw [others (apart List.mem_cons_self)]
        exact before
    memory := by
      dsimp only
      rw [foldl_update queue absent, inv.memory] }

theorem step {label : Label ι β} (inv : Inv size s queue) (comparable : Comparable size s label)
    (step : Step s label t) : ∃ queue, Inv size t queue := by
  unfold Step perform at step
  cases label with
  | iderw p b =>
    dsimp only at step
    split at step
    next here => exact ⟨_, inv.request here.1 here.2 comparable step⟩
    next => cases step
  | finish => exact ⟨queue, inv.carryOut step⟩
  | ideintr => exact inv.ideintr step
  | wake p =>
    dsimp only at step
    split at step
    next => cases step
    next b waits =>
      split at step
      next synced =>
        cases step
        exact ⟨queue, inv.wake waits synced⟩
      next =>
        cases step
        exact ⟨queue, inv⟩
  | use b owner x =>
    dsimp only at step
    split at step
    next => cases step
    next free =>
      cases step
      exact ⟨queue, inv.use owner x free⟩

/-- The end of the queue is found. -/
theorem request_some (inv : Inv size s queue) (owner : s.owner b = some p) (free : s.waits p = none)
    (accepted : Accepted size (s.buf b)) (present : s.havedisk1 = true) :
    ∃ t, Step s (.iderw p b) t := by
  have absent : b ∉ queue := by
    intro listed
    rcases inv.waiting b listed with ⟨q, other, waits⟩
    rw [owner] at other
    cases other
    rw [free] at waits
    cases waits
  rcases Chain.enqueue_eq inv.chain inv.nodup absent inv.nodup.length_le_card with ⟨links, put, _⟩
  unfold Step perform
  dsimp only
  rw [if_pos ⟨owner, free⟩]
  unfold Ide.request
  rw [if_neg, put]
  · exact ⟨_, rfl⟩
  · rw [accepted.1, present]
    rintro (wrong | synced | wrong)
    · cases wrong
    · exact accepted.2.1 synced
    · cases wrong.2

end Inv

/-- The driver of `ide.c` refines the one of `memide.c`.  In every state that requests, interrupts
and other uses of the buffers reach, no buffer is in the queue twice, the requests have been served
in the order of arrival, a process that may return from `iderw` has its buffer out of the queue, and
a buffer outside the queue is what `memide.c` would have made of it; so is the disk when the queue
is empty.  `iderw` always finds the end of the queue. -/
theorem ide_refines_memide {size : BitVec 32} {disks : Nat -> Nat -> Block} {havedisk1 : Bool}
    {buf : β -> Buf} {owner : β -> Option ι} {qnext : β -> Option β} {labels : List (Label ι β)}
    {s : State ι β}
    (run : GuardedRun Step (Comparable size) (quiet disks havedisk1 buf owner qnext) labels s) :
    (∃ queue, Chain s.qnext s.idequeue queue /\ queue.Nodup /\ s.arrived = s.served ++ queue /\
      (∀ p b, s.waits p = some b -> (s.buf b).Synced -> b ∉ queue) /\
      (∀ b, b ∉ queue -> s.buf b = s.memory.buf b) /\ (queue = [] -> s.disks 1 = s.memory.disk)) /\
    ∀ p b, s.owner b = some p -> s.waits p = none -> Accepted size (s.buf b) ->
    s.havedisk1 = true ->
      ∃ t, Step s (.iderw p b) t := by
  have start : ∃ queue, Inv size (quiet disks havedisk1 buf owner qnext : State ι β) queue := by
    refine ⟨[], ?_⟩
    exact ⟨rfl, List.nodup_nil, rfl, nofun, nofun, nofun, rfl, rfl⟩
  have kept : ∀ (s : State ι β) label t, Comparable size s label -> Step s label t ->
      (∃ queue, Inv size s queue) -> ∃ queue, Inv size t queue := by
    rintro s label t comparable step ⟨queue, inv⟩
    exact inv.step comparable step
  rcases run.invariant kept start with ⟨queue, inv⟩
  refine ⟨⟨queue, inv.chain, inv.nodup, inv.order, ?_, ?_, ?_⟩, fun p b => inv.request_some⟩
  · exact fun p b _ synced listed => (inv.accepted b listed).2.1 synced
  · intro b absent
    rw [<- inv.memory, foldl_buf queue absent]
  · intro empty
    rw [<- inv.memory, empty]
    rfl

/-- A block to be written, and a buffer that wants the same sector. -/
def writerAndReader : Fin 2 -> Buf
  | 0 => ⟨1, 5, true, true, true, fun _ => 7#8⟩
  | 1 => ⟨1, 5, true, false, false, fun _ => 0#8⟩

/-- Both requests are made before the disk finishes the first. -/
def twoRequests : List (Label Bool (Fin 2)) :=
  [.iderw false 0, .iderw true 1, .wake true, .finish, .ideintr, .finish, .wake false, .ideintr,
    .wake true]

theorem ide_refines_memide_twoRequests : ∃ s : State Bool (Fin 2),
    GuardedRun Step (Comparable 512000#32)
      (quiet (fun _ _ _ => 0#8) true writerAndReader (fun b => some (b == 1)) fun _ => none)
        twoRequests s /\
      s.served = [0, 1] /\ (s.buf 1).data 0 = 7#8 /\ s.waits true = none /\
      ∃ queue, Chain s.qnext s.idequeue queue /\ queue.Nodup /\ s.arrived = s.served ++ queue := by
  have outcome : ∃ s : State Bool (Fin 2),
      checked (Comparable 512000#32) perform (quiet (fun _ _ _ => 0#8) true writerAndReader
        (fun b => some (b == 1)) fun _ => none) twoRequests = some s /\
        s.served = [0, 1] /\ (s.buf 1).data 0 = 7#8 /\ s.waits true = none := by
    refine ⟨_, rfl, ?_⟩
    decide
  rcases outcome with ⟨s, reached, served, data, returned⟩
  have run := GuardedRun.of_checked reached
  rcases (ide_refines_memide run).1 with ⟨queue, chain, nodup, order, _⟩
  exact ⟨s, run, served, data, returned, queue, chain, nodup, order⟩

end Xv6.Ide
