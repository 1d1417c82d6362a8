import Hqemu.Lib.Run
import Mathlib.Data.List.Basic

/-! Block migrations one after the other: the reads of `block-migration.c` and their end. -/
namespace Hqemu.Migration.BlockMigration
open List Lib.Run

/-- A `BlkMigBlock`, with the number of the migration it is read for. -/
structure Block where
  migration : Nat
  device : Nat
  sector : Nat

/-- `BlkMigState`, with the tracking of the devices and the outstanding reads. `started` counts the
migrations; no function reads it. -/
structure State where
  bmdsList : List Nat
  blkList : List Block
  submitted : Int
  readDone : Int
  tracking : Nat → Bool
  reading : List Block
  started : Nat

def init : State := ⟨[],[],0,0,fun _ => false,[],0⟩

/-- `start` has the devices that are writable and not empty. A round of `flush_blks` is `send`, and
`cleanup` follows an error, a cancellation or the last stage. -/
inductive Action where
  | start (devices : List Nat)
  | read (device sector : Nat)
  | readCb (i : Nat)
  | send
  | cleanup

def setDirtyTracking (s : State) (enable : Bool) : State :=
  { s with tracking := fun device => if device ∈ s.bmdsList then enable else s.tracking device }

def initBlkMigration (s : State) (devices : List Nat) : State :=
  { s with
    submitted := 0
    readDone := 0
    bmdsList := s.bmdsList ++ devices
    started := s.started+1 }

def blkMigCleanup (s : State) : State :=
  setDirtyTracking { s with bmdsList := [], blkList := [] } false

/-- A migration starts when the one before has ended. There is no next state where an assertion
fails. -/
def step (s : State) : Action → Option State
  | .start devices =>
    if s.bmdsList = [] then some (setDirtyTracking (initBlkMigration s devices) true) else none
  | .read device sector =>
    if device ∈ s.bmdsList then some { s with
      reading := s.reading ++ [⟨s.started,device,sector⟩]
      submitted := s.submitted+1 }
    else none
  | .readCb i => do
    let blk ← s.reading[i]?
    if 0 ≤ s.submitted-1 then some { s with
      reading := s.reading.eraseIdx i
      blkList := s.blkList ++ [blk]
      submitted := s.submitted-1
      readDone := s.readDone+1 }
    else none
  | .send =>
    match s.blkList with
    | [] => none
    | _ :: rest =>
      if 0 ≤ s.readDone-1 then some { s with blkList := rest, readDone := s.readDone-1 } else none
  | .cleanup => some (blkMigCleanup s)

/-- Tracking is off where no device is migrated, the counters are those of the running migration's
own reads, and what `flush_blks` will send was read for it. -/
structure Settled (s : State) : Prop where
  tracking : s.bmdsList = [] → ∀ device, s.tracking device = false
  submitted : s.bmdsList ≠ [] → s.submitted = (s.reading.filter (·.migration = s.started)).length
  readDone : s.bmdsList ≠ [] → s.readDone = s.blkList.length
  own : ∀ blk ∈ s.blkList, blk.migration = s.started

/-- No migration ends that has a device. -/
def Deviceless (s : State) : Action → Prop
  | .cleanup => s.bmdsList = []
  | _ => True

structure Inv (s : State) : Prop where
  counters : s.bmdsList ≠ [] → s.submitted = s.reading.length ∧ s.readDone = s.blkList.length
  tracking : ∀ device, s.tracking device = true ↔ device ∈ s.bmdsList
  own : ∀ blk ∈ s.blkList ++ s.reading, blk.migration = s.started
  ended : s.bmdsList = [] → s.blkList = [] ∧ s.reading = []

variable {s next : State} {action : Action}

theorem Inv.settled (h : Inv s) : Settled s := by
  have hreading : s.reading.filter (·.migration = s.started) = s.reading :=
    filter_eq_self.mpr fun blk hblock => by simpa using h.own blk (mem_append_right _ hblock)
  refine ⟨fun hnone device => ?_,fun hne => ?_,fun hne => (h.counters hne).2,
    fun blk hblock => h.own blk (mem_append_left _ hblock)⟩
  · have htracking := h.tracking device
    rw [hnone] at htracking
    simpa using htracking
  · rw [hreading,(h.counters hne).1]

theorem Inv.step (h : Inv s) (hcond : Deviceless s action) (hstep : step s action = some next) :
    Inv next := by
  have ⟨hcounters,htracking,hown,hended⟩ := h
  unfold BlockMigration.step at hstep
  cases action with
  | start devices =>
    dsimp only [setDirtyTracking,initBlkMigration] at hstep
    split at hstep <;> cases hstep
    refine ⟨?_,?_,?_,?_⟩ <;> grind
  | read device sector =>
    dsimp only at hstep
    split at hstep <;> cases hstep
    refine ⟨?_,htracking,?_,?_⟩ <;> grind
  | readCb i =>
    obtain ⟨blk,hblock,hstep⟩ := Option.bind_eq_some_iff.mp hstep
    have hmem := mem_of_getElem? hblock
    split at hstep <;> cases hstep
    refine ⟨?_,htracking,?_,?_⟩ <;> grind [mem_of_mem_eraseIdx]
  | send =>
    dsimp only at hstep
    split at hstep
    case h_1 => cases hstep
    split at hstep <;> cases hstep
    refine ⟨?_,htracking,?_,?_⟩ <;> grind
  | cleanup =>
    cases hstep
    obtain ⟨hblocks,hreading⟩ := hended hcond
    rw [show s.bmdsList = [] from hcond] at htracking
    exact ⟨fun hne => absurd rfl hne,htracking,by simp [blkMigCleanup,setDirtyTracking,hreading],
      fun _ => ⟨rfl,hreading⟩⟩

theorem deviceless_of_settled (h : Inv s) (hnext : Settled next)
    (hstep : BlockMigration.step s action = some next) : Deviceless s action := by
  cases action with
  | cleanup =>
    cases hstep
    refine eq_nil_iff_forall_not_mem.mpr fun device hdevice => ?_
    have hoff : s.tracking device = false := hnext.tracking rfl device
    rw [(h.tracking device).mpr hdevice] at hoff
    cases hoff
  | _ => trivial

/-- `set_dirty_tracking(0)` finds an empty list, so a device that was migrated stays tracked. -/
theorem settled_iff_deviceless (actions : List Action) :
    Always step Settled init actions ↔ Meets step Deviceless init actions :=
  always_iff_meets_of_inv Inv (fun _ _ _ h hcond hstep => h.step hcond hstep) (fun _ h => h.settled)
    (fun _ _ _ h hnext hstep => deviceless_of_settled h hnext hstep)
    ⟨nofun,fun _ => ⟨nofun,nofun⟩,nofun,fun _ => ⟨rfl,rfl⟩⟩

/-- A migration is cancelled with a read outstanding: its device stays tracked, and the next
migration is about to send the block. -/
theorem cancelled_sends : ∃ s, run step init [.start [0], .read 0 0, .cleanup, .start [0],
      .read 0 0, .readCb 0] = some s ∧ (∃ blk ∈ s.blkList, blk.migration ≠ s.started) ∧
    ∃ old, run step init [.start [0], .read 0 0, .cleanup] = some old ∧ ¬Settled old :=
  ⟨_,rfl,⟨_,mem_singleton_self _,by decide⟩,_,rfl,fun h => absurd (h.tracking rfl 0) (by decide)⟩

end Hqemu.Migration.BlockMigration
