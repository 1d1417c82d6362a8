import Hqemu.Exec.Effects
import Hqemu.Lib.Run

/-! The block store under arbitrary sequences of calls by any number of CPUs and the region
translator. -/
namespace Hqemu.Exec

/-- `runGuest` stands for the execution of guest code as far as lookups see it:
the guest's address, segment base and flags become arbitrary. -/
inductive Call (n : Nat) where
  | runGuest (c : Fin n) (state : TbCpuState)
  | findFast (c : Fin n) (gen : Option GenCode)
  | genCode (c : Fin n) (state : TbCpuState) (cflags : Nat) (gen : Option GenCode)
  | lookupIbtc (c : Fin n) (eip : Nat)
  | updateIbtc (c : Fin n) (tb : TbId)
  | physInvalidate (tb : TbId) (pageAddr : Option Nat)
  | flush (c : Fin n)
  | requestFlush
  | emitExit (addr : Nat) (state : TbCpuState)
  | finishTrace (entryTb : TbId) (code cacheVersion : Nat)
  | leaveRegion (c : Fin n) (addr : Nat) (gen : Option GenCode)

theorem exists_of_map_fst {α β : Type} {x : Option (α × β)} {a : α}
    (h : x.map Prod.fst = some a) : ∃ b, x = some (a,b) := by
  simpa using h

namespace World

variable {n : Nat}

def runGuest (w : World n) (c : Fin n) (state : TbCpuState) : World n :=
  w.updateCpu c fun cpu => { cpu with state := state }

def leaveRegion (cfg : Config) (w : World n) (c : Fin n) (addr : Nat)
    (gen : Option GenCode) : Option (World n) := do
  let exit ← w.llvm.exits addr
  let (w,found) ← (w.runGuest c exit.state).tbFindFast cfg c gen
  match found with
  | none => return w
  | some tb => w.chainNext (.region exit.key) tb

/-- Code memory is not handed out twice between two flushes, so an emitted exit is
at a new address. -/
def step (cfg : Config) (w : World n) : Call n → Option (World n)
  | .runGuest c state => some (w.runGuest c state)
  | .findFast c gen => (w.tbFindFast cfg c gen).map Prod.fst
  | .genCode c state cflags gen => (w.tbGenCode cfg c state cflags gen).map Prod.fst
  | .lookupIbtc c eip =>
    let (w,target) := w.helperLookupIbtc cfg c eip
    if target = .nullTb then none else some w
  | .updateIbtc c tb => some (w.updateIbtcEntry c tb)
  | .physInvalidate tb pageAddr => w.tbPhysInvalidate cfg tb pageAddr
  | .flush c => w.tbFlush cfg c
  | .requestFlush => some w.requestFlush
  | .emitExit addr state =>
    if addr ≠ 0 ∧ w.llvm.exits addr = none then some (w.emitExit addr state) else none
  | .finishTrace entryTb code cacheVersion => some (w.finishTrace entryTb code cacheVersion)
  | .leaveRegion c addr gen => w.leaveRegion cfg c addr gen

end World

end Hqemu.Exec
