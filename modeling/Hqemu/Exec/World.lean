import Hqemu.Exec.Links

/-! The state of the dispatcher: links, blocks, CPUs and the tables of the region translator. In
user-mode emulation a guest address is its own physical address. -/
namespace Hqemu.Exec

structure TbCpuState where
  pc : Nat
  csBase : Nat
  flags : Nat
deriving DecidableEq, Repr

inductive CodePtr where
  | block (offset : Nat)
  | region (addr : Nat)
deriving DecidableEq, Repr

/-- Where the patchable jump in front of a block's code leads: to the prediction stub, into the
profiling stub before it, or to the block's region. -/
inductive JmpEntry where
  | predictStub
  | profileStub
  | region
deriving DecidableEq, Repr

/-- `version` and `optVersion` are `tb_flush_version` when the block was translated and when the
code at `opt_ptr` was generated; no function reads them. -/
structure TbDesc where
  pc : Nat
  csBase : Nat
  flags : Nat
  size : Nat
  cflags : Nat
  tcPtr : CodePtr
  optPtr : CodePtr
  nextOffset : Slot → Option Nat
  mode : Nat
  execCount : Nat
  jmpEntry : JmpEntry
  version : Option Nat
  optVersion : Option Nat

structure JmpPair where
  eip : Nat
  tb : Option TbId
deriving DecidableEq, Repr

/-- `predictedTb` holds the first `predicted_count` entries of `predicted_tb`. -/
structure Cpu where
  state : TbCpuState
  tbJmpCache : Nat → Option TbId
  ibtc : Nat → JmpPair
  updateIbtc : Bool
  cachedEip : Nat
  startTracePrediction : Bool
  predictedTb : List TbId

/-- The patchable jump of a region exit, which returns `key` until it has a target. `state` is the
guest state there, with the segment base and flags of its block. -/
structure RegionExit where
  key : Nat
  state : TbCpuState
  target : Option TbId
deriving DecidableEq, Repr

/-- The tables shared with the region translator. Exits are named by the host
address of their jump. -/
structure LlvmEnv where
  llvmFlush : Bool
  traceChain : Nat → List Nat
  chainPoint : List Nat
  exits : Nat → Option RegionExit

structure World (n : Nat) where
  links : Links
  desc : TbId → TbDesc
  nbTbs : Nat
  codeGenPtr : Nat
  tbFlushVersion : Nat
  tbFlushCount : Nat
  tbPhysInvalidateCount : Nat
  tbInvalidatedFlag : Bool
  cpus : Fin n → Cpu
  llvm : LlvmEnv

namespace World

variable {n : Nat}

def updateCpu (w : World n) (c : Fin n) (f : Cpu → Cpu) : World n :=
  { w with cpus := Function.update w.cpus c (f (w.cpus c)) }

def updateDesc (w : World n) (tb : TbId) (f : TbDesc → TbDesc) : World n :=
  { w with desc := Function.update w.desc tb (f (w.desc tb)) }

def tbCpuState (w : World n) (tb : TbId) : TbCpuState :=
  ⟨(w.desc tb).pc,(w.desc tb).csBase,(w.desc tb).flags⟩

section Projections

variable (w : World n) (c : Fin n) (tb : TbId) (f : Cpu → Cpu) (g : TbDesc → TbDesc)

@[simp] theorem updateCpu_desc : (w.updateCpu c f).desc = w.desc := rfl
@[simp] theorem updateCpu_tbFlushVersion :
    (w.updateCpu c f).tbFlushVersion = w.tbFlushVersion := rfl
@[simp] theorem updateCpu_tbCpuState : (w.updateCpu c f).tbCpuState tb = w.tbCpuState tb := rfl
@[simp] theorem updateCpu_cpus :
    (w.updateCpu c f).cpus = Function.update w.cpus c (f (w.cpus c)) := rfl

@[simp] theorem updateDesc_links : (w.updateDesc tb g).links = w.links := rfl
@[simp] theorem updateDesc_cpus : (w.updateDesc tb g).cpus = w.cpus := rfl
@[simp] theorem updateDesc_llvm : (w.updateDesc tb g).llvm = w.llvm := rfl
@[simp] theorem updateDesc_tbFlushVersion :
    (w.updateDesc tb g).tbFlushVersion = w.tbFlushVersion := rfl
@[simp] theorem updateDesc_desc :
    (w.updateDesc tb g).desc = Function.update w.desc tb (g (w.desc tb)) := rfl

end Projections

end World

def emptyLlvmEnv : LlvmEnv where
  llvmFlush := false
  traceChain _ := []
  chainPoint := []
  exits _ := none

def emptyCpu : Cpu where
  state := ⟨0,0,0⟩
  tbJmpCache _ := none
  ibtc _ := ⟨0,none⟩
  updateIbtc := false
  cachedEip := 0
  startTracePrediction := false
  predictedTb := []

def emptyLinks : Links where
  hash _ := none
  page _ := none
  jmp _ := none
  pageAddr _ := none
  jmpTarget x := .stub x.1 x.2
  pageDesc _ := ⟨0,none,0⟩
  hostProt _ := none

def emptyDesc : TbDesc where
  pc := 0
  csBase := 0
  flags := 0
  size := 0
  cflags := 0
  tcPtr := .block 0
  optPtr := .block 0
  nextOffset _ := none
  mode := 0
  execCount := 0
  jmpEntry := .predictStub
  version := none
  optVersion := none

def emptyWorld (n : Nat) : World n where
  links := emptyLinks
  desc _ := emptyDesc
  nbTbs := 0
  codeGenPtr := 0
  tbFlushVersion := 0
  tbFlushCount := 0
  tbPhysInvalidateCount := 0
  tbInvalidatedFlag := false
  cpus _ := emptyCpu
  llvm := emptyLlvmEnv

end Hqemu.Exec
