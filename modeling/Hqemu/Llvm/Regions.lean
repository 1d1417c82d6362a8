import Hqemu.Exec.Tb

/-! The region translator as the dispatcher sees it. A region is named by its entry block. -/
namespace Hqemu.Exec

/-- `next_tb` in `cpu_exec`: nothing to chain, a direct jump of a block, or the
key of a region exit (tag 3). -/
inductive NextTb where
  | none
  | jump (tb : TbId) (n : Slot)
  | region (key : Nat)
deriving DecidableEq, Repr

namespace World

variable {n : Nat}

def getChainSlot (w : World n) (value : Nat) : World n × Nat :=
  ({ w with llvm := { w.llvm with chainPoint := w.llvm.chainPoint ++ [value] } },
    w.llvm.chainPoint.length)

def notifyExit (w : World n) (key addr : Nat) (state : TbCpuState) : World n :=
  let env := w.llvm
  { w with llvm :=
    { env with
      traceChain := Function.update env.traceChain state.pc
        (env.traceChain state.pc ++ [addr])
      chainPoint := env.chainPoint.set key addr
      exits := Function.update env.exits addr (some ⟨key,state,none⟩) } }

/-- A worker that finds no room for another region asks for a flush. -/
def requestFlush (w : World n) : World n := { w with llvm := { w.llvm with llvmFlush := true } }

def emitExit (w : World n) (addr : Nat) (state : TbCpuState) : World n :=
  let (w,key) := w.getChainSlot 0
  w.notifyExit key addr state

def patchExit (w : World n) (addr : Nat) (tb : TbId) : World n :=
  { w with llvm :=
    { w.llvm with
      exits := Function.update w.llvm.exits addr
        ((w.llvm.exits addr).map fun exit => { exit with target := some tb }) } }

/-- Every exit registered under the entry block's address is redirected to the
new region. -/
def traceChaining (w : World n) (entryTb : TbId) (code : Nat) : World n :=
  let addrList := w.llvm.traceChain (w.desc entryTb).pc
  let w := addrList.foldl (fun w addr => w.patchExit addr entryTb) w
  w.updateDesc entryTb fun desc =>
    { desc with
      mode := 2
      jmpEntry := .region
      optPtr := .region code
      optVersion := some w.tbFlushVersion }

/-- The end of `helper_cpu_gen_trace`: code requested before a flush is dropped. -/
def finishTrace (w : World n) (entryTb : TbId) (code cacheVersion : Nat) : World n :=
  if w.llvm.llvmFlush ∨ w.tbFlushVersion ≠ cacheVersion then w
  else w.traceChaining entryTb code

def llvmResolveAddress (w : World n) (key : Nat) : Option Nat := w.llvm.chainPoint[key]?

/-- What `cpu_exec` does with `next_tb` once it has found the next block. A key
whose jump has not been emitted resolves to address 0. -/
def chainNext (w : World n) (nextTb : NextTb) (tb : TbId) : Option (World n) :=
  if w.tbInvalidatedFlag then some { w with tbInvalidatedFlag := false }
  else
    match nextTb with
    | .none => some w
    | .jump tb0 n => some { w with links := w.links.tbAddJump tb0 n tb }
    | .region key => do
        let w := w.startProfileIfCold tb
        let addr ← w.llvmResolveAddress key
        return if addr ≠ 0 then w.patchExit addr tb else w

end World

end Hqemu.Exec
