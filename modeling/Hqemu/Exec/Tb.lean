import Hqemu.Exec.World

/-! Allocation, lookup, invalidation and flush of translation blocks, with the indirect-branch
target cache. `none` is a null dereference, `cpu_abort` or an endless walk. -/
namespace Hqemu.Exec

open Lib.Chain

def tbJmpCacheBits : Nat := 12
def tbJmpPageBits : Nat := tbJmpCacheBits/2
def tbJmpPageSize : Nat := 1 <<< tbJmpPageBits
def tbJmpAddrMask : Nat := tbJmpPageSize-1
def tbJmpPageMask : Nat := (1 <<< tbJmpCacheBits) - tbJmpPageSize

def tbJmpCacheHashFunc (cfg : Config) (pc : Nat) : Nat :=
  let shift := cfg.targetPageBits-tbJmpPageBits
  let tmp := pc ^^^ (pc >>> shift)
  ((tmp >>> shift) &&& tbJmpPageMask) ||| (tmp &&& tbJmpAddrMask)

def ibtcCacheMask : Nat := (1 <<< 16) - 1

def codeGenAlign : Nat := 16

structure GenCode where
  size : Nat
  codeGenSize : Nat
  nextOffset : Slot → Option Nat

/-- Where `helper_lookup_ibtc` goes: into a block, or back through `ibtc_ret_addr`. `nullTb` is the
read of a null block's fields. -/
inductive IbtcTarget where
  | optPtr (tb : TbId) (ptr : CodePtr)
  | ibtcRetAddr
  | nullTb
deriving DecidableEq, Repr

namespace World

variable {n : Nat}

def ibtcReset (w : World n) (c : Fin n) : World n :=
  w.updateCpu c fun cpu =>
    { cpu with ibtc := fun _ => ⟨0,none⟩, updateIbtc := false, cachedEip := 0 }

def optimizationReset (w : World n) (c : Fin n) : World n := w.ibtcReset c

def tbStartTraceProfile (w : World n) (tb : TbId) : World n :=
  w.updateDesc tb fun desc => { desc with mode := 1, jmpEntry := .profileStub }

def startProfileIfCold (w : World n) (tb : TbId) : World n :=
  if (w.desc tb).mode = 0 then w.tbStartTraceProfile tb else w

def updateIbtcTable (w : World n) (c : Fin n) (tb : TbId) : World n :=
  w.updateCpu c fun cpu =>
    { cpu with
      ibtc := Function.update cpu.ibtc (cpu.cachedEip &&& ibtcCacheMask)
        ⟨cpu.cachedEip,some tb⟩ }

def updateIbtcEntry (w : World n) (c : Fin n) (tb : TbId) : World n :=
  let w := if (w.cpus c).updateIbtc then w.updateIbtcTable c tb else w
  (w.updateCpu c fun cpu => { cpu with updateIbtc := false }).startProfileIfCold tb

def ibtcMatches (cfg : Config) (w : World n) (state : TbCpuState) (tb : TbId) : Bool :=
  (!cfg.targetI386 || (w.desc tb).csBase == state.csBase) && (w.desc tb).flags == state.flags

/-- A zeroed entry matches `eip` 0 and has no block to read. -/
def helperLookupIbtc (cfg : Config) (w : World n) (c : Fin n) (eip : Nat) :
    World n × IbtcTarget :=
  let cpu := w.cpus c
  let entry := cpu.ibtc (eip &&& ibtcCacheMask)
  let miss := w.updateCpu c fun cpu => { cpu with cachedEip := eip, updateIbtc := true }
  if eip = entry.eip then
    match entry.tb with
    | none => (w,.nullTb)
    | some tb =>
      if w.ibtcMatches cfg cpu.state tb then (w,.optPtr tb (w.desc tb).optPtr)
      else (miss,.ibtcRetAddr)
  else (miss,.ibtcRetAddr)

def llvmTbFlush (w : World n) : World n :=
  { w with llvm := emptyLlvmEnv }

def tbFlush (cfg : Config) (w : World n) (c : Fin n) : Option (World n) :=
  if cfg.codeGenBufferSize < w.codeGenPtr then none
  else
    let w := { w with tbFlushVersion := w.tbFlushVersion+1 }
    let w := (w.optimizationReset c).llvmTbFlush
    some { w with
      nbTbs := 0
      cpus := fun c => { w.cpus c with tbJmpCache := fun _ => none }
      links := w.links.clearPhysHash.pageFlushTb
      codeGenPtr := 0
      tbFlushCount := w.tbFlushCount+1 }

def tbPhysInvalidate (cfg : Config) (w : World n) (tb : TbId) (pageAddr : Option Nat) :
    Option (World n) := do
  let page0 ← w.links.pageAddr (tb,0)
  let physPc := page0 + pageOffset cfg (w.desc tb).pc
  let links ← w.links.tbRemove cfg (tbPhysHashFunc physPc) tb
  let links ← links.leavePage cfg tb (some page0) pageAddr
  let links ← links.leavePage cfg tb (w.links.pageAddr (tb,1)) pageAddr
  let links ← links.tbJmpRemove cfg tb 0
  let links ← links.tbJmpRemove cfg tb 1
  let links ← Links.suppressJumps cfg.walkLimit links (links.jmp (.first tb))
  let h := tbJmpCacheHashFunc cfg (w.desc tb).pc
  return { w with
    links := links.setJmp (.first tb) (some (.first tb))
    tbInvalidatedFlag := true
    cpus := fun c =>
      let cpu := w.cpus c
      if cpu.tbJmpCache h = some tb then
        { cpu with tbJmpCache := Function.update cpu.tbJmpCache h none }
      else cpu
    tbPhysInvalidateCount := w.tbPhysInvalidateCount+1 }

def tbAllocRefused (cfg : Config) (w : World n) : Bool :=
  cfg.codeGenMaxBlocks ≤ w.nbTbs || cfg.codeGenBufferMaxSize ≤ w.codeGenPtr ||
    w.llvm.llvmFlush

def tbAlloc (cfg : Config) (w : World n) (pc : Nat) : Option (World n × TbId) :=
  if w.tbAllocRefused cfg then none
  else
    let tb := w.nbTbs
    let w := { w with nbTbs := w.nbTbs+1 }
    some (w.updateDesc tb fun desc =>
      { desc with pc := pc, cflags := 0, mode := 0, execCount := 0 },tb)

/-- A refused allocation flushes every block and tries again. -/
def tbAllocFlushing (cfg : Config) (w : World n) (c : Fin n) (pc : Nat) :
    Option (World n × TbId) :=
  match w.tbAlloc cfg pc with
  | some result => some result
  | none => do
      let w ← w.tbFlush cfg c
      let (w,tb) ← w.tbAlloc cfg pc
      return ({ w with tbInvalidatedFlag := true },tb)

def openTb (w : World n) (tb : TbId) (state : TbCpuState) (cflags : Nat) : World n :=
  w.updateDesc tb fun desc =>
    { desc with
      tcPtr := .block w.codeGenPtr
      optPtr := .block w.codeGenPtr
      csBase := state.csBase
      flags := state.flags
      cflags := cflags
      optVersion := some w.tbFlushVersion }

def closeTb (cfg : Config) (w : World n) (tb : TbId) (pc : Nat) (gen : GenCode) : World n :=
  let w := w.updateDesc tb fun desc =>
    { desc with
      size := gen.size
      nextOffset := gen.nextOffset
      jmpEntry := .predictStub
      version := some w.tbFlushVersion }
  let ptr := (w.codeGenPtr+gen.codeGenSize+codeGenAlign-1) / codeGenAlign
  let virtPage2 := pageAlign cfg (pc+gen.size-1)
  let physPage2 := if pageAlign cfg pc ≠ virtPage2 then some virtPage2 else none
  { w with
    codeGenPtr := ptr*codeGenAlign
    links := w.links.tbLinkPage cfg tb gen.nextOffset pc physPage2 }

/-- `gen` is the outcome of `cpu_gen_code`: the emitted block, or an exception while the guest code
is read, which leaves the block unlinked. -/
def tbGenCode (cfg : Config) (w : World n) (c : Fin n) (state : TbCpuState) (cflags : Nat)
    (gen : Option GenCode) : Option (World n × Option TbId) := do
  let (w,tb) ← w.tbAllocFlushing cfg c state.pc
  let w := w.openTb tb state cflags
  match gen with
  | none => return (w,none)
  | some gen => return (w.closeTb cfg tb state.pc gen,some tb)

def matchesSlow (cfg : Config) (w : World n) (state : TbCpuState) (tb : TbId) : Bool :=
  w.tbCpuState tb = state ∧ w.links.pageAddr (tb,0) = some (pageAlign cfg state.pc) ∧
    (w.links.pageAddr (tb,1) = none ∨
      w.links.pageAddr (tb,1) = some (pageAlign cfg state.pc + cfg.targetPageSize))

def setTbJmpCache (cfg : Config) (w : World n) (c : Fin n) (pc : Nat) (tb : TbId) : World n :=
  w.updateCpu c fun cpu =>
    { cpu with
      tbJmpCache := Function.update cpu.tbJmpCache (tbJmpCacheHashFunc cfg pc) (some tb) }

def tbFindSlow (cfg : Config) (w : World n) (c : Fin n) (state : TbCpuState)
    (gen : Option GenCode) : Option (World n × Option TbId) := do
  let w := { w with tbInvalidatedFlag := false }
  let found ← search w.links.hash HashLoc.next (w.matchesSlow cfg state) cfg.walkLimit
    (.bucket (tbPhysHashFunc state.pc))
  match found with
  | some tb => return ((w.startProfileIfCold tb).setTbJmpCache cfg c state.pc tb,some tb)
  | none =>
    let (w,found) ← w.tbGenCode cfg c state 0 gen
    match found with
    | none => return (w,none)
    | some tb => return (w.setTbJmpCache cfg c state.pc tb,some tb)

def tbJmpCacheHit (cfg : Config) (w : World n) (c : Fin n) (state : TbCpuState) :
    Option TbId :=
  ((w.cpus c).tbJmpCache (tbJmpCacheHashFunc cfg state.pc)).filter
    fun tb => w.tbCpuState tb = state

def findMisses (cfg : Config) (w : World n) (c : Fin n) : Bool :=
  let state := (w.cpus c).state
  (w.tbJmpCacheHit cfg c state).isNone &&
    search w.links.hash HashLoc.next (w.matchesSlow cfg state) cfg.walkLimit
      (.bucket (tbPhysHashFunc state.pc)) == some none

def tbFindFast (cfg : Config) (w : World n) (c : Fin n) (gen : Option GenCode) :
    Option (World n × Option TbId) :=
  let state := (w.cpus c).state
  match w.tbJmpCacheHit cfg c state with
  | some tb => some (w.startProfileIfCold tb,some tb)
  | none => w.tbFindSlow cfg c state gen

end World

def smallConfig : Config where
  walkLimit := 8
  targetLongBits := 32
  targetPageBits := 12
  hostPageSize := 4096
  codeGenMaxBlocks := 2
  codeGenBufferSize := 65536
  codeGenBufferMaxSize := 32768
  targetI386 := false

def smallBlock : GenCode := ⟨4,32,fun _ => none⟩

end Hqemu.Exec
