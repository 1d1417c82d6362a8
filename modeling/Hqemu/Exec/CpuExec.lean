import Hqemu.Exec.Calls

/-! The dispatcher `cpu_exec` of one CPU, with the generated code between two iterations. What a
block does to the guest is arbitrary. -/
namespace Hqemu.Exec

def profileThreshold : Nat := 50
def predictThreshold : Nat := 16

/-- A call of `llvm_gen_trace`; without a loop the index is -1 in the source. -/
structure TraceCall where
  tbs : List TbId
  loopIdx : Option Nat
deriving DecidableEq, Repr

def pcOfEip (cfg : Config) (eip csBase : Nat) : Nat :=
  if cfg.targetI386 then (csBase+eip) % 2^cfg.targetLongBits else eip

def loopIndex (predictedTb : List TbId) (tb : TbId) : Option Nat :=
  (List.range predictedTb.length).reverse.find? fun i => predictedTb[i]? = some tb

namespace World

variable {n : Nat}

def helperTraceProfile (w : World n) (c : Fin n) (tb : TbId) : World n :=
  let w := w.updateDesc tb fun desc => { desc with execCount := desc.execCount+1 }
  if (w.desc tb).execCount = profileThreshold then
    (w.updateDesc tb fun desc => { desc with jmpEntry := .predictStub }).updateCpu c
      fun cpu => { cpu with startTracePrediction := true }
  else w

def stopPrediction (w : World n) (c : Fin n) : World n :=
  w.updateCpu c fun cpu => { cpu with startTracePrediction := false, predictedTb := [] }

def loopCalls (predictedTb : List TbId) (i : Nat) : List TraceCall :=
  if i = 0 then [⟨predictedTb,some 0⟩]
  else [⟨predictedTb.drop i,some 0⟩,⟨predictedTb,some i⟩]

def helperTracePredict (w : World n) (c : Fin n) (tb : TbId) : World n × List TraceCall :=
  let predictedTb := (w.cpus c).predictedTb
  match loopIndex predictedTb tb with
  | some i => (w.stopPrediction c,loopCalls predictedTb i)
  | none =>
    let predictedTb := predictedTb ++ [tb]
    if predictedTb.length = predictThreshold then
      (w.stopPrediction c,[⟨predictedTb,none⟩])
    else (w.updateCpu c fun cpu => { cpu with predictedTb := predictedTb },[])

def predictStub (w : World n) (c : Fin n) (tb : TbId) : World n × List TraceCall :=
  if (w.cpus c).startTracePrediction then w.helperTracePredict c tb else (w,[])

def loopExit (w : World n) (c : Fin n) : World n :=
  if (w.cpus c).startTracePrediction then w.stopPrediction c else w

end World

/-- Where the CPU is: outside `cpu_exec`, at the top of the inner loop, past the lookup, in a block
behind its stubs, or in a region. `crashed` is the access to a null block. -/
inductive Phase where
  | outside
  | loop (nextTb : NextTb)
  | found (tb : TbId)
  | block (tb : TbId)
  | region (tb : TbId)
  | crashed
deriving DecidableEq, Repr

structure Machine where
  world : World 1
  phase : Phase

/-- One step of the CPU or of the region translator, with the guest state it leaves wherever guest
code or the kernel emulation determines it. -/
inductive Action where
  | cpuExec
  | deliver (state : TbCpuState)
  | interrupt (state : TbCpuState)
  | exitRequest
  | find (gen : Option GenCode)
  | skip
  | start
  | direct (n : Slot) (state : TbCpuState)
  | exitTb (state : TbCpuState)
  | indirect (eip csBase flags : Nat)
  | regionExit (addr : Nat)
  | exception (state : TbCpuState)
  | invalidate (tb : TbId) (pageAddr : Option Nat)
  | regenerate (state : TbCpuState) (gen : Option GenCode)
  | flush
  | requestFlush
  | emitExit (addr : Nat) (state : TbCpuState)
  | finishTrace (entryTb : TbId) (code cacheVersion : Nat)

namespace Machine

def initial : Machine := ⟨emptyWorld 1,.outside⟩

/-- Entering a block at `tc_ptr`: the jump in front of its code decides between the
region and the two stubs. -/
def enterTb (w : World 1) (tb : TbId) : Machine × List TraceCall :=
  match (w.desc tb).jmpEntry with
  | .region => (⟨w,.region tb⟩,[])
  | .profileStub =>
    let (w,calls) := (w.helperTraceProfile 0 tb).predictStub 0 tb
    (⟨w,.block tb⟩,calls)
  | .predictStub =>
    let (w,calls) := w.predictStub 0 tb
    (⟨w,.block tb⟩,calls)

def enterOpt (w : World 1) (tb : TbId) : Machine × List TraceCall :=
  match (w.desc tb).optPtr with
  | .region _ => (⟨w,.region tb⟩,[])
  | .block _ => enterTb w tb

def findNext (cfg : Config) (w : World 1) (nextTb : NextTb) (gen : Option GenCode) :
    Option Machine := do
  let (w,found) ← w.tbFindFast cfg 0 gen
  match found with
  | none => return ⟨w.loopExit 0,.outside⟩
  | some tb =>
    let w ← w.chainNext nextTb tb
    return ⟨w,.found tb⟩

def startTb (w : World 1) (tb : TbId) : Machine × List TraceCall :=
  let w := if (w.cpus 0).updateIbtc then w.updateIbtcEntry 0 tb else w
  enterOpt w tb

def jumpIbtc (w : World 1) : IbtcTarget → Machine × List TraceCall
  | .optPtr tb _ => enterOpt w tb
  | .ibtcRetAddr => (⟨w,.loop .none⟩,[])
  | .nullTb => (⟨w,.crashed⟩,[])

def branchIndirect (cfg : Config) (w : World 1) (eip csBase flags : Nat) :
    Machine × List TraceCall :=
  let guest := w.runGuest 0 ⟨pcOfEip cfg eip csBase,csBase,flags⟩
  let lookup := guest.helperLookupIbtc cfg 0 eip
  jumpIbtc lookup.1 lookup.2

def inCode : Phase → Bool
  | .block _ => true
  | .region _ => true
  | _ => false

def stepCalls (cfg : Config) (m : Machine) : Action → Option (Machine × List TraceCall)
  | .cpuExec => if m.phase = .outside then some (⟨m.world,.loop .none⟩,[]) else none
  | .deliver state =>
    if m.phase = .outside then some (⟨m.world.runGuest 0 state,.outside⟩,[]) else none
  | .interrupt state =>
    match m.phase with
    | .loop _ => some (⟨m.world.runGuest 0 state,.loop .none⟩,[])
    | _ => none
  | .exitRequest =>
    match m.phase with
    | .loop _ => some (⟨m.world.loopExit 0,.outside⟩,[])
    | _ => none
  | .find gen =>
    match m.phase with
    | .loop nextTb => (findNext cfg m.world nextTb gen).map fun m => (m,[])
    | _ => none
  | .skip =>
    match m.phase with
    | .found _ => some (⟨m.world.loopExit 0,.outside⟩,[])
    | _ => none
  | .start =>
    match m.phase with
    | .found tb => some (startTb m.world tb)
    | _ => none
  | .direct n state =>
    match m.phase with
    | .block tb =>
      if ((m.world.desc tb).nextOffset n).isSome then
        let w := m.world.runGuest 0 state
        match w.links.jmpTarget (tb,n) with
        | .block target => some (enterTb w target)
        | .stub _ _ => some (⟨w,.loop (.jump tb n)⟩,[])
      else none
    | _ => none
  | .exitTb state =>
    if inCode m.phase then some (⟨m.world.runGuest 0 state,.loop .none⟩,[]) else none
  | .indirect eip csBase flags =>
    if inCode m.phase then some (branchIndirect cfg m.world eip csBase flags) else none
  | .regionExit addr =>
    match m.phase, m.world.llvm.exits addr with
    | .region _, some exit =>
      let w := m.world.runGuest 0 exit.state
      match exit.target with
      | some target => some (enterOpt w target)
      | none => some (⟨w,.loop (.region exit.key)⟩,[])
    | _, _ => none
  | .exception state =>
    if inCode m.phase then some (⟨(m.world.runGuest 0 state).loopExit 0,.outside⟩,[])
    else none
  | .invalidate tb pageAddr =>
    (m.world.tbPhysInvalidate cfg tb pageAddr).map fun w => (⟨w,m.phase⟩,[])
  | .regenerate state gen =>
    if inCode m.phase then
      (m.world.tbGenCode cfg 0 state 1 gen).map fun (w,_) => (⟨w.loopExit 0,.outside⟩,[])
    else none
  | .flush =>
    if m.phase = .outside ∨ inCode m.phase then
      (m.world.tbFlush cfg 0).map fun w => (⟨w,m.phase⟩,[])
    else none
  | .requestFlush => some (⟨m.world.requestFlush,m.phase⟩,[])
  | .emitExit addr state =>
    (m.world.step cfg (.emitExit addr state)).map fun w => (⟨w,m.phase⟩,[])
  | .finishTrace entryTb code cacheVersion =>
    some (⟨m.world.finishTrace entryTb code cacheVersion,m.phase⟩,[])

def step (cfg : Config) (m : Machine) (action : Action) : Option Machine :=
  (stepCalls cfg m action).map Prod.fst

end Machine

end Hqemu.Exec
