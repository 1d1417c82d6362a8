import Hqemu.Llvm.TcgOps

/-! Sequences of TCG ops, after `tcg-opc.h` and `tcg/README`. What an op computes is a parameter,
limited by the flags of its definition. -/
namespace Hqemu.Tcg

open Llvm.TcgOps (Width UnOp BinOp)

inductive Opcode where
  | patch | gotoIbchain | cmpIbchain
  | nop | nop1 | nop2 | nop3
  | jmp | br
  | mov (w : Width) | movi (w : Width) | setcond (w : Width)
  | ld8u (w : Width) | ld8s (w : Width) | ld16u (w : Width) | ld16s (w : Width)
  | ld32u | ld32s | ld (w : Width)
  | st8 (w : Width) | st16 (w : Width) | st32 | st (w : Width)
  | unary (w : Width) (o : UnOp) | binary (w : Width) (o : BinOp)
  | div2 (w : Width) | divu2 (w : Width)
  | brcond (w : Width)
  | add2 | sub2 | brcond2 | mulu2 | setcond2
  | exitTb | gotoTb
  | qemuLd8u | qemuLd8s | qemuLd16u | qemuLd16s | qemuLd32 | qemuLd32u | qemuLd32s | qemuLd64
  | qemuSt8 | qemuSt16 | qemuSt32 | qemuSt64
deriving DecidableEq, Repr

structure OpDef where
  nbOargs : Nat
  nbIargs : Nat
  nbCargs : Nat
  bbEnd : Bool
  callClobber : Bool
  sideEffects : Bool
deriving DecidableEq, Repr

def plainDef (nbOargs nbIargs nbCargs : Nat) : OpDef :=
  ⟨nbOargs,nbIargs,nbCargs,false,false,false⟩

/-- `TCG_OPF_BB_END | TCG_OPF_SIDE_EFFECTS`. -/
def endDef (nbIargs nbCargs : Nat) : OpDef := ⟨0,nbIargs,nbCargs,true,false,true⟩

/-- A store to host memory: `TCG_OPF_SIDE_EFFECTS`. -/
def storeDef : OpDef := ⟨0,2,1,false,false,true⟩

/-- An access to guest memory: `TCG_OPF_CALL_CLOBBER | TCG_OPF_SIDE_EFFECTS`. -/
def accessDef (nbOargs nbIargs : Nat) : OpDef := ⟨nbOargs,nbIargs,1,false,true,true⟩

structure Sizes where
  reg64 : Bool
  long64 : Bool
deriving DecidableEq, Repr

/-- How many temporaries hold a guest address, and a value of 64 bits. -/
def Sizes.addr (sizes : Sizes) : Nat := if !sizes.reg64 && sizes.long64 then 2 else 1
def Sizes.wide (sizes : Sizes) : Nat := if sizes.reg64 then 1 else 2

/-- The table `tcg_op_defs`. -/
def opDef (sizes : Sizes) : Opcode → OpDef
  | .patch => plainDef 0 0 1
  | .gotoIbchain => endDef 1 1
  | .cmpIbchain => plainDef 0 0 0
  | .nop => plainDef 0 0 0
  | .nop1 => plainDef 0 0 1
  | .nop2 => plainDef 0 0 2
  | .nop3 => plainDef 0 0 3
  | .jmp => endDef 1 0
  | .br => endDef 0 1
  | .mov _ => plainDef 1 1 0
  | .movi _ => plainDef 1 0 1
  | .setcond _ => plainDef 1 2 1
  | .ld8u _ | .ld8s _ | .ld16u _ | .ld16s _ | .ld32u | .ld32s | .ld _ => plainDef 1 1 1
  | .st8 _ | .st16 _ | .st32 | .st _ => storeDef
  | .unary _ _ => plainDef 1 1 0
  | .binary _ _ => plainDef 1 2 0
  | .div2 _ | .divu2 _ => plainDef 2 3 0
  | .brcond _ => endDef 2 2
  | .add2 | .sub2 => plainDef 2 4 0
  | .brcond2 => endDef 4 2
  | .mulu2 => plainDef 2 2 0
  | .setcond2 => plainDef 1 4 1
  | .exitTb | .gotoTb => endDef 0 1
  | .qemuLd8u | .qemuLd8s | .qemuLd16u | .qemuLd16s | .qemuLd32 | .qemuLd32u | .qemuLd32s =>
    accessDef 1 sizes.addr
  | .qemuLd64 => accessDef sizes.wide sizes.addr
  | .qemuSt8 | .qemuSt16 | .qemuSt32 => accessDef 0 (1+sizes.addr)
  | .qemuSt64 => accessDef 0 (sizes.wide+sizes.addr)

/-- The jumps that the table does not mark as the end of a block. `patch` jumps to its label
until the translator links a region there. -/
def Opcode.unmarkedJump : Opcode → Bool
  | .patch | .cmpIbchain => true
  | _ => false

def Opcode.isNop : Opcode → Bool
  | .nop | .nop1 | .nop2 | .nop3 => true
  | _ => false

def tcgCallPure : Nat := 0x10
def tcgCallConst : Nat := 0x20

abbrev Temp := Nat

/-- An op with its arguments. A call has its outputs, its inputs with the function's address last,
and its flags; `none` is `TCG_CALL_DUMMY_ARG`. -/
inductive Op where
  | call (flags : Nat) (oargs : List Temp) (iargs : List (Option Temp))
  | setLabel (label : Nat)
  | debugInsnStart (args : List Nat)
  | nopn (nbArgs : Nat)
  | discard (temp : Temp)
  | stop
  | op (opcode : Opcode) (args : List Nat)
deriving DecidableEq, Repr

def Op.unmarkedJump : Op → Bool
  | .op opcode _ => opcode.unmarkedJump
  | _ => false

/-- The temporaries of a block: globals come first, some of them in a register of the host all
the time. -/
structure Ctx where
  sizes : Sizes
  nbGlobals : Nat
  fixedReg : Temp → Bool
  tempLocal : Temp → Bool

section Args

variable (ctx : Ctx)

/-- What `tcg_la_bb_end` and `tcg_reg_alloc_bb_end` keep across blocks. -/
def Ctx.kept (temp : Temp) : Bool := temp < ctx.nbGlobals || ctx.tempLocal temp

def Ctx.def_ (opcode : Opcode) : OpDef := opDef ctx.sizes opcode

def isPure (flags : Nat) : Bool := flags &&& tcgCallPure != 0
def isConst (flags : Nat) : Bool := flags &&& tcgCallConst != 0

def Op.oargs : Op → List Temp
  | .call _ oargs _ => oargs
  | .discard temp => [temp]
  | .op opcode args => args.take (ctx.def_ opcode).nbOargs
  | _ => []

def Op.iargs : Op → List (Option Temp)
  | .call _ _ iargs => iargs
  | .op opcode args =>
    ((args.drop (ctx.def_ opcode).nbOargs).take (ctx.def_ opcode).nbIargs).map some
  | _ => []

def Op.cargs : Op → List Nat
  | .op opcode args => args.drop ((ctx.def_ opcode).nbOargs + (ctx.def_ opcode).nbIargs)
  | _ => []

def Op.endsBlock : Op → Bool
  | .setLabel _ => true
  | .op opcode _ => (ctx.def_ opcode).bbEnd
  | _ => false

/-- The op may be seen to use the globals: by leaving the block, or by a helper. -/
def Op.seesGlobals : Op → Bool
  | .call flags _ _ => !isConst flags
  | .setLabel _ => true
  | .op opcode _ =>
    opcode.unmarkedJump || (ctx.def_ opcode).bbEnd || (ctx.def_ opcode).callClobber
  | _ => false

def Op.seesLocals : Op → Bool
  | .setLabel _ => true
  | .op opcode _ => opcode.unmarkedJump || (ctx.def_ opcode).bbEnd
  | _ => false

def Op.sees (op : Op) (temp : Temp) : Bool :=
  some temp ∈ op.iargs ctx || (op.seesGlobals ctx && temp < ctx.nbGlobals) ||
    (op.seesLocals ctx && ctx.tempLocal temp)

end Args

abbrev Ctx.Global (ctx : Ctx) := {temp : Temp // temp < ctx.nbGlobals ∧ ctx.fixedReg temp = false}

inductive Flow where
  | next
  | label (label : Nat)
  | leave

/-- What the ops do. Each kind gets what its flags allow it to read and returns what they allow it
to change, as a function of the output's number. `none` is an exception. -/
structure Machine (ctx : Ctx) (Val Mem : Type) where
  compute : Opcode → List Nat → List (Option Val) → Mem → Nat → Val
  effect : Opcode → List Nat → List (Option Val) → Mem → (Nat → Val) × Mem
  access : Opcode → List Nat → List (Option Val) → (ctx.Global → Val) → Mem →
    Option (Nat → Val) × (ctx.Global → Val) × Mem
  branch : Opcode → List Nat → List (Option Val) → (ctx.Global → Val) → Mem →
    Flow × (ctx.Global → Val) × Mem
  patched : Opcode → List Nat → (ctx.Global → Val) → Mem → Flow
  callPureConst : List (Option Val) → Mem → Nat → Val
  callPure : List (Option Val) → (ctx.Global → Val) → Mem → Nat → Val
  callConst : List (Option Val) → Mem → (Nat → Val) × Mem
  call : List (Option Val) → (ctx.Global → Val) → Mem →
    Option (Nat → Val) × (ctx.Global → Val) × Mem
  /-- The content of a temporary that was destroyed at a given time. -/
  destroyed : Nat → Temp → Val

structure State (Val Mem : Type) where
  pc : Nat
  clock : Nat
  vals : Temp → Val
  mem : Mem

inductive Outcome (ctx : Ctx) (Val Mem : Type) where
  | running (state : State Val Mem)
  | left (globals : ctx.Global → Val) (mem : Mem)
  | stuck

section Exec

variable {ctx : Ctx} {Val Mem : Type}

def globals (ctx : Ctx) (vals : Temp → Val) : ctx.Global → Val := fun global => vals global.1

def setGlobals (vals : Temp → Val) (values : ctx.Global → Val) : Temp → Val := fun temp =>
  if h : temp < ctx.nbGlobals ∧ ctx.fixedReg temp = false then values ⟨temp,h⟩ else vals temp

/-- The outputs from number `k` on. -/
def assign (vals : Temp → Val) (values : Nat → Val) : List Temp → Nat → Temp → Val
  | [], _ => vals
  | temp :: rest, k => assign (Function.update vals temp (values k)) values rest (k+1)

def inputs (vals : Temp → Val) (iargs : List (Option Temp)) : List (Option Val) :=
  iargs.map (Option.map vals)

variable (machine : Machine ctx Val Mem)

def destroy (clock : Nat) (vals : Temp → Val) : Temp → Val := fun temp =>
  if ctx.kept temp then vals temp else machine.destroyed clock temp

def labelIndex (program : List Op) (label : Nat) : Option Nat :=
  program.findIdx? fun op => op = .setLabel label

def State.advance (state : State Val Mem) (vals : Temp → Val) (mem : Mem) : State Val Mem :=
  ⟨state.pc+1,state.clock+1,vals,mem⟩

def State.follow (ctx : Ctx) (program : List Op) (state : State Val Mem) (flow : Flow)
    (vals : Temp → Val) (mem : Mem) : Outcome ctx Val Mem :=
  match flow with
  | .next => .running (state.advance vals mem)
  | .leave => .left (globals ctx vals) mem
  | .label label =>
    match labelIndex program label with
    | none => .stuck
    | some pc => .running ⟨pc,state.clock+1,vals,mem⟩

def State.finish (state : State Val Mem) (oargs : List Temp)
    (result : Option (Nat → Val) × (ctx.Global → Val) × Mem) : Outcome ctx Val Mem :=
  match result with
  | (none,values,mem) => .left values mem
  | (some outs,values,mem) =>
    .running (state.advance (assign (setGlobals state.vals values) outs oargs 0) mem)

def execCall (state : State Val Mem) (flags : Nat) (oargs : List Temp)
    (iargs : List (Option Temp)) : Outcome ctx Val Mem :=
  let ins := inputs state.vals iargs
  if isPure flags then
    let outs := if isConst flags then machine.callPureConst ins state.mem
      else machine.callPure ins (globals ctx state.vals) state.mem
    .running (state.advance (assign state.vals outs oargs 0) state.mem)
  else if isConst flags then
    let (outs,mem) := machine.callConst ins state.mem
    .running (state.advance (assign state.vals outs oargs 0) mem)
  else state.finish oargs (machine.call ins (globals ctx state.vals) state.mem)

def execOp (program : List Op) (state : State Val Mem) (opcode : Opcode) (args : List Nat) :
    Outcome ctx Val Mem :=
  let op := Op.op opcode args
  let oargs := op.oargs ctx
  let cargs := op.cargs ctx
  let ins := inputs state.vals (op.iargs ctx)
  if opcode.isNop then .running (state.advance state.vals state.mem)
  else if opcode.unmarkedJump then
    state.follow ctx program (machine.patched opcode cargs (globals ctx state.vals) state.mem)
      state.vals state.mem
  else if (ctx.def_ opcode).bbEnd then
    let (flow,values,mem) := machine.branch opcode cargs ins (globals ctx state.vals) state.mem
    state.follow ctx program flow (destroy machine state.clock (setGlobals state.vals values)) mem
  else if (ctx.def_ opcode).callClobber then
    state.finish oargs (machine.access opcode cargs ins (globals ctx state.vals) state.mem)
  else if !(ctx.def_ opcode).sideEffects && (ctx.def_ opcode).nbOargs != 0 then
    let outs := machine.compute opcode cargs ins state.mem
    .running (state.advance (assign state.vals outs oargs 0) state.mem)
  else
    let (outs,mem) := machine.effect opcode cargs ins state.mem
    .running (state.advance (assign state.vals outs oargs 0) mem)

/-- One op. There is no code behind the end of a block. -/
def exec (program : List Op) (state : State Val Mem) : Op → Outcome ctx Val Mem
  | .call flags oargs iargs => execCall machine state flags oargs iargs
  | .setLabel _ =>
    .running (state.advance (destroy machine state.clock state.vals) state.mem)
  | .debugInsnStart _ => .running (state.advance state.vals state.mem)
  | .nopn _ => .running (state.advance state.vals state.mem)
  | .discard temp =>
    .running (state.advance
      (Function.update state.vals temp (machine.destroyed state.clock temp)) state.mem)
  | .stop => .stuck
  | .op opcode args => execOp machine program state opcode args

def step (program : List Op) (state : State Val Mem) : Outcome ctx Val Mem :=
  match program[state.pc]? with
  | none => .stuck
  | some op => exec machine program state op

def run (program : List Op) : Nat → State Val Mem → Outcome ctx Val Mem
  | 0, state => .running state
  | n+1, state =>
    match step machine program state with
    | .running next => run program n next
    | .left values mem => .left values mem
    | .stuck => .stuck

end Exec

end Hqemu.Tcg
