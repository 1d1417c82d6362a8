import Hqemu.Lib.Bits
import Hqemu.Lib.Cfg

/-! Functions as the state mapping pass of `llvm-pass.cpp` sees them: loads and stores of CPUState,
helper calls and control flow. An environment decides the rest. -/
namespace Hqemu.Llvm.StateIr

open Function

open Lib.Bits (blend extract insert)

abbrev Mem := Nat → Nat

structure Access where
  state : Nat
  diff : Nat
  bits : Nat
deriving DecidableEq, Repr

structure HelperInfo where
  stateUse : List Nat
  stateDef : List Nat
  hasNestedCall : Bool
  mayConflictArg : Bool
deriving DecidableEq, Repr

structure Context where
  /-- The width of each state, from the `StateType` map. -/
  size : Nat → Nat
  helperFuncs : String → Option HelperInfo
  /-- The temporary states, on which `LocalOp` answers true. -/
  scratch : Nat → Bool

/-- What `AnalyzeStates` collects in `OpMap`. A call carries the states its pointer
arguments are the addresses of. -/
inductive Op
  | load (a : Access)
  | store (a : Access)
  | call (callee : String) (args : List Nat)
deriving DecidableEq, Repr

inductive Terminator
  /-- A branch, a switch, or an indirect branch, which has no successor. -/
  | branch (succs : List Nat)
  | ret
  | unreachable
deriving DecidableEq, Repr

inductive Last
  /-- No call. -/
  | other
  /-- A call that `AnalyzeStates` passes over because it carries "flags". -/
  | flagged (callee : String)
  /-- The last of the collected operations. -/
  | op
deriving DecidableEq, Repr

structure Block where
  ops : List Op
  /-- The call at which `getInsertPos` stands, if it stands at one: the last operation
  of the block. -/
  exitCall : Option (String × List Nat)
  last : Last
  term : Terminator
deriving DecidableEq, Repr

def Block.tail (b : Block) : List Op :=
  match b.exitCall with
  | none => []
  | some (callee,args) => [.call callee args]

def Block.body (b : Block) : List Op := b.ops ++ b.tail

def Block.succs (b : Block) : List Nat :=
  match b.term with
  | .branch succs => succs
  | .ret => []
  | .unreachable => []

/-- Accesses stay inside their state, as `AnalyzeStates` checks, and calls of
`helper_lookup_ibchain` carry "flags" and so are no operations. -/
def Op.Proper (ctx : Context) : Op → Prop
  | .load a => a.diff+a.bits ≤ ctx.size a.state
  | .store a => a.diff+a.bits ≤ ctx.size a.state
  | .call callee _ => callee ≠ "helper_lookup_ibchain"

instance (ctx : Context) : (op : Op) → Decidable (op.Proper ctx)
  | .load a => inferInstanceAs (Decidable (a.diff+a.bits ≤ ctx.size a.state))
  | .store a => inferInstanceAs (Decidable (a.diff+a.bits ≤ ctx.size a.state))
  | .call callee _ => inferInstanceAs (Decidable (callee ≠ "helper_lookup_ibchain"))

/-- A function after the block that holds its preloads; it is entered at block `0`. -/
structure IrFunction (ctx : Context) where
  blocks : List Block
  proper : ∀ b ∈ blocks, ∀ op ∈ b.body, op.Proper ctx

namespace IrFunction
variable {ctx : Context}

def block (F : IrFunction ctx) (b : Nat) : Block := F.blocks.getD b ⟨[],none,.other,.ret⟩

def graph (F : IrFunction ctx) : Lib.Cfg.Graph where
  entry := 0
  succs b := (F.block b).succs

theorem exists_block (F : IrFunction ctx) {b : Nat} {op : Op} (hop : op ∈ (F.block b).body) :
    ∃ blk ∈ F.blocks, op ∈ blk.body := by
  by_cases hb : b < F.blocks.length
  · have hget : F.block b = F.blocks[b] := by simp [block,hb]
    exact ⟨F.blocks[b],List.getElem_mem hb,hget ▸ hop⟩
  · simp [block,List.getD,List.getElem?_eq_none (Nat.not_lt.mp hb),Block.body,Block.tail] at hop

theorem block_proper (F : IrFunction ctx) {b : Nat} {op : Op} (hop : op ∈ (F.block b).body) :
    op.Proper ctx := by
  obtain ⟨blk,hblock,hmem⟩ := F.exists_block hop
  exact F.proper blk hblock op hmem

end IrFunction

/-- The states a call may read: all of them when the helper is unknown or calls further. -/
def Context.mayRead (ctx : Context) (callee : String) (args : List Nat) (s : Nat) : Bool :=
  match ctx.helperFuncs callee with
  | none => true
  | some h => h.hasNestedCall || h.stateUse.contains s || (h.mayConflictArg && args.contains s)

def Context.mayWrite (ctx : Context) (callee : String) (args : List Nat) (s : Nat) : Bool :=
  match ctx.helperFuncs callee with
  | none => true
  | some h => h.hasNestedCall || h.stateDef.contains s || (h.mayConflictArg && args.contains s)

inductive Event
  | loaded (a : Access) (value : Nat)
  | stored (a : Access) (value : Nat)
  | called (callee : String) (args : List Nat) (view : Mem)
  | took (k : Nat)

/-- What decides everything outside CPUState. A helper answers with the bits it writes
and their values. -/
structure Env where
  value : Access → List Event → Nat
  helper : String → List Nat → List Event → Mem → Mem × Mem
  branch : List Event → Nat

def see (ctx : Context) (callee : String) (args : List Nat) (mem : Mem) : Mem :=
  fun s => if ctx.mayRead callee args s then mem s else 0

/-- A helper writes any bits of the states it may write. -/
def write (ctx : Context) (callee : String) (args : List Nat) (effect : Mem × Mem)
    (mem : Mem) : Mem :=
  fun s => if ctx.mayWrite callee args s then blend (mem s) (effect.1 s) (effect.2 s) else mem s

def Mem.put (mem : Mem) (a : Access) (v : Nat) : Mem :=
  Function.update mem a.state (insert (mem a.state) a.diff a.bits v)

def Mem.get (mem : Mem) (a : Access) : Nat := extract (mem a.state) a.diff a.bits

def Access.Covers (a : Access) (s i : Nat) : Prop :=
  s = a.state ∧ a.diff ≤ i ∧ i < a.diff+a.bits

instance (a : Access) (s i : Nat) : Decidable (a.Covers s i) :=
  inferInstanceAs (Decidable (_ ∧ _))

theorem testBit_put (mem : Mem) (a : Access) (v s i : Nat) :
    (mem.put a v s).testBit i = if a.Covers s i then v.testBit (i-a.diff)
      else (mem s).testBit i := by
  unfold Mem.put Access.Covers
  by_cases hs : s = a.state
  · subst hs
    rw [update_self,Lib.Bits.testBit_insert]
    simp
  · rw [update_of_ne hs]
    simp [hs]

theorem put_of_ne {mem : Mem} {a : Access} {s : Nat} (v : Nat) (hs : s ≠ a.state) :
    mem.put a v s = mem s := update_of_ne hs _ _

theorem get_eq_iff (mem cur : Mem) (a : Access) :
    mem.get a = cur.get a ↔
      ∀ i, a.Covers a.state i → (mem a.state).testBit i = (cur a.state).testBit i := by
  unfold Mem.get
  constructor
  · intro heq i hi
    have hbit := congrArg (fun v => v.testBit (i-a.diff)) heq
    have hlt : i-a.diff < a.bits := by have := hi.2; omega
    have hadd : a.diff+(i-a.diff) = i := by have := hi.2; omega
    simpa [Lib.Bits.testBit_extract,hlt,hadd] using hbit
  · intro heq
    apply Nat.eq_of_testBit_eq
    intro i
    simp only [Lib.Bits.testBit_extract]
    by_cases hi : i < a.bits
    · simp [heq (a.diff+i) ⟨rfl,by omega,by omega⟩]
    · simp [hi]

def step (ctx : Context) (env : Env) (op : Op) (mem : Mem) (h : List Event) :
    Mem × List Event :=
  match op with
  | .load a => (mem,.loaded a (mem.get a) :: h)
  | .store a => (mem.put a (env.value a h),.stored a (env.value a h) :: h)
  | .call callee args =>
    let view := see ctx callee args mem
    (write ctx callee args (env.helper callee args h view) mem,.called callee args view :: h)

def exec (ctx : Context) (env : Env) : List Op → Mem → List Event → Mem × List Event
  | [], mem, h => (mem,h)
  | op :: ops, mem, h =>
    let r := step ctx env op mem h
    exec ctx env ops r.1 r.2

def visible (ctx : Context) (mem : Mem) : Mem := fun s => if ctx.scratch s then 0 else mem s

variable {ctx : Context}

def machine (F : IrFunction ctx) (env : Env) : Lib.Cfg.Machine Mem Event Mem where
  block b := exec ctx env (F.block b).body
  leave := visible ctx

/-- What a run of at most `fuel` blocks shows: every loaded value, CPUState as each helper call may
read it, and CPUState at the exit. -/
def observe (F : IrFunction ctx) (env : Env) (mem : Mem) (fuel : Nat) :
    List Event × Option Mem :=
  Lib.Cfg.walk F.graph (machine F env) .took env.branch fuel F.graph.entry mem []

end Hqemu.Llvm.StateIr
