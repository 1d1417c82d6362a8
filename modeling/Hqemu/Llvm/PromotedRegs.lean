import Hqemu.Llvm.TcgOps

/-! The translation of integer TCG ops in `llvm-opc.cpp`. Registers live in LLVM values and go back
to CPUState and the frame in `SaveGlobals`. -/
namespace Hqemu.Llvm.PromotedRegs
open TcgOps

section Instructions
variable {n : Nat} (u : Nat)

/-- A shift by the width or more has an undefined result, here the arbitrary value `u`. -/
def SHL (x y : BitVec n) : BitVec n := if y.toNat < n then x <<< y.toNat else BitVec.ofNat n u

def LSHR (x y : BitVec n) : BitVec n := if y.toNat < n then x >>> y.toNat else BitVec.ofNat n u

def ASHR (x y : BitVec n) : BitVec n :=
  if y.toNat < n then x.sshiftRight y.toNat else BitVec.ofNat n u

def SDIV (x y : BitVec n) : Option (BitVec n) := if divides x y then some (x.sdiv y) else none

def SREM (x y : BitVec n) : Option (BitVec n) := if divides x y then some (x.srem y) else none

def UDIV (x y : BitVec n) : Option (BitVec n) := if y ≠ 0 then some (x/y) else none

def UREM (x y : BitVec n) : Option (BitVec n) := if y ≠ 0 then some (x%y) else none

def rotlCode (x y : BitVec n) : BitVec n :=
  let c := LSHR u x (BitVec.ofNat n n - y)
  SHL u x y ||| c

def rotrCode (x y : BitVec n) : BitVec n :=
  let c := SHL u x (BitVec.ofNat n n - y)
  LSHR u x y ||| c

end Instructions

/-- The functions that end in `IRError`. -/
def notImplemented : Op → Bool
  | .unary .i64 .bswap16 _ _ => true
  | .unary .i64 .bswap64 _ _ => true
  | .binary .i32 .rem _ _ _ => true
  | .binary .i32 .remu _ _ _ => true
  | .binary .i64 .div _ _ _ => true
  | .binary .i64 .divu _ _ _ => true
  | .binary .i64 .rem _ _ _ => true
  | .binary .i64 .remu _ _ _ => true
  | .binary .i64 .rotr _ _ _ => true
  | .binary .i64 .andc _ _ _ => true
  | .binary _ .orc _ _ _ => true
  | .binary _ .eqv _ _ _ => true
  | .binary _ .nand _ _ _ => true
  | .binary _ .nor _ _ _ => true
  | .div2 .i64 _ _ _ _ _ => true
  | .divu2 .i64 _ _ _ _ _ => true
  | _ => false

/-- The second argument of `setData`: the byte swaps leave it out. -/
def setsDirty : Op → Bool
  | .unary _ .bswap16 _ _ => false
  | .unary _ .bswap32 _ _ => false
  | .unary _ .bswap64 _ _ => false
  | _ => true

def unaryCode {n : Nat} : UnOp → BitVec n → BitVec n
  | .ext8s, x => (x.setWidth 8).signExtend n
  | .ext16s, x => (x.setWidth 16).signExtend n
  | .ext32s, x => (x.setWidth 32).signExtend n
  | .ext8u, x => x &&& BitVec.ofNat n 0xFF
  | .ext16u, x => x &&& BitVec.ofNat n 0xFFFF
  | .ext32u, x => x &&& BitVec.ofNat n 0xFFFFFFFF
  | .bswap16, x => (bswap 2 (x.setWidth 16)).setWidth n
  | .bswap32, x => (bswap 4 (x.setWidth 32)).setWidth n
  | .bswap64, x => (bswap 8 (x.setWidth 64)).setWidth n
  | .not, x => x ^^^ BitVec.allOnes n
  | .neg, x => 0-x

def binaryCode {n : Nat} (u : Nat) : BinOp → BitVec n → BitVec n → Option (BitVec n)
  | .add, x, y => some (x+y)
  | .sub, x, y => some (x-y)
  | .mul, x, y => some (x*y)
  | .div, x, y => SDIV x y
  | .divu, x, y => UDIV x y
  | .rem, x, y => SREM x y
  | .remu, x, y => UREM x y
  | .and, x, y => some (x &&& y)
  | .or, x, y => some (x ||| y)
  | .xor, x, y => some (x ^^^ y)
  | .shl, x, y => some (SHL u x y)
  | .shr, x, y => some (LSHR u x y)
  | .sar, x, y => some (ASHR u x y)
  | .rotl, x, y => some (rotlCode u x y)
  | .rotr, x, y => some (rotrCode u x y)
  | .andc, x, y => some (x &&& (y ^^^ BitVec.allOnes n))
  | .orc, _, _ => none
  | .eqv, _, _ => none
  | .nand, _, _ => none
  | .nor, _, _ => none

/-- Two 32-bit halves, as the double-word ops put them together. -/
def joined (lo hi : Nat) : BitVec 64 :=
  ((BitVec.ofNat 32 hi).setWidth 64 <<< 32) ||| (BitVec.ofNat 32 lo).setWidth 64

/-- The instructions emitted for an op. `div2` and `divu2` leave out the high half. -/
def code (size : Sizes) (u : Nat) : Op → List Nat → Option (List Nat)
  | .mov w _ inp, [a] => some [if size inp = w then a else (BitVec.ofNat 32 a).toNat]
  | .movi w _ c, [] => some [(BitVec.ofNat w.bits c).toNat]
  | .setcond w cond _ _ _, [a,b] =>
    some [(cond.holds (BitVec.ofNat w.bits a) (BitVec.ofNat w.bits b)).toNat]
  | .unary .i64 .ext32u _ inp, [a] =>
    some [if size inp = .i32 then ((BitVec.ofNat 32 a).setWidth 64).toNat
      else (unaryCode .ext32u (BitVec.ofNat 64 a)).toNat]
  | .unary w o _ _, [a] => some [(unaryCode o (BitVec.ofNat w.bits a)).toNat]
  | .binary w o _ _ _, [a,b] =>
    (binaryCode u o (BitVec.ofNat w.bits a) (BitVec.ofNat w.bits b)).map fun v => [v.toNat]
  | .div2 w _ _ _ _ _, [a,_,d] =>
    match SDIV (BitVec.ofNat w.bits a) (BitVec.ofNat w.bits d),
      SREM (BitVec.ofNat w.bits a) (BitVec.ofNat w.bits d) with
    | some q, some r => some [q.toNat,r.toNat]
    | _, _ => none
  | .divu2 w _ _ _ _ _, [a,_,d] =>
    match UDIV (BitVec.ofNat w.bits a) (BitVec.ofNat w.bits d),
      UREM (BitVec.ofNat w.bits a) (BitVec.ofNat w.bits d) with
    | some q, some r => some [q.toNat,r.toNat]
    | _, _ => none
  | .add2 _ _ _ _ _ _, [a,b,c,d] =>
    let s := joined a b + joined c d
    some [(s.setWidth 32).toNat,((s >>> 32).setWidth 32).toNat]
  | .sub2 _ _ _ _ _ _, [a,b,c,d] =>
    let s := joined a b - joined c d
    some [(s.setWidth 32).toNat,((s >>> 32).setWidth 32).toNat]
  | .mulu2 _ _ _ _, [a,b] =>
    let s := (BitVec.ofNat 32 a).setWidth 64 * (BitVec.ofNat 32 b).setWidth 64
    some [(s.setWidth 32).toNat,((s >>> 32).setWidth 32).toNat]
  | .setcond2 cond _ _ _ _ _, [a,b,c,d] =>
    some [(cond.holds (joined a b) (joined c d)).toNat]
  | _, _ => none

/-- The pseudo registers of a block. Globals come first, and no two share their memory. -/
structure Context where
  nbGlobals : Nat
  nbTemps : Nat
  size : Sizes
  /-- `temp_local` of the temporaries. -/
  isLocal : Nat → Bool
  /-- `mem_offset` of the globals. -/
  off : Nat → Nat
  distinct : ∀ i < nbGlobals, ∀ j < nbGlobals, off i = off j → i = j
  /-- The bits of a host `long`. -/
  long : Nat
  longPos : 8 ≤ long

structure Block (ctx : Context) where
  ops : List Op
  typed : ∀ op ∈ ops, op.Typed ctx.size

inductive Addr
  | state (off : Nat)
  | frame (off : Nat)
deriving DecidableEq, Repr

structure Register where
  /-- The promoted value, if `isReg()`. -/
  data : Option Nat
  dirty : Bool
  /-- `Off` of a local temporary that `isAllocated()`. -/
  slot : Option Nat
deriving DecidableEq, Repr

structure State where
  reg : Nat → Register
  frameOff : Nat
  mem : Addr → Nat

variable (ctx : Context)

def State.home (x : State) (i : Nat) : Option Addr :=
  if i < ctx.nbGlobals then some (.state (ctx.off i)) else (x.reg i).slot.map .frame

def State.setData (x : State) (i v : Nat) (dirty : Bool) : State :=
  { x with reg := Function.update x.reg i ⟨some v,dirty,(x.reg i).slot⟩ }

/-- `LoadInput`; there is no value for a temporary that was never set. -/
def State.loadInput (x : State) (i : Nat) : Option (State × Nat) :=
  match (x.reg i).data with
  | some v => some (x,v)
  | none =>
    match x.home ctx i with
    | none => none
    | some a => some (x.setData i (x.mem a) false,x.mem a)

def State.loadInputs : State → List Nat → Option (State × List Nat)
  | x, [] => some (x,[])
  | x, i :: l =>
    match x.loadInput ctx i with
    | none => none
    | some (x',v) =>
      match State.loadInputs x' l with
      | none => none
      | some (x'',vs) => some (x'',v :: vs)

def State.setOuts (x : State) (dirty : Bool) : List Nat → List Nat → State
  | o :: os, v :: vs => (x.setData o v dirty).setOuts dirty os vs
  | _, _ => x

def translateOp (u : Nat) (x : State) (op : Op) : Option State :=
  if notImplemented op then none
  else
    match x.loadInputs ctx op.ins with
    | none => none
    | some (x',vals) =>
      match code ctx.size u op vals with
      | none => none
      | some res => some (x'.setOuts (setsDirty op) op.outs res)

def translate (u : Nat → Nat) : Nat → List Op → State → Option State
  | _, [], x => some x
  | k, op :: l, x =>
    match translateOp ctx (u k) x op with
    | none => none
    | some x' => translate u (k+1) l x'

def State.demote (x : State) (i : Nat) : State :=
  { x with reg := Function.update x.reg i { x.reg i with data := none } }

def State.setFrame (x : State) (i : Nat) : State :=
  match (x.reg i).slot with
  | some _ => x
  | none =>
    let size := (ctx.size i).bits
    let next := if size % ctx.long = 0 then 0 else ctx.long - size%ctx.long
    { x with
      reg := Function.update x.reg i { x.reg i with slot := some x.frameOff }
      frameOff := x.frameOff + (size+next) / 8 }

def State.saveGlobal (x : State) (i : Nat) : State :=
  match (x.reg i).data with
  | none => x
  | some v =>
    let y := if (x.reg i).dirty then
      { x with mem := Function.update x.mem (.state (ctx.off i)) v } else x
    y.demote i

def State.saveLocal (x : State) (i : Nat) : State :=
  match (x.reg i).data with
  | none => x
  | some v =>
    let y := if ctx.isLocal i ∧ (x.reg i).dirty then
      let z := x.setFrame ctx i
      match (z.reg i).slot with
      | none => z
      | some s => { z with mem := Function.update z.mem (.frame s) v }
      else x
    y.demote i

def State.saveGlobals (x : State) : State :=
  let y := (List.range ctx.nbGlobals).foldl (State.saveGlobal ctx) x
  (List.range' ctx.nbGlobals (ctx.nbTemps-ctx.nbGlobals)).foldl (State.saveLocal ctx) y

end Hqemu.Llvm.PromotedRegs
