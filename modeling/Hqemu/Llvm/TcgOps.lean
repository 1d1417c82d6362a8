import Mathlib.Algebra.Group.Nat.Defs
import Mathlib.Data.List.Basic

/-! The integer ops of TCG and what they compute, after `tcg/README`. An op takes the low bits of
the numbers in its registers. -/
namespace Hqemu.Llvm.TcgOps

inductive Width
  | i32
  | i64
deriving DecidableEq, Repr

def Width.bits : Width → Nat
  | .i32 => 32
  | .i64 => 64

inductive Cond
  | eq | ne | lt | ge | le | gt | ltu | geu | leu | gtu
deriving DecidableEq, Repr

def Cond.holds {n : Nat} : Cond → BitVec n → BitVec n → Bool
  | .eq, x, y => x == y
  | .ne, x, y => x != y
  | .lt, x, y => x.slt y
  | .ge, x, y => y.sle x
  | .le, x, y => x.sle y
  | .gt, x, y => y.slt x
  | .ltu, x, y => x.ult y
  | .geu, x, y => y.ule x
  | .leu, x, y => x.ule y
  | .gtu, x, y => y.ult x

inductive UnOp
  | ext8s | ext16s | ext32s | ext8u | ext16u | ext32u | bswap16 | bswap32 | bswap64 | not | neg
deriving DecidableEq, Repr

inductive BinOp
  | add | sub | mul | div | divu | rem | remu | and | or | xor | shl | shr | sar | rotl | rotr
  | andc | orc | eqv | nand | nor
deriving DecidableEq, Repr

/-- The ops, each with its outputs before its inputs. `div2` has the low and the high half of the
dividend, then the divisor; the last three exist on 32-bit hosts. -/
inductive Op
  | mov (w : Width) (out inp : Nat)
  | movi (w : Width) (out c : Nat)
  | setcond (w : Width) (cond : Cond) (out in1 in2 : Nat)
  | unary (w : Width) (o : UnOp) (out inp : Nat)
  | binary (w : Width) (o : BinOp) (out in1 in2 : Nat)
  | div2 (w : Width) (out1 out2 in1 in2 in3 : Nat)
  | divu2 (w : Width) (out1 out2 in1 in2 in3 : Nat)
  | add2 (out1 out2 in1 in2 in3 in4 : Nat)
  | sub2 (out1 out2 in1 in2 in3 in4 : Nat)
  | mulu2 (out1 out2 in1 in2 : Nat)
  | setcond2 (cond : Cond) (out in1 in2 in3 in4 : Nat)
deriving DecidableEq, Repr

def Op.ins : Op → List Nat
  | .mov _ _ inp => [inp]
  | .movi _ _ _ => []
  | .setcond _ _ _ in1 in2 => [in1,in2]
  | .unary _ _ _ inp => [inp]
  | .binary _ _ _ in1 in2 => [in1,in2]
  | .div2 _ _ _ in1 in2 in3 => [in1,in2,in3]
  | .divu2 _ _ _ in1 in2 in3 => [in1,in2,in3]
  | .add2 _ _ in1 in2 in3 in4 => [in1,in2,in3,in4]
  | .sub2 _ _ in1 in2 in3 in4 => [in1,in2,in3,in4]
  | .mulu2 _ _ in1 in2 => [in1,in2]
  | .setcond2 _ _ in1 in2 in3 in4 => [in1,in2,in3,in4]

def Op.outs : Op → List Nat
  | .mov _ out _ => [out]
  | .movi _ out _ => [out]
  | .setcond _ _ out _ _ => [out]
  | .unary _ _ out _ => [out]
  | .binary _ _ out _ _ => [out]
  | .div2 _ out1 out2 _ _ _ => [out1,out2]
  | .divu2 _ out1 out2 _ _ _ => [out1,out2]
  | .add2 out1 out2 _ _ _ _ => [out1,out2]
  | .sub2 out1 out2 _ _ _ _ => [out1,out2]
  | .mulu2 out1 out2 _ _ => [out1,out2]
  | .setcond2 _ out _ _ _ _ => [out]

def Op.width : Op → Width
  | .mov w _ _ => w
  | .movi w _ _ => w
  | .setcond w _ _ _ _ => w
  | .unary w _ _ _ => w
  | .binary w _ _ _ _ => w
  | .div2 w _ _ _ _ _ => w
  | .divu2 w _ _ _ _ _ => w
  | _ => .i32

/-- The ops whose input may be of either type. -/
def Op.anyInput : Op → Bool
  | .mov _ _ _ => true
  | .unary .i64 .ext8s _ _ => true
  | .unary .i64 .ext16s _ _ => true
  | .unary .i64 .ext32s _ _ => true
  | .unary .i64 .ext32u _ _ => true
  | _ => false

def Op.needs64 : Op → Bool
  | .unary _ .ext32s _ _ => true
  | .unary _ .ext32u _ _ => true
  | .unary _ .bswap64 _ _ => true
  | _ => false

def Op.Typed (size : Nat → Width) (op : Op) : Prop :=
  (∀ o ∈ op.outs, size o = op.width) ∧
    (op.anyInput = false → ∀ i ∈ op.ins, size i = op.width) ∧
    (op.needs64 = true → op.width = .i64)

instance (size : Nat → Width) (op : Op) : Decidable (op.Typed size) :=
  inferInstanceAs (Decidable (_ ∧ _ ∧ _))

def bswap (n : Nat) (x : BitVec (8*n)) : BitVec (8*n) :=
  BitVec.ofNat _ ((List.range n).foldl (fun acc i => acc*256+x.toNat/256^i%256) 0)

/-- Undefined behaviour has no result. -/
def unary {n : Nat} : UnOp → BitVec n → BitVec n
  | .ext8s, x => (x.setWidth 8).signExtend n
  | .ext16s, x => (x.setWidth 16).signExtend n
  | .ext32s, x => (x.setWidth 32).signExtend n
  | .ext8u, x => (x.setWidth 8).setWidth n
  | .ext16u, x => (x.setWidth 16).setWidth n
  | .ext32u, x => (x.setWidth 32).setWidth n
  | .bswap16, x => (bswap 2 (x.setWidth 16)).setWidth n
  | .bswap32, x => (bswap 4 (x.setWidth 32)).setWidth n
  | .bswap64, x => (bswap 8 (x.setWidth 64)).setWidth n
  | .not, x => ~~~x
  | .neg, x => -x

/-- Signed division overflows in one case. -/
def divides {n : Nat} (x y : BitVec n) : Bool := y != 0 && !(x == BitVec.intMin n && y == -1)

def binary {n : Nat} : BinOp → BitVec n → BitVec n → Option (BitVec n)
  | .add, x, y => some (x+y)
  | .sub, x, y => some (x-y)
  | .mul, x, y => some (x*y)
  | .div, x, y => if divides x y then some (x.sdiv y) else none
  | .divu, x, y => if y ≠ 0 then some (x/y) else none
  | .rem, x, y => if divides x y then some (x.srem y) else none
  | .remu, x, y => if y ≠ 0 then some (x%y) else none
  | .and, x, y => some (x &&& y)
  | .or, x, y => some (x ||| y)
  | .xor, x, y => some (x ^^^ y)
  | .shl, x, y => if y.toNat < n then some (x <<< y.toNat) else none
  | .shr, x, y => if y.toNat < n then some (x >>> y.toNat) else none
  | .sar, x, y => if y.toNat < n then some (x.sshiftRight y.toNat) else none
  | .rotl, x, y => if y.toNat < n then some (x.rotateLeft y.toNat) else none
  | .rotr, x, y => if y.toNat < n then some (x.rotateRight y.toNat) else none
  | .andc, x, y => some (x &&& ~~~y)
  | .orc, x, y => some (x ||| ~~~y)
  | .eqv, x, y => some (~~~(x ^^^ y))
  | .nand, x, y => some (~~~(x &&& y))
  | .nor, x, y => some (~~~(x ||| y))

abbrev Sizes := Nat → Width

abbrev Regs := Nat → Option Nat

section Eval
variable (size : Sizes)

/-- The value that op moves from register `inp`: truncated or zero-extended where the types
differ. -/
def moved (w : Width) (inp a : Nat) : Nat :=
  if size inp = w then a else (BitVec.ofNat 32 a).toNat

/-- The results of an op. The emitters of `div2` and `divu2` extend the dividend to its high half;
no other high half has a meaning. -/
def eval : Op → List Nat → Option (List Nat)
  | .mov w _ inp, [a] => some [moved size w inp a]
  | .movi w _ c, [] => some [(BitVec.ofNat w.bits c).toNat]
  | .setcond w cond _ _ _, [a,b] =>
    some [(cond.holds (BitVec.ofNat w.bits a) (BitVec.ofNat w.bits b)).toNat]
  | .unary w o _ _, [a] => some [(unary o (BitVec.ofNat w.bits a)).toNat]
  | .binary w o _ _ _, [a,b] =>
    (binary o (BitVec.ofNat w.bits a) (BitVec.ofNat w.bits b)).map fun v => [v.toNat]
  | .div2 w _ _ _ _ _, [a,h,d] =>
    let x := BitVec.ofNat w.bits a
    let y := BitVec.ofNat w.bits d
    if BitVec.ofNat w.bits h = x.sshiftRight (w.bits-1) ∧ divides x y then
      some [(x.sdiv y).toNat,(x.srem y).toNat]
    else none
  | .divu2 w _ _ _ _ _, [a,h,d] =>
    let x := BitVec.ofNat w.bits a
    let y := BitVec.ofNat w.bits d
    if BitVec.ofNat w.bits h = 0 ∧ y ≠ 0 then some [(x/y).toNat,(x%y).toNat] else none
  | .add2 _ _ _ _ _ _, [a,b,c,d] =>
    let s := (BitVec.ofNat 32 b ++ BitVec.ofNat 32 a) + (BitVec.ofNat 32 d ++ BitVec.ofNat 32 c)
    some [(s.extractLsb' 0 32).toNat,(s.extractLsb' 32 32).toNat]
  | .sub2 _ _ _ _ _ _, [a,b,c,d] =>
    let s := (BitVec.ofNat 32 b ++ BitVec.ofNat 32 a) - (BitVec.ofNat 32 d ++ BitVec.ofNat 32 c)
    some [(s.extractLsb' 0 32).toNat,(s.extractLsb' 32 32).toNat]
  | .mulu2 _ _ _ _, [a,b] =>
    let s := (BitVec.ofNat 32 a).setWidth 64 * (BitVec.ofNat 32 b).setWidth 64
    some [(s.extractLsb' 0 32).toNat,(s.extractLsb' 32 32).toNat]
  | .setcond2 cond _ _ _ _ _, [a,b,c,d] =>
    some [(cond.holds (BitVec.ofNat 32 b ++ BitVec.ofNat 32 a)
      (BitVec.ofNat 32 d ++ BitVec.ofNat 32 c)).toNat]
  | _, _ => none

end Eval

def Regs.read (r : Regs) : List Nat → Option (List Nat)
  | [] => some []
  | i :: l =>
    match r i, Regs.read r l with
    | some v, some vs => some (v :: vs)
    | _, _ => none

def Regs.write (r : Regs) : List Nat → List Nat → Regs
  | o :: os, v :: vs => Regs.write (Function.update r o (some v)) os vs
  | _, _ => r

/-- Runs ops one after the other, the one at position `k` evaluated by `ev k`. -/
def run (ev : Nat → Op → List Nat → Option (List Nat)) : Nat → List Op → Regs → Option Regs
  | _, [], r => some r
  | k, op :: l, r =>
    match r.read op.ins with
    | none => none
    | some vals =>
      match ev k op vals with
      | none => none
      | some res => run ev (k+1) l (r.write op.outs res)

def interp (size : Sizes) (ops : List Op) (r : Regs) : Option Regs :=
  run (fun _ => eval size) 0 ops r

end Hqemu.Llvm.TcgOps
