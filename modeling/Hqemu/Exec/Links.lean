import Hqemu.Lib.Chain
import Mathlib.Data.Nat.Bitwise

/-! The link fields of the blocks: hash buckets, page lists and circular jump lists. A block is its
index in `tbs`, and null is `none`. -/
namespace Hqemu.Exec

open Lib.Chain

abbrev TbId := Nat
abbrev Slot := Fin 2

scoped instance (priority := 2000) slots_neZero : NeZero 2 := ⟨by decide⟩
scoped instance (priority := 2000) oneCpu_neZero : NeZero 1 := ⟨by decide⟩

inductive HashLoc where
  | bucket (h : Nat)
  | next (tb : TbId)
deriving DecidableEq, Repr

inductive PageLoc where
  | firstTb (page : Nat)
  | next (tb : TbId) (n : Slot)
deriving DecidableEq, Repr

/-- Tags 0 and 1 lead to `jmp_next[0]` and `jmp_next[1]` of the block, tag 2 to
its `jmp_first`. A tagged pointer is therefore the cell it leads to. -/
inductive JmpLoc where
  | next (tb : TbId) (n : Slot)
  | first (tb : TbId)
deriving DecidableEq, Repr

/-- The operand of a patched direct jump: the code of a block, or the exit stub of the jumping block
itself. -/
inductive JmpTarget where
  | block (tb : TbId)
  | stub (tb : TbId) (n : Slot)
deriving DecidableEq, Repr

structure PageDesc where
  codeWriteCount : Nat
  codeBitmap : Option (List UInt8)
  flags : Nat
deriving DecidableEq, Repr

def pageWrite : Nat := 0x0002
def pageBits : Nat := 0x0007

/-- Build-time and start-up parameters. A walk is given up after `walkLimit` steps, and `reservedVa`
says whether the guest's address space was reserved. -/
structure Config where
  walkLimit : Nat
  targetLongBits : Nat
  targetPageBits : Nat
  hostPageSize : Nat
  realHostPageSize : Nat := hostPageSize
  guestBase : Nat := 0
  reservedVa : Bool := false
  codeGenMaxBlocks : Nat
  codeGenBufferSize : Nat
  codeGenBufferMaxSize : Nat
  targetI386 : Bool

structure Links where
  hash : HashLoc → Option TbId
  page : PageLoc → Option (TbId × Slot)
  jmp : JmpLoc → Option JmpLoc
  pageAddr : TbId × Slot → Option Nat
  jmpTarget : TbId × Slot → JmpTarget
  pageDesc : Nat → PageDesc
  hostProt : Nat → Option Nat

def codeGenPhysHashSize : Nat := 1 <<< 15

def tbPhysHashFunc (pc : Nat) : Nat := pc &&& (codeGenPhysHashSize-1)

def Config.targetPageSize (cfg : Config) : Nat := 1 <<< cfg.targetPageBits

theorem targetPageSize_pos (cfg : Config) : 0 < cfg.targetPageSize := by
  rw [Config.targetPageSize,Nat.one_shiftLeft]
  exact Nat.two_pow_pos _

def pageIndex (cfg : Config) (addr : Nat) : Nat := addr/cfg.targetPageSize

def pageAlign (cfg : Config) (addr : Nat) : Nat :=
  addr/cfg.targetPageSize*cfg.targetPageSize

def pageOffset (cfg : Config) (addr : Nat) : Nat := addr%cfg.targetPageSize

namespace Links

def setHash (links : Links) (loc : HashLoc) (value : Option TbId) : Links :=
  { links with hash := Function.update links.hash loc value }

def setPage (links : Links) (loc : PageLoc) (value : Option (TbId × Slot)) : Links :=
  { links with page := Function.update links.page loc value }

def setJmp (links : Links) (loc : JmpLoc) (value : Option JmpLoc) : Links :=
  { links with jmp := Function.update links.jmp loc value }

def tbRemove (cfg : Config) (links : Links) (h : Nat) (tb : TbId) : Option Links := do
  let ptb ← findLink links.hash HashLoc.next (· == tb) cfg.walkLimit (.bucket h)
  return links.setHash ptb (links.hash (.next tb))

def pageCell (node : TbId × Slot) : PageLoc := .next node.1 node.2

def tbPageRemove (cfg : Config) (links : Links) (page : Nat) (tb : TbId) :
    Option Links := do
  let ptb ← findLink links.page pageCell (·.1 == tb) cfg.walkLimit (.firstTb page)
  let node ← links.page ptb
  return links.setPage ptb (links.page (pageCell node))

/-- The circular list is entered at the block's own link and left when the walk
is back at the cell that leads to it. -/
def tbJmpRemove (cfg : Config) (links : Links) (tb : TbId) (n : Slot) : Option Links :=
  match links.jmp (.next tb n) with
  | none => some links
  | some _ => do
      let ptb ← findLink links.jmp id (· == .next tb n) cfg.walkLimit (.next tb n)
      return (links.setJmp ptb (links.jmp (.next tb n))).setJmp (.next tb n) none

def tbSetJmpTarget (links : Links) (tb : TbId) (n : Slot) (addr : JmpTarget) : Links :=
  { links with jmpTarget := Function.update links.jmpTarget (tb,n) addr }

def tbResetJump (links : Links) (tb : TbId) (n : Slot) : Links :=
  links.tbSetJmpTarget tb n (.stub tb n)

def tbAddJump (links : Links) (tb : TbId) (n : Slot) (tbNext : TbId) : Links :=
  match links.jmp (.next tb n) with
  | some _ => links
  | none =>
    let links := links.tbSetJmpTarget tb n (.block tbNext)
    (links.setJmp (.next tb n) (links.jmp (.first tbNext))).setJmp
      (.first tbNext) (some (.next tb n))

/-- The last loop of `tb_phys_invalidate`: every jump in the list is unchained
and its link cleared, up to the pointer tagged as the head. -/
def suppressJumps : Nat → Links → Option JmpLoc → Option Links
  | 0, _, _ => none
  | _+1, _, none => none
  | _+1, links, some (.first _) => some links
  | limit+1, links, some (.next tb1 n1) =>
    let tb2 := links.jmp (.next tb1 n1)
    suppressJumps limit ((links.tbResetJump tb1 n1).setJmp (.next tb1 n1) none) tb2

def isFirst : JmpLoc → Bool
  | .first _ => true
  | .next _ _ => false

def JmpLoc.tb : JmpLoc → TbId
  | .first tb => tb
  | .next tb _ => tb

/-- `recurse` is the call of `tb_reset_jump_recursive` on the block jumped to. -/
def tbResetJumpRecursive2 (cfg : Config) (recurse : Links → TbId → Option Links)
    (links : Links) (tb : TbId) (n : Slot) : Option Links :=
  match links.jmp (.next tb n) with
  | none => some links
  | some _ => do
      let last ← findLink links.jmp id isFirst cfg.walkLimit (.next tb n)
      let head ← links.jmp last
      let tbNext := JmpLoc.tb head
      let ptb ← findLink links.jmp id (· == .next tb n) cfg.walkLimit (.first tbNext)
      let links := (links.setJmp ptb (links.jmp (.next tb n))).setJmp (.next tb n) none
      recurse (links.tbResetJump tb n) tbNext

def tbResetJumpRecursive (cfg : Config) : Nat → Links → TbId → Option Links
  | 0, _, _ => none
  | depth+1, links, tb => do
      let links ← tbResetJumpRecursive2 cfg (tbResetJumpRecursive cfg depth) links tb 0
      tbResetJumpRecursive2 cfg (tbResetJumpRecursive cfg depth) links tb 1

def invalidatePageBitmap (links : Links) (page : Nat) : Links :=
  { links with
    pageDesc := Function.update links.pageDesc page
      { links.pageDesc page with codeBitmap := none, codeWriteCount := 0 } }

/-- The host's `mprotect` changes the mapped pages from `start` on and fails at the first
page that is not mapped, or that it may not change. -/
def mprotect (cfg : Config) (granted : Nat → Bool) (hostProt : Nat → Option Nat)
    (start stop prot : Nat) : Nat → Option Nat :=
  let first := start/cfg.realHostPageSize
  fun page =>
    if first ≤ page ∧ page*cfg.realHostPageSize < stop ∧
        (List.range (page+1-first)).all
          (fun i => granted (first+i) && (hostProt (first+i)).isSome)
    then some prot
    else hostProt page

def protectPage (cfg : Config) (links : Links) (pageAddr : Nat) : Links :=
  if (links.pageDesc (pageIndex cfg pageAddr)).flags &&& pageWrite = 0 then links
  else
    let host := pageAddr/cfg.hostPageSize
    let first := host*cfg.hostPageSize/cfg.targetPageSize
    let count := cfg.hostPageSize/cfg.targetPageSize
    let prot := (List.range count).foldl
      (fun prot i => prot ||| (links.pageDesc (first+i)).flags) 0
    let clearWrite (flags : Nat) : Nat := flags ^^^ (flags &&& pageWrite)
    { links with
      pageDesc := fun page =>
        if first ≤ page ∧ page < first + count then
          { links.pageDesc page with flags := clearWrite (links.pageDesc page).flags }
        else links.pageDesc page
      hostProt := mprotect cfg (fun _ => true) links.hostProt (host*cfg.hostPageSize)
        ((host+1) * cfg.hostPageSize) (clearWrite (prot &&& pageBits)) }

def tbAllocPage (cfg : Config) (links : Links) (tb : TbId) (n : Slot) (pageAddr : Nat) :
    Links :=
  let page := pageIndex cfg pageAddr
  let links := { links with
    pageAddr := Function.update links.pageAddr (tb,n) (some pageAddr) }
  let links := links.setPage (.next tb n) (links.page (.firstTb page))
  let links := links.setPage (.firstTb page) (some (tb,n))
  (links.invalidatePageBitmap page).protectPage cfg pageAddr

/-- `nextOffset` says which direct jumps the block has; an absent one has offset
`0xffff` in the source and no stub to return to. -/
def tbLinkPage (cfg : Config) (links : Links) (tb : TbId) (nextOffset : Slot → Option Nat)
    (physPc : Nat) (physPage2 : Option Nat) : Links :=
  let h := tbPhysHashFunc physPc
  let links := links.setHash (.next tb) (links.hash (.bucket h))
  let links := links.setHash (.bucket h) (some tb)
  let links := links.tbAllocPage cfg tb 0 (pageAlign cfg physPc)
  let links := match physPage2 with
    | some page2 => links.tbAllocPage cfg tb 1 page2
    | none => { links with pageAddr := Function.update links.pageAddr (tb,1) none }
  let links := links.setJmp (.first tb) (some (.first tb))
  let links := (links.setJmp (.next tb 0) none).setJmp (.next tb 1) none
  let links := if (nextOffset 0).isSome then links.tbResetJump tb 0 else links
  if (nextOffset 1).isSome then links.tbResetJump tb 1 else links

def leavePage (cfg : Config) (links : Links) (tb : TbId) (page : Option Nat)
    (pageAddr : Option Nat) : Option Links :=
  match page with
  | none => some links
  | some addr =>
    if some addr = pageAddr then some links
    else do
      let links ← links.tbPageRemove cfg (pageIndex cfg addr) tb
      return links.invalidatePageBitmap (pageIndex cfg addr)

def clearPhysHash (links : Links) : Links :=
  { links with
    hash := fun
      | .bucket _ => none
      | .next tb => links.hash (.next tb) }

def pageFlushTb (links : Links) : Links :=
  { links with
    page := fun
      | .firstTb _ => none
      | .next tb n => links.page (.next tb n)
    pageDesc := fun page =>
      { links.pageDesc page with codeBitmap := none, codeWriteCount := 0 } }

end Links

end Hqemu.Exec
