import Hqemu.Exec.Tb
import Hqemu.Lib.Bitmap

/-! The code bitmap of a guest page: one bit for each byte, set where a block of the
page's list has code. -/
namespace Hqemu.Exec

open Lib.Chain Lib.Bitmap

def setBits (tab : List UInt8) (start len : Nat) : List UInt8 :=
  let stop := start+len
  if start / 8 = stop / 8 then
    if start < stop then orByte tab (start/8) (above (start%8) &&& below (stop%8)) else tab
  else
    let tab := orByte tab (start/8) (above (start%8))
    let tab := fill tab (start/8+1) (stop/8-(start/8+1))
    if stop / 8 * 8 < stop then orByte tab (stop/8) (below (stop%8)) else tab

@[simp] theorem length_setBits (tab : List UInt8) (start len : Nat) :
    (setBits tab start len).length = tab.length := by
  unfold setBits
  dsimp only
  split
  · split <;> simp
  · split <;> simp

theorem bitAt_setBits {tab : List UInt8} {start len i : Nat} (hi : i/8 < tab.length) :
    bitAt (setBits tab start len) i =
      (bitAt tab i || decide (start ≤ i) && decide (i < start+len)) := by
  have hmod : i%8 < 8 := Nat.mod_lt _ (by decide)
  have hstart : start%8 < 8 := Nat.mod_lt _ (by decide)
  have hstop : (start+len) % 8 < 8 := Nat.mod_lt _ (by decide)
  unfold setBits
  dsimp only
  split
  · split
    · rw [bitAt_orByte hi,UInt8.toNat_and,Nat.testBit_and,testBit_above hstart hmod,
        testBit_below hstop hmod]
      congr 1
      simp only [← Bool.decide_and,decide_eq_decide]
      omega
    · have hempty : ¬(start ≤ i ∧ i < start+len) := by omega
      rw [← Bool.decide_and,decide_eq_false hempty,Bool.or_false]
  · split
    · rw [bitAt_orByte (by simpa using hi),bitAt_fill (by simpa using hi),bitAt_orByte hi,
        testBit_above hstart hmod,testBit_below hstop hmod,Bool.or_assoc,Bool.or_assoc]
      congr 1
      simp only [← Bool.decide_and,← Bool.decide_or,decide_eq_decide]
      omega
    · rw [bitAt_fill (by simpa using hi),bitAt_orByte hi,testBit_above hstart hmod,Bool.or_assoc]
      congr 1
      simp only [← Bool.decide_and,← Bool.decide_or,decide_eq_decide]
      omega

def smcBitmapUseThreshold : Nat := 10

/-- The bytes of its page that a node of a page list stands for: the block begins on the
page of its first node and ends on that of its second. -/
def nodeRange (cfg : Config) (desc : TbDesc) (m : Slot) : Nat × Nat :=
  if m = 0 then
    let tbStart := pageOffset cfg desc.pc
    (tbStart,min (tbStart+desc.size) cfg.targetPageSize)
  else (0,pageOffset cfg (desc.pc+desc.size))

theorem nodeRange_zero (cfg : Config) (desc : TbDesc) : nodeRange cfg desc 0 =
    (pageOffset cfg desc.pc,min (pageOffset cfg desc.pc + desc.size) cfg.targetPageSize) := rfl

theorem nodeRange_one (cfg : Config) (desc : TbDesc) :
    nodeRange cfg desc 1 = (0,pageOffset cfg (desc.pc+desc.size)) := rfl

namespace World

variable {n : Nat}

def setPageDesc (w : World n) (page : Nat) (desc : PageDesc) : World n :=
  { w with links := { w.links with pageDesc := Function.update w.links.pageDesc page desc } }

def addNode (cfg : Config) (w : World n) (tab : List UInt8) (node : TbId × Slot) : List UInt8 :=
  let (tbStart,tbEnd) := nodeRange cfg (w.desc node.1) node.2
  setBits tab tbStart (tbEnd-tbStart)

def buildPageBitmap (cfg : Config) (w : World n) (page : Nat) : Option (World n) := do
  let nodes ← collect w.links.page Links.pageCell cfg.walkLimit (.firstTb page)
  let tab := nodes.foldl (w.addNode cfg) (List.replicate (cfg.targetPageSize/8) 0)
  return w.setPageDesc page { w.links.pageDesc page with codeBitmap := some tab }

/-- The count of writes goes up as long as there is no bitmap; at the threshold a write
of the CPU builds it. -/
def countWrite (cfg : Config) (w : World n) (page : Nat) (isCpuWriteAccess : Bool) :
    Option (World n) :=
  let desc := w.links.pageDesc page
  if desc.codeBitmap.isSome then some w
  else
    let count := (desc.codeWriteCount+1) % 2^32
    let w := w.setPageDesc page { desc with codeWriteCount := count }
    if smcBitmapUseThreshold ≤ count ∧ isCpuWriteAccess then w.buildPageBitmap cfg page
    else some w

end World

theorem bitAt_foldl_addNode {n : Nat} {cfg : Config} {w : World n} {nodes : List (TbId × Slot)}
    {tab : List UInt8} {i : Nat} (hi : i/8 < tab.length) :
    bitAt (nodes.foldl (w.addNode cfg) tab) i = true ↔ bitAt tab i = true ∨
      ∃ node ∈ nodes, (nodeRange cfg (w.desc node.1) node.2).1 ≤ i ∧
        i < (nodeRange cfg (w.desc node.1) node.2).2 := by
  induction nodes generalizing tab with
  | nil => simp
  | cons node rest ih =>
    have hlen : i/8 < (w.addNode cfg tab node).length := by
      rwa [World.addNode,length_setBits]
    have hnode : bitAt (w.addNode cfg tab node) i = true ↔ bitAt tab i = true ∨
        (nodeRange cfg (w.desc node.1) node.2).1 ≤ i ∧
          i < (nodeRange cfg (w.desc node.1) node.2).2 := by
      rw [World.addNode,bitAt_setBits hi]
      simp only [Bool.or_eq_true,Bool.and_eq_true,decide_eq_true_eq]
      apply or_congr_right
      omega
    rw [List.foldl_cons,ih hlen,hnode,List.exists_mem_cons_iff,or_assoc]

end Hqemu.Exec
