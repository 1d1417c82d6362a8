import Hqemu.Lib.Traverse

/-! `RebuildCFG` of `llvm.cpp`: the blocks of a region that are reached from its head, with new
links between them. -/
namespace Hqemu.Llvm.RegionCfg

open Lib.Traverse

structure Block (w : Nat) where
  pc : BitVec w
  mode : Nat
  tbGenPending : Nat
  jmpPc0 : BitVec w
  jmpPc1 : BitVec w

structure RegionGraph (w : Nat) (Node : Type) where
  tb : Node → Block w
  successor : Node → List Node
  cfg : Node

variable {w : Nat} {Node : Type} [DecidableEq Node] [Fintype Node]

def Block.isHead (tb : Block w) : Bool := tb.mode = 2 ∨ tb.tbGenPending = 1

/-- The parent ends in an indirect branch or branches to the child. -/
def Block.branchesTo (parent child : Block w) : Bool :=
  parent.jmpPc0 = BitVec.allOnes w ∨ parent.jmpPc0 = child.pc ∨ parent.jmpPc1 = child.pc

def RegionGraph.pushed (g : RegionGraph w Node) (parent : Node) : List Node :=
  (g.successor parent).filter fun child =>
    ¬(g.tb child).isHead ∧ (g.tb parent).branchesTo (g.tb child)

/-- The keys of `NodeMapping` after the traversal. -/
def RegionGraph.nodeMapping (g : RegionGraph w Node) : List Node := numbering g.pushed g.cfg

structure Rebuilt (Node : Type) where
  nodes : List Node
  successor : Node → List Node
  count : Nat

def rebuildCFG (g : RegionGraph w Node) : Rebuilt Node where
  nodes := g.nodeMapping
  successor old := (g.successor old).filter (· ∈ g.nodeMapping)
  count := g.nodeMapping.length

/-- The successors that are not the head of another region and are branched to. The region's own
head is marked as pending too. -/
def RegionGraph.admissible (g : RegionGraph w Node) (parent : Node) : List Node :=
  (g.successor parent).filter fun child =>
    (child = g.cfg ∨ ¬(g.tb child).isHead) ∧ (g.tb parent).branchesTo (g.tb child)

/-- The new graph has the blocks reached through admissible edges, each once, and no other edges
than such ones. -/
structure Correct (g : RegionGraph w Node) (new : Rebuilt Node) : Prop where
  nodes : ∀ node, node ∈ new.nodes ↔ Reachable g.admissible g.cfg node
  nodup : new.nodes.Nodup
  count : new.count = new.nodes.length
  edges : ∀ node ∈ new.nodes, ∀ child ∈ new.successor node,
    child ∈ new.nodes ∧ child ∈ g.admissible node

variable {g : RegionGraph w Node} {node : Node}

omit [DecidableEq Node] [Fintype Node] in
theorem isHead_of_reachable (h : Reachable g.pushed g.cfg node) :
    node = g.cfg ∨ ¬(g.tb node).isHead := by
  cases h with
  | refl => exact .inl rfl
  | tail _ hedge => exact .inr (of_decide_eq_true (List.mem_filter.mp hedge).2).1

omit [Fintype Node] in
/-- An edge back to the head leads to no further block. -/
theorem reachable_admissible :
    Reachable g.admissible g.cfg node ↔ Reachable g.pushed g.cfg node := by
  refine ⟨fun h => ?_,Relation.ReflTransGen.mono (fun parent child hchild => ?_) _ _⟩
  · induction h with
    | refl => exact .refl
    | @tail _ child _ hedge ih =>
      by_cases hown : child = g.cfg
      · rw [hown]
        exact .refl
      · exact ih.tail (by simpa [RegionGraph.admissible,RegionGraph.pushed,hown] using hedge)
  · simp only [RegionGraph.pushed,List.mem_filter,decide_eq_true_eq] at hchild
    simp only [RegionGraph.admissible,List.mem_filter,decide_eq_true_eq]
    exact ⟨hchild.1,.inr hchild.2.1,hchild.2.2⟩

/-- The links are rebuilt without a look at the branch targets: an edge that was not followed
comes back when its end is reached in another way. -/
theorem rebuildCFG_correct_iff (g : RegionGraph w Node) :
    Correct g (rebuildCFG g) ↔ ∀ node child, Reachable g.pushed g.cfg node →
      Reachable g.pushed g.cfg child → child ∈ g.successor node →
      (g.tb node).branchesTo (g.tb child) = true := by
  have hnodes : ∀ node, node ∈ (rebuildCFG g).nodes ↔ Reachable g.pushed g.cfg node :=
    fun node => mem_numbering
  have hedge : ∀ node child, child ∈ (rebuildCFG g).successor node ↔
      child ∈ g.successor node ∧ child ∈ (rebuildCFG g).nodes := by
    intro node child
    simp [rebuildCFG]
  constructor
  · intro h node child hnode hchild hsuccessor
    have hnew := (hedge node child).mpr ⟨hsuccessor,(hnodes child).mpr hchild⟩
    have hadmissible := (h.edges node ((hnodes node).mpr hnode) child hnew).2
    exact (of_decide_eq_true (List.mem_filter.mp hadmissible).2).2
  · intro h
    refine ⟨fun node => (hnodes node).trans reachable_admissible.symm,
      nodup_numbering g.pushed g.cfg,rfl,fun node hnode child hchild => ?_⟩
    obtain ⟨hsuccessor,hmem⟩ := (hedge node child).mp hchild
    have hbranch := h node child ((hnodes node).mp hnode) ((hnodes child).mp hmem) hsuccessor
    have hhead := isHead_of_reachable ((hnodes child).mp hmem)
    exact ⟨hmem,List.mem_filter.mpr ⟨hsuccessor,by simpa [hbranch] using hhead⟩⟩

def strayed : RegionGraph 8 (Fin 3) where
  tb
    | 0 => ⟨0,0,1,255,255⟩
    | 1 => ⟨1,0,0,9,9⟩
    | 2 => ⟨2,0,0,255,255⟩
  successor
    | 0 => [1,2]
    | 1 => [2]
    | 2 => []
  cfg := 0

theorem stray_edge_kept :
    1 ∈ (rebuildCFG strayed).nodes ∧ 2 ∈ (rebuildCFG strayed).successor 1 ∧
      2 ∉ strayed.admissible 1 := by
  decide

end Hqemu.Llvm.RegionCfg
