import Hqemu.Lib.Traverse
import Mathlib.Data.Fintype.Card

/-! The translation of a region (`llvm-opc.cpp`), whose graph is rebuilt from the branches. -/
namespace Hqemu.Llvm.TraceBuilder

open List

open Lib.Traverse (Reachable numbering mem_numbering nodup_numbering)

/-- `key` is the pair of PC and CS of a node. `exits` are the branches in its code; `TraceLinkPHI`
links like an indirect branch. -/
structure Region (Key Node : Type) where
  cfg : Node
  key : Node → Key
  successor : Node → List Node
  exits : Node → List (Option Key)

structure Builder (Node : Type) where
  node2BB : Finset Node
  translated : List Node
  branches : List Node
  links : List (Node × Node)
  nodeQueue : List Node

variable {Key Node : Type} [DecidableEq Key] [DecidableEq Node] [Fintype Node]

/-- The keys of `Depth` in the order in which `Init` visits them. -/
def Region.depth (g : Region Key Node) : List Node := numbering g.successor g.cfg

/-- `UniqNode` has the first node that was visited with a key. -/
def Region.lookupNode (g : Region Key Node) (key : Key) : Option Node :=
  g.depth.find? (g.key · = key)

/-- The nodes for which `TraceLink` calls `setSuccessor`. -/
def Region.linked (g : Region Key Node) (node : Node) : List Node :=
  (g.exits node).flatMap fun
    | none => g.successor node
    | some key => (g.lookupNode key).toList

/-- The targets for which `TraceLink` calls `setExit`. -/
def Region.outside (g : Region Key Node) (node : Node) : List Key :=
  (g.exits node).filterMap fun exit => exit.filter fun key => (g.lookupNode key).isNone

def Builder.setNode (b : Builder Node) (node : Node) : Builder Node :=
  { b with node2BB := insert node b.node2BB, translated := b.translated ++ [node] }

def Builder.setSuccessor (currNode : Node) (b : Builder Node) (node : Node) : Builder Node where
  node2BB := insert node b.node2BB
  translated := b.translated
  branches := b.branches ++ [node]
  links := b.links.insert (currNode,node)
  nodeQueue := if node ∈ b.node2BB then b.nodeQueue else node :: b.nodeQueue

/-- One round of `GenTrace`; the back of the queue is the head of the list. -/
def Builder.step (g : Region Key Node) (b : Builder Node) : Builder Node :=
  match b.nodeQueue with
  | [] => b
  | node :: queue =>
    (g.linked node).foldl (setSuccessor node) (setNode { b with nodeQueue := queue } node)

def genTrace (g : Region Key Node) : Builder Node :=
  (Builder.step g)^[Fintype.card Node] ⟨∅,[],[],[],[g.cfg]⟩

def finalSuccessor (g : Region Key Node) (b : Builder Node) (node : Node) : List Node :=
  (if node ∈ g.depth ∧ node ∈ b.node2BB then [] else g.successor node) ++
    (b.links.filter (·.1 = node)).map Prod.snd

variable {g : Region Key Node} {b : Builder Node} {node next : Node}

theorem mem_outside {key : Key} :
    key ∈ g.outside node ↔ some key ∈ g.exits node ∧ g.lookupNode key = none := by
  simp [Region.outside,Option.filter_eq_some_iff]

omit [DecidableEq Key] in
theorem mem_depth : node ∈ g.depth ↔ Reachable g.successor g.cfg node := mem_numbering

theorem mem_depth_of_linked (h : Reachable g.linked g.cfg node) : node ∈ g.depth := by
  induction h with
  | refl => exact mem_depth.mpr .refl
  | tail _ hedge ih =>
    obtain ⟨exit,-,hexit⟩ := mem_flatMap.mp hedge
    cases exit with
    | none => exact mem_depth.mpr ((mem_depth.mp ih).tail hexit)
    | some key => exact mem_of_find?_eq_some (Option.mem_toList.mp hexit)

structure Inv (g : Region Key Node) (b : Builder Node) : Prop where
  nodup : (b.nodeQueue ++ b.translated).Nodup
  marked : ∀ x, x ∈ b.node2BB ↔ x ∈ b.nodeQueue ++ b.translated
  entry : g.cfg ∈ b.node2BB
  known : ∀ x ∈ b.node2BB, Reachable g.linked g.cfg x
  branches : ∀ x ∈ b.branches, x ∈ b.node2BB
  links : ∀ link ∈ b.links, link.2 ∈ b.node2BB
  reached : ∀ x ∈ b.node2BB, Relation.ReflTransGen (fun x y => (x,y) ∈ b.links) g.cfg x

theorem Inv.setSuccessor (h : Inv g b) (hnode : node ∈ b.node2BB)
    (hnext : Reachable g.linked g.cfg next) : Inv g (b.setSuccessor node next) := by
  have hgrow : ∀ x, Relation.ReflTransGen (fun x y => (x,y) ∈ b.links) g.cfg x →
      Relation.ReflTransGen (fun x y => (x,y) ∈ b.links.insert (node,next)) g.cfg x :=
    Relation.ReflTransGen.mono (fun x y => mem_insert_of_mem) g.cfg
  have hcases : ∀ x ∈ insert next b.node2BB, x = next ∨ x ∈ b.node2BB := fun x =>
    Finset.mem_insert.mp
  constructor
  · simp only [Builder.setSuccessor]
    split
    · exact h.nodup
    · rename_i hnew
      exact nodup_cons.mpr ⟨fun hmem => hnew ((h.marked next).mpr hmem),h.nodup⟩
  · intro x
    simp only [Builder.setSuccessor,Finset.mem_insert]
    split
    · rename_i hold
      rw [← h.marked,or_iff_right_of_imp fun heq => heq ▸ hold]
    · rw [cons_append,mem_cons,← h.marked]
  · exact Finset.mem_insert_of_mem h.entry
  · intro x hx
    obtain rfl | hold := hcases x hx
    · exact hnext
    · exact h.known x hold
  · intro x hx
    obtain hold | hlast := mem_append.mp hx
    · exact Finset.mem_insert_of_mem (h.branches x hold)
    · rw [mem_singleton.mp hlast]
      exact Finset.mem_insert_self _ _
  · intro link hlink
    obtain rfl | hold := mem_insert_iff.mp hlink
    · exact Finset.mem_insert_self _ _
    · exact Finset.mem_insert_of_mem (h.links link hold)
  · intro x hx
    obtain rfl | hold := hcases x hx
    · exact (hgrow node (h.reached node hnode)).tail mem_insert_self
    · exact hgrow x (h.reached x hold)

theorem Inv.foldl {nodes : List Node} (h : Inv g b) (hnode : node ∈ b.node2BB)
    (hnodes : ∀ next ∈ nodes, Reachable g.linked g.cfg next) :
    let after := nodes.foldl (Builder.setSuccessor node) b
    Inv g after ∧ after.translated = b.translated ∧ after.branches = b.branches ++ nodes := by
  induction nodes generalizing b with
  | nil => exact ⟨h,rfl,(append_nil _).symm⟩
  | cons next nodes ih =>
    obtain ⟨hinv,htranslated,hbranches⟩ := ih (h.setSuccessor hnode (hnodes next mem_cons_self))
      (Finset.mem_insert_of_mem hnode) fun next hnext => hnodes next (mem_cons_of_mem _ hnext)
    exact ⟨hinv,htranslated,hbranches.trans (append_assoc _ [next] _)⟩

theorem Inv.step {queue : List Node} (hq : b.nodeQueue = node :: queue)
    (h : Inv g (Builder.setNode { b with nodeQueue := queue } node)) :
    Inv g (b.step g) ∧ (b.step g).translated = b.translated ++ [node] ∧
      (b.step g).branches = b.branches ++ g.linked node := by
  have hmem := Finset.mem_insert_self node b.node2BB
  simp only [Builder.step,hq]
  exact h.foldl hmem fun next hnext => (h.known node hmem).tail hnext

theorem Inv.setNode {queue : List Node} (h : Inv g b) (hq : b.nodeQueue = node :: queue) :
    Inv g (Builder.setNode { b with nodeQueue := queue } node) := by
  have hmem : node ∈ b.node2BB := (h.marked node).mpr (by simp [hq])
  have hsame : insert node b.node2BB = b.node2BB := Finset.insert_eq_of_mem hmem
  obtain ⟨hnodup,hmarked,hentry,hknown,hbranches,hlinks,hreached⟩ := h
  rw [hq] at hnodup
  simp only [hq] at hmarked
  have hperm : (queue ++ (b.translated ++ [node])).Perm (node :: queue ++ b.translated) := by
    rw [← append_assoc]
    exact perm_append_singleton _ _
  unfold Builder.setNode
  rw [hsame]
  exact ⟨hperm.nodup_iff.mpr hnodup,fun x => (hmarked x).trans hperm.mem_iff.symm,hentry,hknown,
    hbranches,hlinks,hreached⟩

theorem inv_rounds (g : Region Key Node) (rounds : Nat) :
    let b := (Builder.step g)^[rounds+1] ⟨∅,[],[],[],[g.cfg]⟩
    Inv g b ∧ b.branches = b.translated.flatMap g.linked ∧ (b.nodeQueue = [] ∨ b.translated.length =
        rounds+1) := by
  induction rounds with
  | zero =>
    have hfirst : Inv g (Builder.setNode ⟨∅,[],[],[],[]⟩ g.cfg) := by
      constructor <;> simp [Builder.setNode,Reachable,Relation.ReflTransGen.refl]
    obtain ⟨hinv,hnext⟩ := Inv.step (b := ⟨∅,[],[],[],[g.cfg]⟩) rfl hfirst
    exact ⟨hinv,by simp [hnext],.inr (by simp [hnext.1])⟩
  | succ rounds ih =>
    rw [Function.iterate_succ_apply']
    obtain ⟨hinv,hfollowed,hlen⟩ := ih
    generalize (Builder.step g)^[rounds+1] ⟨∅,[],[],[],[g.cfg]⟩ = b at hinv hfollowed hlen ⊢
    cases hq : b.nodeQueue with
    | nil =>
      have hsame : b.step g = b := by simp only [Builder.step,hq]
      rw [hsame]
      exact ⟨hinv,hfollowed,.inl hq⟩
    | cons node queue =>
      obtain ⟨hkept,hnext⟩ := Inv.step hq (hinv.setNode hq)
      refine ⟨hkept,by simp [hnext,hfollowed],.inr ?_⟩
      rw [hnext.1,length_append,hlen.resolve_left (by simp [hq]),length_singleton]

theorem genTrace_inv (g : Region Key Node) :
    Inv g (genTrace g) ∧ (genTrace g).nodeQueue = [] ∧
      (genTrace g).branches = (genTrace g).translated.flatMap g.linked := by
  obtain ⟨rounds,hrounds⟩ := Nat.exists_eq_succ_of_ne_zero (Fintype.card_pos_iff.mpr ⟨g.cfg⟩).ne'
  obtain ⟨hinv,hfollowed,hend⟩ : Inv g (genTrace g) ∧
      (genTrace g).branches = (genTrace g).translated.flatMap g.linked ∧
      ((genTrace g).nodeQueue = [] ∨ (genTrace g).translated.length = Fintype.card Node) := by
    have hrun := inv_rounds g rounds
    rw [← Nat.succ_eq_add_one,← hrounds] at hrun
    exact hrun
  refine ⟨hinv,?_,hfollowed⟩
  obtain hempty | hlength := hend
  · exact hempty
  have hle := hinv.nodup.length_le_card
  rw [length_append,hlength] at hle
  exact eq_nil_of_length_eq_zero (by omega)

theorem marked_genTrace (g : Region Key Node) (node : Node) :
    node ∈ (genTrace g).node2BB ↔ node ∈ (genTrace g).translated := by
  obtain ⟨hinv,hempty,-⟩ := genTrace_inv g
  simpa [hempty] using hinv.marked node

theorem nodup_translated (g : Region Key Node) : (genTrace g).translated.Nodup :=
  (genTrace_inv g).1.nodup.of_append_right

theorem mem_translated : node ∈ (genTrace g).translated ↔ Reachable g.linked g.cfg node := by
  obtain ⟨hinv,-,hfollowed⟩ := genTrace_inv g
  refine ⟨fun hnode => hinv.known node ((marked_genTrace g node).mpr hnode),fun hpath => ?_⟩
  induction hpath with
  | refl => exact (marked_genTrace g _).mp hinv.entry
  | tail _ hedge ih =>
    refine (marked_genTrace g _).mp (hinv.branches _ ?_)
    exact hfollowed ▸ mem_flatMap_of_mem ih hedge

/-- The nodes that branches lead to from the head are translated, each once, and no other. They are
the nodes of the new graph: the check in `TraceFinalize` passes. -/
theorem traceFinalize_consistent (g : Region Key Node) :
    let b := genTrace g
    b.nodeQueue = [] ∧ b.translated.Nodup ∧
    (∀ node, node ∈ b.translated ↔ Reachable g.linked g.cfg node) ∧
    b.branches = b.translated.flatMap g.linked ∧
    (∀ node ∈ b.branches, node ∈ b.translated) ∧
    (∀ node, Reachable (finalSuccessor g b) g.cfg node ↔ node ∈ b.translated) ∧
    (numbering (finalSuccessor g b) g.cfg).length = b.node2BB.card := by
  intro b
  obtain ⟨hinv,hempty,hfollowed⟩ := genTrace_inv g
  have hreachable : ∀ node, Reachable (finalSuccessor g b) g.cfg node ↔ node ∈ b.node2BB := by
    refine fun node => ⟨fun hpath => ?_,fun hnode => ?_⟩
    · induction hpath with
      | refl => exact hinv.entry
      | tail _ hedge ih =>
        rw [finalSuccessor,if_pos ⟨mem_depth_of_linked (hinv.known _ ih),ih⟩,nil_append] at hedge
        obtain ⟨link,hlink,rfl⟩ := mem_map.mp hedge
        exact hinv.links link (mem_filter.mp hlink).1
    · refine Relation.ReflTransGen.mono (fun x y hlink => mem_append_right _ ?_) _ _
        (hinv.reached node hnode)
      exact mem_map.mpr ⟨(x,y),mem_filter.mpr ⟨hlink,by simp⟩,rfl⟩
  refine ⟨hempty,nodup_translated g,fun node => mem_translated,hfollowed,
    fun node hnode => (marked_genTrace g node).mp (hinv.branches node hnode),
    fun node => (hreachable node).trans (marked_genTrace g node),?_⟩
  rw [← toFinset_card_of_nodup (nodup_numbering _ _)]
  congr 1
  ext node
  rw [mem_toFinset,mem_numbering,hreachable]

def unreached : Region Bool Bool := ⟨false,id,fun _ => [true],fun _ => []⟩

/-- A node of the region that no branch leads to is not translated. -/
theorem unreached_dropped : true ∈ unreached.depth ∧ (genTrace unreached).translated = [false] := by
  decide

end Hqemu.Llvm.TraceBuilder
