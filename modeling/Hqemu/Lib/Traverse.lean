import Mathlib.Algebra.BigOperators.Group.Finset.Basic
import Mathlib.Data.Fintype.Basic

/-! Numbering the nodes of a finite graph with a stack. The first pop of a node gives it its number.
-/
namespace Hqemu.Lib.Traverse

open List

variable {Node : Type}

/-- The numbered nodes in order, after at most `fuel` pops. The stack is a list with its top first,
and successors are pushed from the first on. -/
def visit [DecidableEq Node] (succ : Node → List Node) : Nat → List Node → List Node → List Node
  | 0, _, order => order
  | _+1, [], order => order
  | fuel+1, node :: stack, order =>
    if node ∈ order then visit succ fuel stack order
    else visit succ fuel ((succ node).reverse ++ stack) (order ++ [node])

def Reachable (succ : Node → List Node) : Node → Node → Prop :=
  Relation.ReflTransGen fun node next => next ∈ succ node

theorem Reachable.congr {succ other : Node → List Node} {root node : Node}
    (hsame : ∀ node, Reachable succ root node → other node = succ node)
    (hreach : Reachable succ root node) : Reachable other root node := by
  induction hreach with
  | refl => exact .refl
  | tail hprefix hs ih => exact ih.tail ((hsame _ hprefix).symm ▸ hs)

structure Inv (succ : Node → List Node) (root : Node) (stack order : List Node) : Prop where
  nodup : order.Nodup
  reached : ∀ node, node ∈ order ∨ node ∈ stack → Reachable succ root node
  closed : ∀ node ∈ order, ∀ next ∈ succ node, next ∈ order ∨ next ∈ stack
  first : (order ++ stack).head? = some root

variable {succ : Node → List Node} {root : Node}

theorem inv_start : Inv succ root [root] [] where
  nodup := nodup_nil
  reached node hnode := by
    have hroot : node = root := by simpa using hnode
    rw [hroot]
    exact .refl
  closed node hnode := nomatch hnode
  first := rfl

theorem Inv.drop {node : Node} {stack order : List Node}
    (hinv : Inv succ root (node :: stack) order)
    (hold : node ∈ order) : Inv succ root stack order where
  nodup := hinv.nodup
  reached other hother := hinv.reached other (hother.imp_right (mem_cons_of_mem node))
  closed other hother next hnext := by
    rcases hinv.closed other hother next hnext with hnumbered | hstack
    · exact .inl hnumbered
    rcases mem_cons.mp hstack with rfl | hbelow
    · exact .inl hold
    · exact .inr hbelow
  first := by
    have hfirst := hinv.first
    cases order with
    | nil => exact nomatch hold
    | cons => exact hfirst

theorem Inv.number {node : Node} {stack order : List Node}
    (hinv : Inv succ root (node :: stack) order) (hnew : node ∉ order) :
    Inv succ root ((succ node).reverse ++ stack) (order ++ [node]) where
  nodup := by
    rw [nodup_append]
    exact ⟨hinv.nodup,nodup_singleton node,fun other hother last hlast heq =>
      hnew (mem_singleton.mp hlast ▸ heq ▸ hother)⟩
  reached other hother := by
    have hnode := hinv.reached node (.inr mem_cons_self)
    simp only [mem_append,mem_singleton,mem_reverse] at hother
    rcases hother with (hold | rfl) | hsucc | hstack
    · exact hinv.reached other (.inl hold)
    · exact hnode
    · exact hnode.tail hsucc
    · exact hinv.reached other (.inr (mem_cons_of_mem node hstack))
  closed other hother next hnext := by
    simp only [mem_append,mem_singleton,mem_reverse] at hother ⊢
    rcases hother with hold | rfl
    · rcases hinv.closed other hold next hnext with hnumbered | hstack
      · exact .inl (.inl hnumbered)
      · rcases mem_cons.mp hstack with rfl | hbelow
        · exact .inl (.inr rfl)
        · exact .inr (.inr hbelow)
    · exact .inr (.inl hnext)
  first := by
    have hfirst := hinv.first
    cases order with
    | nil => exact hfirst
    | cons => exact hfirst

section Fuel

variable [DecidableEq Node] [Fintype Node]

def work (succ : Node → List Node) (stack order : List Node) : Nat :=
  stack.length + ∑ node ∈ Finset.univ.filter (· ∉ order), (succ node).length

theorem work_drop (node : Node) (stack order : List Node) :
    work succ (node :: stack) order = work succ stack order + 1 := by
  simp only [work,length_cons]
  omega

theorem work_number {node : Node} {order : List Node} (hnew : node ∉ order) (stack : List Node) :
    work succ (node :: stack) order =
      work succ ((succ node).reverse ++ stack) (order ++ [node]) + 1 := by
  have hsplit : Finset.univ.filter (· ∉ order) =
      insert node (Finset.univ.filter (· ∉ order ++ [node])) := by
    ext other
    by_cases hother : other = node
    · simp [hother,hnew]
    · simp [hother]
  simp only [work,length_cons,length_append,length_reverse]
  rw [hsplit,Finset.sum_insert (by simp)]
  omega

theorem visit_inv {fuel : Nat} {stack order : List Node} (hinv : Inv succ root stack order)
    (hfuel : work succ stack order ≤ fuel) : Inv succ root [] (visit succ fuel stack order) := by
  induction fuel generalizing stack order with
  | zero =>
    have hstack : stack = [] := eq_nil_of_length_eq_zero (by unfold work at hfuel; omega)
    subst hstack
    exact hinv
  | succ fuel ih =>
    cases stack with
    | nil => exact hinv
    | cons node stack =>
      unfold visit
      split
      · next hold =>
        apply ih (hinv.drop hold)
        rw [work_drop] at hfuel
        omega
      · next hnew =>
        apply ih (hinv.number hnew)
        rw [work_number hnew] at hfuel
        omega

def pops (succ : Node → List Node) : Nat := 1 + ∑ node, (succ node).length

def numbering (succ : Node → List Node) (root : Node) : List Node :=
  visit succ (pops succ) [root] []

theorem numbering_inv (succ : Node → List Node) (root : Node) :
    Inv succ root [] (numbering succ root) :=
  visit_inv inv_start (by simp [work,pops])

theorem nodup_numbering (succ : Node → List Node) (root : Node) :
    (numbering succ root).Nodup := (numbering_inv succ root).nodup

theorem mem_numbering {node : Node} : node ∈ numbering succ root ↔ Reachable succ root node := by
  have hinv := numbering_inv succ root
  have hroot : root ∈ numbering succ root := by
    have hfirst := hinv.first
    rw [append_nil] at hfirst
    exact mem_of_mem_head? hfirst
  constructor
  · intro hnode
    exact hinv.reached node (.inl hnode)
  · intro hreach
    induction hreach with
    | refl => exact hroot
    | tail _ hs ih =>
      rcases hinv.closed _ ih _ hs with hnumbered | hstack
      · exact hnumbered
      · exact nomatch hstack

theorem head_numbering (succ : Node → List Node) (root : Node) :
    (numbering succ root)[0]? = some root := by
  have hfirst := (numbering_inv succ root).first
  rwa [append_nil,List.head?_eq_getElem?] at hfirst

end Fuel

end Hqemu.Lib.Traverse
