import Hqemu.Lib.Chain
import Mathlib.Data.Finset.Card

/-! Families of linked lists over one set of link cells. No node is in two lists, so a change to one
leaves the others. -/
namespace Hqemu.Lib.Chain

open Function List

variable {Loc Ptr Index : Type}

/-- The lists of the heads in `dom`: `lists i` is what a walk from `head i` passes
until it reads `stop i`. -/
structure Lists (links : Loc → Option Ptr) (cell : Ptr → Loc) (head : Index → Loc)
    (stop : Index → Option Ptr) (dom : Set Index) (lists : Index → List Ptr) : Prop where
  seg : ∀ i ∈ dom, Seg links cell (head i) (lists i) (stop i)
  nodup : ∀ i ∈ dom, (lists i).Nodup
  disjoint : ∀ i ∈ dom, ∀ j ∈ dom, ∀ node, node ∈ lists i → node ∈ lists j → i = j
  apart : ∀ i ∈ dom, ∀ node ∈ lists i, ∀ j ∈ dom, cell node ≠ head j

variable {links changed : Loc → Option Ptr} {cell : Ptr → Loc} {head : Index → Loc}
  {stop : Index → Option Ptr} {dom : Set Index} {lists : Index → List Ptr}

theorem Lists.congr (h : Lists links cell head stop dom lists)
    (hhead : ∀ i ∈ dom, changed (head i) = links (head i))
    (hcell : ∀ i ∈ dom, ∀ node ∈ lists i, changed (cell node) = links (cell node)) :
    Lists changed cell head stop dom lists where
  seg i hi := (h.seg i hi).congr (hhead i hi) (hcell i hi)
  nodup := h.nodup
  disjoint := h.disjoint
  apart := h.apart

theorem Lists.mono {part : Set Index} (h : Lists links cell head stop dom lists)
    (hpart : part ⊆ dom) : Lists links cell head stop part lists where
  seg i hi := h.seg i (hpart hi)
  nodup i hi := h.nodup i (hpart hi)
  disjoint i hi j hj := h.disjoint i (hpart hi) j (hpart hj)
  apart i hi node hnode j hj := h.apart i (hpart hi) node hnode j (hpart hj)

variable {start : Loc} {nodes : List Ptr} {last : Option Ptr}

theorem seg_start (hseg : Seg links cell start nodes last) (hlast : last ≠ none) :
    links start ≠ none := by
  cases nodes with
  | nil =>
    rw [hseg]
    exact hlast
  | cons first rest => simp [hseg.1]

variable {node : Ptr}

theorem seg_cell (hseg : Seg links cell start nodes last) (hlast : last ≠ none)
    (hnode : node ∈ nodes) : links (cell node) ≠ none := by
  induction nodes generalizing start with
  | nil => simp at hnode
  | cons first rest ih =>
    rcases mem_cons.mp hnode with rfl | hrest
    · exact seg_start hseg.2 hlast
    · exact ih hseg.2 hrest

theorem length_le_card [DecidableEq Ptr] (hnodup : nodes.Nodup) (space : Finset Ptr)
    (hmem : ∀ node ∈ nodes, node ∈ space) : nodes.length ≤ space.card := by
  rw [← toFinset_card_of_nodup hnodup]
  apply Finset.card_le_card
  intro node hnode
  exact hmem node (mem_toFinset.mp hnode)

variable {front back : List Ptr}

theorem seg_endCell (hseg : Seg links cell start (front ++ node :: back) last) :
    links (endCell cell start front) = some node :=
  ((seg_append start front (node :: back) last).mp hseg).2.1

theorem seg_last (hseg : Seg links cell start nodes last) :
    links (endCell cell start nodes) = last := by
  induction nodes generalizing start with
  | nil => exact hseg
  | cons first rest ih => exact ih hseg.2

theorem seg_rotate {ring : Loc → Option Loc} {node : Loc} {front back : List Loc}
    (hseg : Seg ring id start (front ++ node :: back) (some start)) :
    Seg ring id node (back ++ start :: (front ++ [node])) (ring node) := by
  rw [seg_append,seg_cons] at hseg
  have hback : Seg ring id node back (some start) := hseg.2.2
  have hfront : Seg ring id start (front ++ [node]) (ring node) :=
    (seg_append start front [node] _).mpr ⟨hseg.1,hseg.2.1,rfl⟩
  rw [seg_append,seg_last hback]
  exact ⟨hback,seg_last hback,hfront⟩

theorem mem_without (hnodup : (front ++ node :: back).Nodup) (other : Ptr) :
    other ∈ front ++ back ↔ other ≠ node ∧ other ∈ front ++ node :: back := by
  have hnode : node ∉ front ++ back := by
    have hmid := nodup_middle.mp hnodup
    exact (nodup_cons.mp hmid).1
  constructor
  · intro hother
    refine ⟨fun heq => hnode (heq ▸ hother),?_⟩
    rcases mem_append.mp hother with hfront | hback
    · exact mem_append_left _ hfront
    · exact mem_append_right _ (mem_cons_of_mem _ hback)
  · rintro ⟨hne,hother⟩
    rcases mem_append.mp hother with hfront | hback
    · exact mem_append_left _ hfront
    · exact mem_append_right _ ((mem_cons.mp hback).resolve_left hne)

variable {i : Index}

variable [DecidableEq Index]
variable [DecidableEq Loc]

section

variable (h : Lists links cell head stop dom lists)
include h

theorem Lists.find (hit : Ptr → Bool) (hi : i ∈ dom) {limit : Nat} (hnode : node ∈ lists i)
    (hhit : ∀ other ∈ lists i, hit other = true ↔ other = node) (hlim : (lists i).length ≤ limit) :
    ∃ front back, lists i = front ++ node :: back ∧
      findLink links cell hit limit (head i) = some (endCell cell (head i) front) := by
  obtain ⟨front,back,hsplit⟩ := append_of_mem hnode
  have hseg := h.seg i hi
  have hnodup := h.nodup i hi
  rw [hsplit] at hseg hnodup hlim hhit
  refine ⟨front,back,hsplit,findLink_of_seg hseg (fun other hother => ?_) ?_ ?_⟩
  · have hne : other ≠ node := ((mem_without hnodup other).mp (mem_append_left _ hother)).1
    rw [Bool.eq_false_iff]
    intro htrue
    exact hne ((hhit other (mem_append_left _ hother)).mp htrue)
  · exact (hhit node (by simp)).mpr rfl
  · simp only [length_append,length_cons] at hlim
    omega

theorem Lists.insert_nil (hhead : links (head i) = stop i)
    (hcell : ∀ j ∈ dom, ∀ node ∈ lists j, cell node ≠ head i) :
    Lists links cell head stop (insert i dom) (update lists i []) := by
  have hold : ∀ j node, node ∈ update lists i [] j → j ≠ i ∧ node ∈ lists j := by
    intro j node hnode
    by_cases hj : j = i
    · subst hj
      simp at hnode
    · rw [update_of_ne hj] at hnode
      exact ⟨hj,hnode⟩
  have hdom : ∀ j ∈ insert i dom, j ≠ i → j ∈ dom := fun j hj hne =>
    (Set.mem_insert_iff.mp hj).resolve_left hne
  refine ⟨fun j hj => ?_,fun j hj => ?_,fun j hj k hk node hnodej hnodek => ?_,
    fun j hj node hnode k hk => ?_⟩
  · by_cases hji : j = i
    · subst hji
      rw [update_self]
      exact hhead
    · rw [update_of_ne hji]
      exact h.seg j (hdom j hj hji)
  · by_cases hji : j = i
    · subst hji
      simp
    · rw [update_of_ne hji]
      exact h.nodup j (hdom j hj hji)
  · have hmemj := hold j node hnodej
    have hmemk := hold k node hnodek
    exact h.disjoint j (hdom j hj hmemj.1) k (hdom k hk hmemk.1) node hmemj.2 hmemk.2
  · have hmem := hold j node hnode
    have hj' := hdom j hj hmem.1
    rcases Set.mem_insert_iff.mp hk with rfl | hk
    · exact hcell j hj' node hmem.2
    · exact h.apart j hj' node hmem.2 k hk

omit h [DecidableEq Loc] in
theorem mem_push (j : Index) (other : Ptr) :
    other ∈ update lists i (node :: lists i) j ↔ other = node ∧ j = i ∨ other ∈ lists j := by
  by_cases hj : j = i
  · subst hj
    simp
  · simp [hj]

omit [DecidableEq Loc] in
theorem Lists.mem_remove {j : Index} (hi : i ∈ dom) (hj : j ∈ dom)
    (hsplit : lists i = front ++ node :: back) (other : Ptr) :
    other ∈ update lists i (front ++ back) j ↔ other ≠ node ∧ other ∈ lists j := by
  by_cases heq : j = i
  · subst heq
    have hnodup := h.nodup j hj
    rw [hsplit] at hnodup
    rw [update_self,mem_without hnodup,hsplit]
  · rw [update_of_ne heq]
    refine ⟨fun hother => ⟨?_,hother⟩,And.right⟩
    rintro rfl
    exact heq (h.disjoint j hj i hi _ hother (by simp [hsplit]))

theorem Lists.push (hcell : Function.Injective cell) (hhead : Function.Injective head)
    (hi : i ∈ dom) (hnew : ∀ j ∈ dom, node ∉ lists j) (hnode : ∀ j ∈ dom, cell node ≠ head j) :
    Lists (update (update links (cell node) (links (head i)))
        (head i) (some node)) cell head stop dom
      (update lists i (node :: lists i)) := by
  have hother : ∀ j ∈ dom, ∀ other ∈ lists j, cell other ≠ cell node := by
    intro j hj other hmem heq
    rw [hcell heq] at hmem
    exact hnew j hj hmem
  refine ⟨fun j hj => ?_,fun j hj => ?_,fun j hj k hk other hotherj hotherk => ?_,
    fun j hj other hotherj k hk => ?_⟩
  · by_cases hji : j = i
    · subst hji
      rw [update_self]
      apply (h.seg j hj).push (hnode j hj)
      intro other hmem
      exact ⟨hother j hj other hmem,h.apart j hj other hmem j hj⟩
    · rw [update_of_ne hji]
      apply Seg.update
      · apply (h.seg j hj).update (hnode j hj).symm
        exact hother j hj
      · exact fun heq => hji (hhead heq)
      · intro other hmem
        exact h.apart j hj other hmem i hi
  · by_cases hji : j = i
    · subst hji
      rw [update_self]
      exact nodup_cons.mpr ⟨hnew j hj,h.nodup j hj⟩
    · rw [update_of_ne hji]
      exact h.nodup j hj
  · rcases (mem_push j other).mp hotherj with ⟨rfl,rfl⟩ | holdj
    · rcases (mem_push k other).mp hotherk with ⟨-,rfl⟩ | holdk
      · rfl
      · exact absurd holdk (hnew k hk)
    · rcases (mem_push k other).mp hotherk with ⟨rfl,rfl⟩ | holdk
      · exact absurd holdj (hnew j hj)
      · exact h.disjoint j hj k hk other holdj holdk
  · rcases (mem_push j other).mp hotherj with ⟨rfl,-⟩ | hold
    · exact hnode k hk
    · exact h.apart j hj other hold k hk

theorem Lists.remove (hcell : Function.Injective cell)
    (hhead : Function.Injective head) (hi : i ∈ dom) (hsplit : lists i = front ++ node :: back) :
    Lists (update links (endCell cell (head i) front) (links (cell node)))
      cell head stop dom (update lists i (front ++ back)) := by
  have hmem : ∀ j ∈ dom, ∀ other ∈ update lists i (front ++ back) j, other ∈ lists j :=
    fun j hj other hother => ((h.mem_remove hi hj hsplit other).mp hother).2
  have hfront : ∀ other ∈ front, other ∈ lists i := by
    intro other hother
    rw [hsplit]
    exact mem_append_left _ hother
  refine ⟨fun j hj => ?_,fun j hj => ?_,fun j hj k hk other hotherj hotherk => ?_,
    fun j hj other hotherj k hk => ?_⟩
  · by_cases hji : j = i
    · subst hji
      rw [update_self]
      apply Seg.unlink
      · rw [← hsplit]
        exact h.seg j hj
      · rw [← hsplit,nodup_cons]
        refine ⟨fun hmem => ?_,(h.nodup j hj).map hcell⟩
        obtain ⟨other,hother,heq⟩ := mem_map.mp hmem
        exact h.apart j hj other hother j hj heq
    · rw [update_of_ne hji]
      rcases endCell_eq cell (head i) front with hend | ⟨first,hfirst,hend⟩
      · rw [hend]
        apply (h.seg j hj).update
        · exact fun heq => hji (hhead heq)
        · intro other hother
          exact h.apart j hj other hother i hi
      · rw [hend]
        apply (h.seg j hj).update
        · exact (h.apart i hi first (hfront first hfirst) j hj).symm
        · intro other hother heq
          rw [hcell heq] at hother
          exact hji (h.disjoint j hj i hi first hother (hfront first hfirst))
  · by_cases hji : j = i
    · subst hji
      rw [update_self]
      exact (h.nodup j hj).sublist (hsplit ▸ (sublist_cons_self node back).append_left front)
    · rw [update_of_ne hji]
      exact h.nodup j hj
  · exact h.disjoint j hj k hk other (hmem j hj other hotherj) (hmem k hk other hotherk)
  · exact h.apart j hj other (hmem j hj other hotherj) k hk

end

end Hqemu.Lib.Chain
