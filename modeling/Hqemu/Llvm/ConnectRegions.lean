import Hqemu.Llvm.LoopHeader

/-! `TryConnectRegions` of `llvm-dbo.cpp`: the heads from which linked regions are merged. -/
namespace Hqemu.Llvm.ConnectRegions

open Lib.Traverse (Reachable numbering mem_numbering)
open List LoopHeader

structure CodeInfo where
  state : Nat
  guestPC : Nat
  link : List Nat

def codeSucc {n : Nat} (regions : Fin n → CodeInfo) (pred : Fin n) : List (Fin n) :=
  if (regions pred).state ≠ 0 then []
  else (finRange n).filter fun succ =>
    pred ≠ succ ∧ (regions succ).state = 0 ∧ (regions succ).guestPC ∈ (regions pred).link

variable {Code : Type} {succ : Code → List Code} {code x : Code}

theorem reachable_of_isChain {between : List Code}
    (h : (code :: (between ++ [x])).IsChain fun code next => next ∈ succ code) :
    Reachable succ code x := by
  induction between generalizing code with
  | nil => exact .single (isChain_cons_cons.mp h).1
  | cons next between ih =>
    obtain ⟨hedge,hrest⟩ := isChain_cons_cons.mp h
    exact .head hedge (ih hrest)

theorem reachable_of_cycle {cycle : List Code} (h : IsCycle succ cycle) (hcode : code ∈ cycle)
    (hx : x ∈ cycle) : Reachable succ code x := by
  obtain ⟨first,rest,rfl,hchain⟩ := h
  have hto : Reachable succ code first := by
    obtain ⟨front,back,hsplit⟩ := append_of_mem hcode
    rw [hsplit,append_assoc,cons_append] at hchain
    exact reachable_of_isChain (isChain_append.mp hchain).2.1
  obtain rfl | hrest := mem_cons.mp hx
  · exact hto
  obtain ⟨front,back,rfl⟩ := append_of_mem hrest
  have hway := hchain.left_of_append
  rw [append_cons,← cons_append] at hway
  exact hto.trans (reachable_of_isChain hway.left_of_append)

variable [DecidableEq Code] [Fintype Code]

def findLinkedNodes (succ : Code → List Code) (code : Code) : Finset Code :=
  (numbering (fun code => (succ code).reverse) code).toFinset

def loopHeaders (succ : Code → List Code) : List Code → Finset Code → Finset Code
  | [], mergedHead => mergedHead
  | code :: regions, mergedHead => loopHeaders succ regions (findLoopHeader succ code mergedHead)

def removeDominated (succ : Code → List Code) : List Code → Finset Code → Finset Code
  | [], mergedHead => mergedHead
  | code :: regions, mergedHead => removeDominated succ regions
    (if code ∈ mergedHead then mergedHead \ (findLinkedNodes succ code).erase code else mergedHead)

def mergedHead {n : Nat} (regions : Fin n → CodeInfo) : Finset (Fin n) :=
  let succ := codeSucc regions
  (removeDominated succ (finRange n) (loopHeaders succ (finRange n) ∅)).filter (succ · ≠ [])

theorem mem_findLinkedNodes : x ∈ findLinkedNodes succ code ↔ Reachable succ code x := by
  simp [findLinkedNodes,mem_numbering,Reachable]

theorem removeDominated_spec (succ : Code → List Code) (regions : List Code) (heads : Finset Code) :
    let kept := removeDominated succ regions heads
    kept ⊆ heads ∧ (∀ header ∈ heads, ∃ head ∈ kept, Reachable succ head header) ∧
    ∀ head ∈ kept, head ∈ regions → ∀ other ∈ kept, other ≠ head → ¬Reachable succ head other := by
  induction regions generalizing heads with
  | nil => exact ⟨subset_rfl,fun header h => ⟨header,h,.refl⟩,nofun⟩
  | cons code regions ih =>
    rw [removeDominated]
    split
    · rename_i hcode
      obtain ⟨hsub,hcover,hapart⟩ := ih (heads \ (findLinkedNodes succ code).erase code)
      refine ⟨hsub.trans Finset.sdiff_subset,fun header hheader => ?_,
        fun head hhead hmem other hother hne => ?_⟩
      · by_cases hlink : Reachable succ code header
        · obtain ⟨head,hhead,hreach⟩ := hcover code (by simp [hcode])
          exact ⟨head,hhead,hreach.trans hlink⟩
        · exact hcover header (by simp [hheader,mem_findLinkedNodes,hlink])
      · obtain rfl | hmem := mem_cons.mp hmem
        · simpa [hne,mem_findLinkedNodes] using (Finset.mem_sdiff.mp (hsub hother)).2
        · exact hapart head hhead hmem other hother hne
    · rename_i hcode
      obtain ⟨hsub,hcover,hapart⟩ := ih heads
      refine ⟨hsub,hcover,fun head hhead hmem => ?_⟩
      obtain rfl | hmem := mem_cons.mp hmem
      · exact absurd (hsub hhead) hcode
      · exact hapart head hhead hmem

theorem loopHeaders_spec (succ : Code → List Code) (regions : List Code) (base : Finset Code) :
    let found := loopHeaders succ regions base
    base ⊆ found ∧ (∀ x ∈ found, x ∈ base ∨ ∃ cycle, IsCycle succ cycle ∧ x ∈ cycle) ∧
    ∀ cycle, IsCycle succ cycle → ∀ x ∈ cycle, x ∈ regions → ∃ header ∈ cycle, header ∈ found := by
  induction regions generalizing base with
  | nil => exact ⟨subset_rfl,fun x => .inl,by simp⟩
  | cons code regions ih =>
    obtain ⟨hsub,hon,hfind⟩ := ih (findLoopHeader succ code base)
    refine ⟨subset_findLoopHeader.trans hsub,fun x hx => ?_,fun cycle hcycle x hx hmem => ?_⟩
    · obtain hfirst | hlater := hon x hx
      · exact (mem_findLoopHeader hfirst).imp_right And.right
      · exact .inr hlater
    · obtain rfl | hmem := mem_cons.mp hmem
      · obtain ⟨header,hheader,hfound⟩ := findLoopHeader_of_cycle base hcycle ⟨x,hx,.refl⟩
        exact ⟨header,hheader,hsub hfound⟩
      · exact hfind cycle hcycle x hx hmem

/-- No kept head leads to another, and a loop is merged with at least one of them. -/
theorem mergedHead_covers {n : Nat} (regions : Fin n → CodeInfo) :
    let succ := codeSucc regions
    (∀ head ∈ mergedHead regions, ∀ other ∈ mergedHead regions, other ≠ head →
      ¬Reachable succ head other) ∧
    (∀ header ∈ loopHeaders succ (finRange n) ∅, ∃ head ∈ mergedHead regions,
      Reachable succ head header) ∧
    (∀ cycle, IsCycle succ cycle → ∃ head ∈ mergedHead regions, ∀ code ∈ cycle,
      Reachable succ head code) ∧
    ∀ cycle, IsCycle succ cycle → ∀ head, ∀ code ∈ cycle, Reachable succ head code →
      ∀ other ∈ cycle, Reachable succ head other := by
  intro succ
  obtain ⟨-,hon,hfind⟩ := loopHeaders_spec succ (finRange n) ∅
  obtain ⟨hsub,hcover,hapart⟩ :=
    removeDominated_spec succ (finRange n) (loopHeaders succ (finRange n) ∅)
  have hall : mergedHead regions =
      removeDominated succ (finRange n) (loopHeaders succ (finRange n) ∅) := by
    refine Finset.filter_true_of_mem fun head hhead => ?_
    obtain ⟨cycle,hcycle,hmem⟩ := (hon head (hsub hhead)).resolve_left (Finset.notMem_empty _)
    obtain ⟨next,-,hnext⟩ := hcycle.next hmem
    exact ne_nil_of_mem hnext
  rw [hall]
  refine ⟨fun head hhead => hapart head hhead (mem_finRange head),hcover,fun cycle hcycle => ?_,
    fun cycle hcycle head code hcode hreach other hother =>
      hreach.trans (reachable_of_cycle hcycle hcode hother)⟩
  have ⟨first,rest,hfirst,_⟩ := hcycle
  obtain ⟨header,hheader,hfound⟩ := hfind cycle hcycle first (hfirst ▸ mem_cons_self) (mem_finRange
      first)
  obtain ⟨head,hhead,hreach⟩ := hcover header hfound
  exact ⟨head,hhead,fun code hcode => hreach.trans (reachable_of_cycle hcycle hheader hcode)⟩

def sharedLoop (code : Fin 6) : CodeInfo :=
  ⟨0,code,[[1,4],[0],[3,4],[2],[5],[4]].getD code []⟩

theorem loop_merged_twice :
    mergedHead sharedLoop = {0, 2} ∧ IsCycle (codeSucc sharedLoop) [4, 5] ∧
      Reachable (codeSucc sharedLoop) 0 4 ∧ Reachable (codeSucc sharedLoop) 2 4 := by
  refine ⟨by decide +kernel,⟨4,[5],rfl,?_⟩,.single (by decide +kernel),.single (by decide +kernel)⟩
  decide +kernel

end Hqemu.Llvm.ConnectRegions
