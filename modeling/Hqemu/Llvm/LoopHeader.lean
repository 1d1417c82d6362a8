import Hqemu.Lib.Traverse
import Mathlib.Data.Fintype.Card
import Mathlib.Data.List.TakeWhile

/-! `FindLoopHeader` of `llvm-cfg.cpp`: a successor on the way down closes a loop. -/
namespace Hqemu.Llvm.LoopHeader

open List

open Lib.Traverse (Reachable)

variable {Code : Type}

structure Search (Code : Type) where
  visited : Finset Code
  visitStack : List Code
  result : Finset Code

def Search.noted [DecidableEq Code] (succ : Code → List Code) (s : Search Code) (parent : Code) :
    Finset Code :=
  s.result ∪ (((succ parent).takeWhile (· ∈ s.visited)).filter (· ∈ s.visitStack)).toFinset

def Search.step [DecidableEq Code] (succ : Code → List Code) (s : Search Code) : Search Code :=
  match s.visitStack with
  | [] => s
  | parent :: below =>
    match (succ parent).find? (· ∉ s.visited) with
    | some child => ⟨insert child s.visited,child :: parent :: below,s.noted succ parent⟩
    | none => ⟨s.visited,below,s.noted succ parent⟩

def Search.start (code : Code) (result : Finset Code) : Search Code :=
  ⟨{code},[code],result⟩

def search [DecidableEq Code] [Fintype Code] (succ : Code → List Code) (code : Code)
    (result : Finset Code) : Search Code :=
  (Search.step succ)^[2*Fintype.card Code] (Search.start code result)

def findLoopHeader [DecidableEq Code] [Fintype Code] (succ : Code → List Code) (code : Code)
    (result : Finset Code) : Finset Code :=
  (search succ code result).result

def IsCycle (succ : Code → List Code) (cycle : List Code) : Prop :=
  ∃ first rest, cycle = first :: rest ∧
    (cycle ++ [first]).IsChain fun code next => next ∈ succ code

variable {succ : Code → List Code} {s : Search Code} {code parent : Code} {below cycle : List Code}

theorem IsCycle.next (h : IsCycle succ cycle) (hcode : code ∈ cycle) :
    ∃ next ∈ cycle, next ∈ succ code := by
  obtain ⟨first,rest,rfl,hchain⟩ := h
  obtain ⟨front,back,hsplit⟩ := append_of_mem hcode
  rw [hsplit,append_assoc,cons_append] at hchain
  have hlast := (isChain_append.mp hchain).2.1
  cases back with
  | nil => exact ⟨first,mem_cons_self,(isChain_cons_cons.mp hlast).1⟩
  | cons next back =>
    refine ⟨next,?_,(isChain_cons_cons.mp hlast).1⟩
    rw [hsplit]
    exact mem_append_right _ (mem_cons_of_mem _ mem_cons_self)

/-- The regions that are left for good, the last one first: a successor was left earlier, or it
is a header. -/
def Finished (succ : Code → List Code) (visited result : Finset Code) : List Code → Prop
  | [] => True
  | code :: earlier =>
    (∀ next ∈ succ code, next ∈ visited ∧ (next ∈ earlier ∨ next ∈ result)) ∧
      Finished succ visited result earlier

variable {visited result : Finset Code} {done : List Code}

theorem Finished.mono {visited' result' : Finset Code} (hvisited : visited ⊆ visited')
    (hret : result ⊆ result') (h : Finished succ visited result done) :
    Finished succ visited' result' done := by
  induction done with
  | nil => trivial
  | cons code earlier ih =>
    exact ⟨fun next hnext => (h.1 next hnext).imp (@hvisited next) (Or.imp_right (@hret next)),ih
        h.2⟩

theorem Finished.header (h : Finished succ visited result done) (hcycle : IsCycle succ cycle)
    (hcode : code ∈ cycle) (hdone : code ∈ done) : ∃ header ∈ cycle, header ∈ result := by
  induction done generalizing code with
  | nil => cases hdone
  | cons last earlier ih =>
    obtain rfl | hear := mem_cons.mp hdone
    · obtain ⟨next,hnext,hsucc⟩ := hcycle.next hcode
      obtain hear | hheader := (h.1 next hsucc).2
      · exact ih h.2 hnext hear
      · exact ⟨next,hnext,hheader⟩
    · exact ih h.2 hcode hear

theorem Finished.closed (h : Finished succ visited result done) (hcode : code ∈ done) :
    ∀ next ∈ succ code, next ∈ visited := by
  induction done with
  | nil => cases hcode
  | cons last earlier ih =>
    obtain rfl | hear := mem_cons.mp hcode
    · exact fun next hnext => (h.1 next hnext).1
    · exact ih h.2 hear

theorem cycle_of_stack {x : Code} (hchain : (parent :: below).IsChain fun later earlier =>
      later ∈ succ earlier) (hx : x ∈ parent :: below) (hsucc : x ∈ succ parent) :
    ∃ cycle, IsCycle succ cycle ∧ x ∈ cycle := by
  obtain ⟨front,back,hsplit⟩ := append_of_mem hx
  refine ⟨x :: front.reverse,⟨x,front.reverse,rfl,?_⟩,mem_cons_self⟩
  have hway : (x :: front.reverse) ++ [x] = (x :: (front ++ [x])).reverse := by simp
  rw [hway,isChain_reverse,isChain_cons]
  rw [hsplit,append_cons] at hchain
  refine ⟨fun last hlast => ?_,hchain.left_of_append⟩
  cases front with
  | nil | cons top front =>
    cases hsplit
    cases hlast
    exact hsucc

variable [DecidableEq Code] {base : Finset Code}

theorem mem_noted (hstack : s.visitStack = parent :: below) (h : code ∈ s.noted succ parent) :
    code ∈ s.result ∨ code ∈ succ parent ∧ code ∈ parent :: below := by
  rw [Search.noted,Finset.mem_union,List.mem_toFinset,mem_filter,decide_eq_true_eq,hstack] at h
  exact h.imp_right (And.imp_left fun hpassed => (takeWhile_sublist _).subset hpassed)

theorem step_cases (succ : Code → List Code) (hstack : s.visitStack = parent :: below) :
    (∃ child ∈ succ parent, child ∉ s.visited ∧ s.step succ =
      ⟨insert child s.visited,child :: parent :: below,s.noted succ parent⟩) ∨
    (∀ child ∈ succ parent, child ∈ s.visited ∧
      (child ∈ parent :: below → child ∈ s.noted succ parent)) ∧
      s.step succ = ⟨s.visited,below,s.noted succ parent⟩ := by
  cases hfind : (succ parent).find? (· ∉ s.visited) with
  | some child =>
    have hnew : child ∉ s.visited := by simpa using List.find?_some hfind
    exact .inl ⟨child,mem_of_find?_eq_some hfind,hnew,by simp only [Search.step,hstack,hfind]⟩
  | none =>
    have hall : ∀ child ∈ succ parent, child ∈ s.visited := by
      simpa using List.find?_eq_none.mp hfind
    have hpassed : (succ parent).takeWhile (· ∈ s.visited) = succ parent :=
      takeWhile_eq_self_iff.mpr fun child hchild => decide_eq_true (hall child hchild)
    refine .inr ⟨fun child hchild => ⟨hall child hchild,fun hin => ?_⟩,
      by simp only [Search.step,hstack,hfind]⟩
    rw [Search.noted,hpassed,hstack]
    exact Finset.mem_union_right _ (by simpa [hchild] using hin)

structure Inv (succ : Code → List Code) (code : Code) (base : Finset Code) (s : Search Code) :
    Prop where
  seen : ∀ x ∈ s.visitStack, x ∈ s.visited
  chain : s.visitStack.IsChain fun later earlier => later ∈ succ earlier
  start : code ∈ s.visited
  reached : ∀ x ∈ s.visited, Reachable succ code x
  kept : base ⊆ s.result
  headers : ∀ x ∈ s.result, x ∈ base ∨
    Reachable succ code x ∧ ∃ cycle, IsCycle succ cycle ∧ x ∈ cycle
  finished : ∃ done, (∀ x ∈ s.visited, x ∈ s.visitStack ∨ x ∈ done) ∧
    Finished succ s.visited s.result done

theorem inv_start (succ : Code → List Code) (code : Code) (base : Finset Code) :
    Inv succ code base (Search.start code base) where
  seen x hx := by simpa [Search.start] using hx
  chain := isChain_singleton _
  start := Finset.mem_singleton_self _
  reached x hx := by
    rw [Finset.mem_singleton.mp hx]
    exact .refl
  kept := subset_rfl
  headers x hx := .inl hx
  finished := ⟨[],fun x hx => .inl (by simpa [Search.start] using hx),trivial⟩

theorem Inv.step (h : Inv succ code base s) : Inv succ code base (s.step succ) := by
  cases hstack : s.visitStack with
  | nil =>
    have hsame : s.step succ = s := by simp [Search.step,hstack]
    rwa [hsame]
  | cons parent below =>
    have hkeeps : s.result ⊆ s.noted succ parent := Finset.subset_union_left
    have hparent : parent ∈ s.visited := h.seen parent (hstack ▸ mem_cons_self)
    have hchain := hstack ▸ h.chain
    have hheaders : ∀ x ∈ s.noted succ parent, x ∈ base ∨
        Reachable succ code x ∧ ∃ cycle, IsCycle succ cycle ∧ x ∈ cycle := by
      intro x hx
      obtain hold | ⟨hsucc,hstacked⟩ := mem_noted hstack hx
      · exact h.headers x hold
      · exact .inr ⟨(h.reached parent hparent).tail hsucc,cycle_of_stack hchain hstacked hsucc⟩
    obtain ⟨done,hdone,hfinished⟩ := h.finished
    rw [hstack] at hdone
    obtain ⟨child,hchild,hnew,hs⟩ | ⟨hall,hs⟩ := step_cases succ hstack
    · rw [hs]
      constructor
      · intro x hx
        obtain rfl | hold := mem_cons.mp hx
        · exact Finset.mem_insert_self _ _
        · exact Finset.mem_insert_of_mem (h.seen x (hstack ▸ hold))
      · exact isChain_cons_cons.mpr ⟨hchild,hchain⟩
      · exact Finset.mem_insert_of_mem h.start
      · intro x hx
        obtain rfl | hold := Finset.mem_insert.mp hx
        · exact (h.reached parent hparent).tail hchild
        · exact h.reached x hold
      · exact h.kept.trans hkeeps
      · exact hheaders
      · refine ⟨done,fun x hx => ?_,hfinished.mono (Finset.subset_insert _ _) hkeeps⟩
        obtain rfl | hold := Finset.mem_insert.mp hx
        · exact .inl mem_cons_self
        · exact (hdone x hold).imp_left (mem_cons_of_mem _)
    · rw [hs]
      constructor
      · exact fun x hx => h.seen x (hstack ▸ mem_cons_of_mem _ hx)
      · exact hchain.tail
      · exact h.start
      · exact h.reached
      · exact h.kept.trans hkeeps
      · exact hheaders
      · refine ⟨parent :: done,fun x hx => ?_,⟨fun next hnext => ?_, hfinished.mono subset_rfl
            hkeeps⟩⟩
        · have hold := hdone x hx
          simp only [mem_cons] at hold ⊢
          tauto
        · obtain ⟨hvisited,hheader⟩ := hall next hnext
          refine ⟨hvisited,?_⟩
          obtain hstacked | hleft := hdone next hvisited
          · exact .inr (hheader hstacked)
          · exact .inl hleft

variable [Fintype Code]

theorem Inv.run (h : Inv succ code base s) {rounds : Nat}
    (hrounds : 2*(Fintype.card Code - s.visited.card) + s.visitStack.length ≤ rounds) :
    Inv succ code base ((Search.step succ)^[rounds] s) ∧
      ((Search.step succ)^[rounds] s).visitStack = [] := by
  induction rounds generalizing s with
  | zero =>
    have hempty : s.visitStack = [] := eq_nil_of_length_eq_zero (by omega)
    exact ⟨h,hempty⟩
  | succ rounds ih =>
    cases hstack : s.visitStack with
    | nil =>
      have hsame : s.step succ = s := by simp [Search.step,hstack]
      rw [Function.iterate_fixed hsame]
      exact ⟨h,hstack⟩
    | cons parent below =>
      rw [Function.iterate_succ_apply]
      apply ih h.step
      rw [hstack] at hrounds
      obtain ⟨child,-,hnew,hs⟩ | ⟨-,hs⟩ := step_cases succ hstack
      · have hless : (insert child s.visited).card ≤ Fintype.card Code := Finset.card_le_univ _
        rw [hs]
        simp only [Finset.card_insert_of_notMem hnew,length_cons] at hless hrounds ⊢
        omega
      · rw [hs]
        simp only [length_cons] at hrounds ⊢
        omega

theorem search_inv (succ : Code → List Code) (code : Code) (base : Finset Code) :
    Inv succ code base (search succ code base) ∧ (search succ code base).visitStack = [] := by
  apply (inv_start succ code base).run
  have hpos : 0 < Fintype.card Code := Fintype.card_pos_iff.mpr ⟨code⟩
  simp only [Search.start,Finset.card_singleton,length_singleton]
  omega

theorem mem_findLoopHeader {x : Code} (hx : x ∈ findLoopHeader succ code base) :
    x ∈ base ∨ Reachable succ code x ∧ ∃ cycle, IsCycle succ cycle ∧ x ∈ cycle :=
  (search_inv succ code base).1.headers x hx

theorem subset_findLoopHeader : base ⊆ findLoopHeader succ code base :=
  (search_inv succ code base).1.kept

theorem findLoopHeader_of_cycle (base : Finset Code) (hcycle : IsCycle succ cycle)
    (hreach : ∃ x ∈ cycle, Reachable succ code x) :
    ∃ header ∈ cycle, header ∈ findLoopHeader succ code base := by
  obtain ⟨hinv,hempty⟩ := search_inv succ code base
  obtain ⟨done,hdone,hfinished⟩ := hinv.finished
  rw [hempty] at hdone
  have hleft : ∀ x ∈ (search succ code base).visited, x ∈ done := fun x hx =>
    (hdone x hx).resolve_left not_mem_nil
  have hvisited : ∀ x, Reachable succ code x → x ∈ (search succ code base).visited := by
    intro x hpath
    induction hpath with
    | refl => exact hinv.start
    | tail _ hedge ih => exact hfinished.closed (hleft _ ih) _ hedge
  obtain ⟨x,hx,hpath⟩ := hreach
  exact hfinished.header hcycle hx (hleft x (hvisited x hpath))

/-- The search ends, and it reports a region of every cycle that it can reach, and no region
that is on none. -/
theorem findLoopHeader_spec (succ : Code → List Code) (code : Code) :
    (search succ code ∅).visitStack = [] ∧
    ((findLoopHeader succ code ∅).Nonempty ↔
      ∃ cycle, IsCycle succ cycle ∧ ∃ x ∈ cycle, Reachable succ code x) ∧
    (∀ header ∈ findLoopHeader succ code ∅, ∃ cycle, IsCycle succ cycle ∧ header ∈ cycle) ∧
    ∀ cycle, IsCycle succ cycle → (∃ x ∈ cycle, Reachable succ code x) →
      ∃ header ∈ cycle, header ∈ findLoopHeader succ code ∅ := by
  have hheader : ∀ x ∈ findLoopHeader succ code ∅,
      Reachable succ code x ∧ ∃ cycle, IsCycle succ cycle ∧ x ∈ cycle := fun x hx =>
    (mem_findLoopHeader hx).resolve_left (Finset.notMem_empty x)
  refine ⟨(search_inv succ code ∅).2,⟨?_,?_⟩,fun x hx => (hheader x hx).2,
    fun cycle => findLoopHeader_of_cycle ∅⟩
  · rintro ⟨x,hx⟩
    obtain ⟨hreach,cycle,hcycle,hmem⟩ := hheader x hx
    exact ⟨cycle,hcycle,x,hmem,hreach⟩
  · rintro ⟨cycle,hcycle,hreach⟩
    obtain ⟨header,-,hmem⟩ := findLoopHeader_of_cycle ∅ hcycle hreach
    exact ⟨header,hmem⟩

end Hqemu.Llvm.LoopHeader
