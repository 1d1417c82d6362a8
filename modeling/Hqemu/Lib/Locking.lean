import Mathlib.Data.List.Basic

/-! Structured programs that take and release locks, and a computation of all the ways they end. -/
namespace Hqemu.Lib.Locking

open List

/-- `test` reads what the program is given, `choose` is a test of anything else. The statement `io`
stands for a system call. -/
inductive Stmt (Lock Input : Type) where
  | skip
  | lock (l : Lock)
  | unlock (l : Lock)
  | io
  | seq (first second : Stmt Lock Input)
  | test (cond : Input → Bool) (yes no : Stmt Lock Input)
  | choose (yes no : Stmt Lock Input)
  | loop (body : Stmt Lock Input)
  | call (body : Stmt Lock Input)
  | leave
  | again
  | ret
  | halt

/-- How a statement ends. `io` is a thread in a system call, `blocked` one that waits for a lock. -/
inductive End where
  | next | leave | again | ret | halt | io | blocked
deriving DecidableEq

variable {Lock Input : Type}

def block : List (Stmt Lock Input) → Stmt Lock Input
  | [] => .skip
  | first :: rest => .seq first (block rest)

/-- How a call goes on after its body. -/
def End.returned : End → End
  | .ret => .next
  | other => other

variable [DecidableEq Lock] (input : Input)

inductive Exec : Stmt Lock Input → List Lock → End → List Lock → Prop
  | skip {held} : Exec .skip held .next held
  | lock {l held} (hfree : l ∉ held) : Exec (.lock l) held .next (l :: held)
  | blocked {l held} (hheld : l ∈ held) : Exec (.lock l) held .blocked held
  | unlock {l held} : Exec (.unlock l) held .next (held.erase l)
  | io {held} : Exec .io held .next held
  | inside {held} : Exec .io held .io held
  | seq {first second held middle e after} (hfirst : Exec first held .next middle)
    (hsecond : Exec second middle e after) : Exec (.seq first second) held e after
  | stop {first second held e after} (hfirst : Exec first held e after) (hend : e ≠ .next) :
    Exec (.seq first second) held e after
  | test {cond yes no held e after} (h : Exec (if cond input then yes else no) held e after) :
    Exec (.test cond yes no) held e after
  | yes {yes no held e after} (h : Exec yes held e after) : Exec (.choose yes no) held e after
  | no {yes no held e after} (h : Exec no held e after) : Exec (.choose yes no) held e after
  | round {body held e middle e' after} (hbody : Exec body held e middle)
    (hend : e = .next ∨ e = .again) (hrest : Exec (.loop body) middle e' after) :
    Exec (.loop body) held e' after
  | left {body held after} (hbody : Exec body held .leave after) : Exec (.loop body) held .next
      after
  | out {body held e after} (hbody : Exec body held e after)
    (hend : e ∉ [End.next,.again,.leave]) : Exec (.loop body) held e after
  | call {body held e after} (hbody : Exec body held e after) :
    Exec (.call body) held e.returned after
  | leave {held} : Exec .leave held .leave held
  | again {held} : Exec .again held .again held
  | ret {held} : Exec .ret held .ret held
  | halt {held} : Exec .halt held .halt held

/-- All ends with the locks held then. A round of a loop that does not leave the locks as it found
them counts as blocked. -/
def outcomes : Stmt Lock Input → List Lock → List (End × List Lock)
  | .skip, held => [(.next,held)]
  | .lock l, held => if l ∈ held then [(.blocked,held)] else [(.next,l :: held)]
  | .unlock l, held => [(.next,held.erase l)]
  | .io, held => [(.next,held),(.io,held)]
  | .seq first second, held => (outcomes first held).flatMap fun x =>
      if x.1 = .next then outcomes second x.2 else [x]
  | .test cond yes no, held => if cond input then outcomes yes held else outcomes no held
  | .choose yes no, held => outcomes yes held ++ outcomes no held
  | .loop body, held => (outcomes body held).flatMap fun x =>
      if x.1 = .leave then [(.next,x.2)]
      else if x.1 = .next ∨ x.1 = .again then if x.2 = held then [] else [(.blocked,held)]
      else [x]
  | .call body, held => (outcomes body held).map fun x => (x.1.returned,x.2)
  | .leave, held => [(.leave,held)]
  | .again, held => [(.again,held)]
  | .ret, held => [(.ret,held)]
  | .halt, held => [(.halt,held)]

def Clean (s : Stmt Lock Input) (held : List Lock) : Prop :=
  ∀ x ∈ outcomes input s held, x.1 ≠ .blocked

variable {input} {s first second yes no body : Stmt Lock Input} {held after : List Lock} {e : End}

theorem Clean.of_seq (h : Clean input (.seq first second) held) : Clean input first held := by
  intro x hx hblocked
  refine h x (mem_flatMap.mpr ⟨x,hx,?_⟩) hblocked
  rw [hblocked]
  exact mem_singleton_self x

theorem Clean.of_next (h : Clean input (.seq first second) held) {middle : List Lock}
    (hfirst : (.next,middle) ∈ outcomes input first held) : Clean input second middle :=
  fun x hx => h x (mem_flatMap.mpr ⟨_,hfirst,hx⟩)

theorem Clean.of_loop (h : Clean input (.loop body) held) : Clean input body held := by
  intro x hx hblocked
  refine h x (mem_flatMap.mpr ⟨x,hx,?_⟩) hblocked
  rw [hblocked]
  exact mem_singleton_self x

theorem Clean.kept (h : Clean input (.loop body) held)
    (hbody : (e,after) ∈ outcomes input body held) (hend : e = .next ∨ e = .again) :
    after = held := by
  by_contra hne
  refine h (.blocked,held) (mem_flatMap.mpr ⟨_,hbody,?_⟩) rfl
  rcases hend with rfl | rfl <;> simp [hne]

theorem Exec.mem_outcomes (h : Exec input s held e after) (hclean : Clean input s held) :
    (e,after) ∈ outcomes input s held := by
  induction h with
  | skip | unlock | leave | again | ret | halt => exact mem_singleton_self _
  | io => exact mem_cons_self
  | inside => exact mem_cons_of_mem _ (mem_singleton_self _)
  | lock hfree =>
    rw [outcomes,if_neg hfree]
    exact mem_singleton_self _
  | blocked hheld =>
    rw [outcomes,if_pos hheld]
    exact mem_singleton_self _
  | seq _ _ ihfirst ihsecond =>
    have hfirst := ihfirst hclean.of_seq
    exact mem_flatMap.mpr ⟨_,hfirst,ihsecond (hclean.of_next hfirst)⟩
  | stop _ hend ih =>
    refine mem_flatMap.mpr ⟨_,ih hclean.of_seq,?_⟩
    rw [if_neg hend]
    exact mem_singleton_self _
  | @test cond _ _ _ _ _ _ ih =>
    unfold Clean at hclean ih
    rw [outcomes] at hclean ⊢
    cases hcond : cond input <;>
      simp only [hcond,if_true,Bool.false_eq_true,if_false] at hclean ih ⊢
    · exact ih hclean
    · exact ih hclean
  | yes _ ih => exact mem_append_left _ (ih fun x hx => hclean x (mem_append_left _ hx))
  | no _ ih => exact mem_append_right _ (ih fun x hx => hclean x (mem_append_right _ hx))
  | round _ hend _ ihbody ihrest =>
    cases hclean.kept (ihbody hclean.of_loop) hend
    exact ihrest hclean
  | left _ ih => exact mem_flatMap.mpr ⟨_,ih hclean.of_loop,mem_singleton_self _⟩
  | @out _ _ e _ _ hend ih =>
    refine mem_flatMap.mpr ⟨_,ih hclean.of_loop,?_⟩
    cases e <;> simp_all
  | @call _ _ e _ _ ih =>
    refine mem_map.mpr ⟨_,ih fun x hx hblocked => ?_,rfl⟩
    exact hclean _ (mem_map_of_mem hx) (by rw [hblocked]; rfl)

theorem exec_of_mem_outcomes (h : (e,after) ∈ outcomes input s held) (hend : e ≠ .blocked) :
    Exec input s held e after := by
  induction s generalizing held e after with
  | skip => cases mem_singleton.mp h; exact .skip
  | unlock l => cases mem_singleton.mp h; exact .unlock
  | leave => cases mem_singleton.mp h; exact .leave
  | again => cases mem_singleton.mp h; exact .again
  | ret => cases mem_singleton.mp h; exact .ret
  | halt => cases mem_singleton.mp h; exact .halt
  | lock l =>
    rw [outcomes] at h
    split at h
    · cases mem_singleton.mp h
      exact absurd rfl hend
    · next hfree =>
      cases mem_singleton.mp h
      exact .lock hfree
  | io =>
    rw [outcomes,mem_cons,mem_singleton] at h
    obtain h | h := h
    · cases h; exact .io
    · cases h; exact .inside
  | seq first second ihfirst ihsecond =>
    obtain ⟨⟨e',middle⟩,hfirst,hsecond⟩ := mem_flatMap.mp h
    by_cases hnext : e' = .next
    · cases hnext
      exact .seq (ihfirst hfirst nofun) (ihsecond hsecond hend)
    · rw [if_neg hnext] at hsecond
      cases mem_singleton.mp hsecond
      exact .stop (ihfirst hfirst hend) hnext
  | test cond yes no ihyes ihno =>
    refine .test ?_
    rw [outcomes] at h
    cases hcond : cond input <;> simp only [hcond,if_true,Bool.false_eq_true,if_false] at h ⊢
    · exact ihno h hend
    · exact ihyes h hend
  | choose yes no ihyes ihno =>
    obtain h | h := mem_append.mp h
    · exact .yes (ihyes h hend)
    · exact .no (ihno h hend)
  | loop body ih =>
    obtain ⟨⟨e',middle⟩,hbody,hout⟩ := mem_flatMap.mp h
    simp only at hout
    split at hout
    · next hleave =>
      cases mem_singleton.mp hout
      exact .left (hleave ▸ ih hbody (by rw [hleave]; nofun))
    · next hleave =>
      split at hout
      · split at hout
        · exact nomatch hout
        · cases mem_singleton.mp hout
          exact absurd rfl hend
      · next hround =>
        cases mem_singleton.mp hout
        exact .out (ih hbody hend) (by simpa [hleave] using hround)
  | call body ih =>
    obtain ⟨⟨e',middle⟩,hbody,hout⟩ := mem_map.mp h
    cases hout
    exact .call (ih hbody fun hblocked => hend (by rw [hblocked]; rfl))

/-- The program with all its tests left open. -/
def Stmt.opened : Stmt Lock Input → Stmt Lock Unit
  | .skip => .skip
  | .lock l => .lock l
  | .unlock l => .unlock l
  | .io => .io
  | .seq first second => .seq first.opened second.opened
  | .test _ yes no => .choose yes.opened no.opened
  | .choose yes no => .choose yes.opened no.opened
  | .loop body => .loop body.opened
  | .call body => .call body.opened
  | .leave => .leave
  | .again => .again
  | .ret => .ret
  | .halt => .halt

theorem outcomes_subset_opened : outcomes input s held ⊆ outcomes () s.opened held := by
  induction s generalizing held with
  | skip | lock | unlock | io | leave | again | ret | halt => exact Subset.refl _
  | seq first second ihfirst ihsecond =>
    intro x hx
    obtain ⟨y,hy,hx⟩ := mem_flatMap.mp hx
    refine mem_flatMap.mpr ⟨y,ihfirst hy,?_⟩
    split at hx
    · next hnext =>
      rw [if_pos hnext]
      exact ihsecond hx
    · next hnext =>
      rw [if_neg hnext]
      exact hx
  | test cond yes no ihyes ihno =>
    rw [outcomes]
    split
    · exact List.Subset.trans ihyes (subset_append_left _ _)
    · exact List.Subset.trans ihno (subset_append_right _ _)
  | choose yes no ihyes ihno =>
    exact append_subset.mpr ⟨List.Subset.trans ihyes (subset_append_left _ _),
      List.Subset.trans ihno (subset_append_right _ _)⟩
  | loop body ih =>
    intro x hx
    obtain ⟨y,hy,hx⟩ := mem_flatMap.mp hx
    exact mem_flatMap.mpr ⟨y,ih hy,hx⟩
  | call body ih =>
    intro x hx
    obtain ⟨y,hy,rfl⟩ := mem_map.mp hx
    exact mem_map.mpr ⟨y,ih hy,rfl⟩

theorem exec_iff (hclean : Clean input s held) :
    Exec input s held e after ↔ (e,after) ∈ outcomes input s held := by
  refine ⟨fun h => h.mem_outcomes hclean,fun h => exec_of_mem_outcomes h ?_⟩
  exact hclean _ h

end Hqemu.Lib.Locking
