import Hqemu.Lib.Run
import Mathlib.Logic.Function.Basic

/-! The bottom halves and the contexts of `async.c`. -/
namespace Hqemu.Block.BottomHalves
open Lib.Run Function

/-- `context` is the number of the context it was created in, `requests` and `runs` count the
calls that schedule it and those of the callback. -/
structure QEMUBH where
  context : Nat
  scheduled : Bool
  idle : Bool
  deleted : Bool
  requests : Nat
  runs : Nat

/-- A running `qemu_bh_poll`: what it has still to look at in the list of its context, and the
bottom half whose `next` it follows. -/
structure Poll where
  context : Nat
  todo : List Nat
  bh : Option Nat
  ret : Bool

/-- `firstBh` gives the list of each context on the stack, and `id` is the number of the active one.
`polls` has the innermost first; `drained` is set after a poll that returned 0. -/
structure State where
  id : Nat
  firstBh : Nat → List Nat
  bh : Nat → QEMUBH
  allocated : Nat
  polls : List Poll
  drained : Bool

def init : State := ⟨0,fun _ => [],fun _ => ⟨0,false,false,false,0,0⟩,0,[],false⟩

inductive Action where
  | new
  | schedule (bh : Nat) (idle : Bool)
  | delete (bh : Nat)
  | push
  | pop
  | poll
  | next
  | finish

def new (s : State) : State :=
  { s with
    firstBh := update s.firstBh s.id (s.allocated :: s.firstBh s.id)
    bh := update s.bh s.allocated ⟨s.id,false,false,false,0,0⟩
    allocated := s.allocated+1
    drained := false }

/-- `qemu_bh_schedule` and `qemu_bh_schedule_idle`. -/
def schedule (s : State) (bh : Nat) (idle : Bool) : State :=
  let old := s.bh bh
  { s with
    bh := update s.bh bh { old with
      scheduled := true
      idle := if old.scheduled then old.idle else idle
      requests := old.requests+1 }
    drained := false }

/-- The bottom half whose callback the innermost poll calls. -/
def invoked (s : State) : Option Nat :=
  match s.polls with
  | ⟨context,bh :: _,_,_⟩ :: _ =>
    if bh ∈ s.firstBh context ∧ ¬(s.bh bh).deleted ∧ (s.bh bh).scheduled then some bh else none
  | _ => none

/-- A poll goes on from a bottom half that is still linked; what a nested poll has unlinked it does
not see. -/
def advance (s : State) : Option State :=
  match s.polls with
  | ⟨context,bh :: todo,cur,ret⟩ :: outer =>
    let old := s.bh bh
    if ∃ prev ∈ cur, prev ∉ s.firstBh context then none
    else if invoked s = none then some { s with
      polls := ⟨context,todo,if bh ∈ s.firstBh context then some bh else cur,ret⟩ :: outer
      drained := false }
    else some { s with
      bh := update s.bh bh { old with scheduled := false, idle := false, runs := old.runs+1 }
      polls := ⟨context,todo,some bh,ret || !old.idle⟩ :: outer
      drained := false }
  | _ => none

def step (s : State) : Action → Option State
  | .new => some (new s)
  | .schedule bh idle => if bh < s.allocated then some (schedule s bh idle) else none
  | .delete bh =>
    if bh < s.allocated then some { s with
      bh := update s.bh bh { s.bh bh with scheduled := false, deleted := true }
      drained := false }
    else none
  | .push => some { s with
      id := s.id+1
      firstBh := update s.firstBh (s.id+1) []
      drained := false }
  | .pop =>
    if s.drained ∧ 0 < s.id then some (schedule (new { s with id := s.id-1 }) s.allocated false)
    else none
  | .poll => some { s with
      polls := ⟨s.id,s.firstBh s.id,none,false⟩ :: s.polls
      drained := false }
  | .next => advance s
  | .finish =>
    match s.polls with
    | ⟨context,[],cur,ret⟩ :: outer =>
      if ∃ prev ∈ cur, prev ∉ s.firstBh context then none
      else some { s with
        firstBh := update s.firstBh s.id ((s.firstBh s.id).filter fun bh => !(s.bh bh).deleted)
        polls := outer
        drained := !ret }
    | _ => none

/-- No bottom half ran more often than it was scheduled, and each one that is not deleted is in
the list of its context, which was not left. -/
def Kept (s : State) : Prop :=
  ∀ bh < s.allocated, (s.bh bh).runs ≤ (s.bh bh).requests ∧ ((s.bh bh).deleted ∨
    (s.bh bh).context ≤ s.id ∧ bh ∈ s.firstBh (s.bh bh).context)

/-- What runs was created in the active context. -/
def Inner (s : State) : Action → Prop
  | .next => ∀ bh ∈ invoked s, (s.bh bh).context = s.id
  | _ => True

/-- A callback returns in the context it was called in, without having left it, and a context is
left when all its bottom halves are deleted. -/
def Nested (s : State) : Action → Prop
  | .next | .finish => ∀ poll ∈ s.polls.head?, poll.context = s.id
  | .pop => (∀ poll ∈ s.polls, poll.context < s.id) ∧ ∀ bh ∈ s.firstBh s.id, (s.bh bh).deleted
  | _ => True

instance (s : State) : DecidablePred (Nested s)
  | .next | .finish => inferInstanceAs (Decidable (∀ poll ∈ s.polls.head?, poll.context = s.id))
  | .pop => instDecidableAnd
  | .new | .schedule _ _ | .delete _ | .push | .poll => instDecidableTrue

structure Inv (s : State) : Prop where
  counted : ∀ bh, (s.bh bh).runs+(s.bh bh).scheduled.toNat ≤ (s.bh bh).requests
  owned : ∀ i ≤ s.id, ∀ bh ∈ s.firstBh i, bh < s.allocated ∧ (s.bh bh).context = i
  kept : ∀ bh < s.allocated, (s.bh bh).deleted ∨
    (s.bh bh).context ≤ s.id ∧ bh ∈ s.firstBh (s.bh bh).context

variable {s next : State} {action : Action}

theorem Inv.new (h : Inv s) : Inv (new s) := by
  have ⟨hcounted,hown,hkeep⟩ := h
  constructor <;> dsimp only [BottomHalves.new] <;> grind [update_apply]

theorem Inv.change (h : Inv s) {bh : Nat} {new : QEMUBH} {polls : List Poll} {drained : Bool}
    (hcount : new.runs+new.scheduled.toNat ≤ new.requests)
    (hcontext : new.context = (s.bh bh).context) (hdeleted : (s.bh bh).deleted → new.deleted) :
    Inv { s with bh := update s.bh bh new, polls := polls, drained := drained } := by
  have ⟨hcounted,hown,hkeep⟩ := h
  constructor <;> dsimp only <;> grind [update_apply]

theorem Inv.schedule (h : Inv s) (bh : Nat) (idle : Bool) : Inv (schedule s bh idle) := by
  refine h.change ?_ rfl id
  have := h.counted bh
  simp only [Bool.toNat_true]
  omega

theorem Inv.advance (h : Inv s) (hs : advance s = some next) : Inv next := by
  unfold BottomHalves.advance at hs
  split at hs
  case h_2 => cases hs
  case h_1 context bh todo cur ret outer hpolls =>
  dsimp only at hs
  split at hs
  · cases hs
  · split at hs <;> cases hs
    · exact ⟨h.counted,h.owned,h.kept⟩
    case isFalse hinvoked =>
      have hrun : (s.bh bh).scheduled := by
        by_contra hnot
        exact hinvoked (by simp [invoked,hpolls,hnot])
      refine h.change ?_ rfl id
      have := h.counted bh
      simp_all

theorem Inv.step (h : Inv s) (hnested : Nested s action) (hs : step s action = some next) :
    Inv next := by
  have ⟨hcounted,hown,hkeep⟩ := h
  unfold BottomHalves.step at hs
  cases action with
  | new =>
    cases hs
    exact h.new
  | schedule bh idle =>
    dsimp only at hs
    split at hs <;> cases hs
    exact h.schedule bh idle
  | delete bh =>
    dsimp only at hs
    split at hs <;> cases hs
    refine h.change ?_ rfl fun _ => rfl
    exact Nat.le_of_add_right_le (h.counted bh)
  | push =>
    cases hs
    constructor <;> dsimp only <;> grind [update_apply]
  | pop =>
    dsimp only at hs
    split at hs <;> cases hs
    apply Inv.schedule
    apply Inv.new
    have hdeleted := hnested.2
    constructor <;> dsimp only <;> grind
  | poll =>
    cases hs
    exact ⟨h.counted,h.owned,h.kept⟩
  | next => exact h.advance hs
  | finish =>
    dsimp only at hs
    split at hs
    case h_2 => cases hs
    split at hs <;> cases hs
    constructor <;> dsimp only <;> grind [update_apply]

theorem Inv.inner (h : Inv s) (hnested : Nested s action) : Inner s action := by
  cases action with
  | next =>
    intro bh hbh
    unfold invoked at hbh
    split at hbh
    case h_2 => cases hbh
    case h_1 context other todo cur ret outer hpolls =>
    split at hbh <;> cases hbh
    case isTrue hrun =>
    have hid : context = s.id := hnested _ (by rw [hpolls]; rfl)
    exact (h.owned s.id (Nat.le_refl _) bh (hid ▸ hrun.1)).2
  | _ => trivial

/-- If the contexts are left without bottom halves that could be lost, every one runs in its own
context and at most as often as it is scheduled. -/
theorem kept_of_nested (actions : List Action) (hnested : Meets step Nested init actions) :
    Always step Kept init actions ∧ Meets step Inner init actions := by
  have hinit : Inv init := ⟨fun _ => Nat.le_refl 0,nofun,nofun⟩
  have hstep (s action next) (h : Inv s) (hn : Nested s action)
      (hs : BottomHalves.step s action = some next) : Inv next := h.step hn hs
  refine ⟨(always_of_meets hstep hinit hnested).imp fun s h bh hbh => ⟨?_,h.kept bh hbh⟩,
    hnested.imp hstep (fun _ _ h hn => h.inner hn) hinit⟩
  exact Nat.le_of_add_right_le (h.counted bh)

/-- A bottom half runs in an inner context and deletes itself. -/
def inside : List Action :=
  [.push,.new,.schedule 0 false,.poll,.next,.delete 0,.finish,.poll,.finish,.pop]

theorem kept_of_nested_inside : (run step init inside).isSome ∧ Always step Kept init inside ∧
    Meets step Inner init inside :=
  ⟨by decide,kept_of_nested inside (by decide)⟩

/-- A bottom half outlives its context: it is scheduled afterwards, and the poll only runs the
completions. -/
theorem left_never_runs : ∃ s, run step init [.push, .new, .poll, .next, .finish, .pop,
      .schedule 0 false, .poll, .next, .delete 1, .finish] = some s ∧
    (s.bh 0).scheduled ∧ ¬(s.bh 0).deleted ∧ (s.bh 0).runs = 0 :=
  ⟨_,rfl,rfl,nofun,rfl⟩

end Hqemu.Block.BottomHalves
