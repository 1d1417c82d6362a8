import Hqemu.Llvm.StateIr
import Hqemu.Llvm.StateType
import Mathlib.Data.List.Basic

/-! `OptimizeHelperFunc` of `llvm-target.cpp`, which collects the CPUState fields each helper reads
and writes, and `InitHelperFunctions`. -/
namespace Hqemu.Llvm.HelperStates

open List

open StateType (Layout)

inductive Dir
  | read
  | write
deriving DecidableEq, Repr

/-- Where a pointer other than CPUState plus a constant comes from: an argument of the function, or
a select, a variable index or a load, with the fields it may point to. -/
inductive Source
  | argument (i : Nat)
  | computed (fields : List Nat)
deriving DecidableEq, Repr

inductive Pointer
  | env (off size : Nat)
  | through (src : Source)
deriving DecidableEq, Repr

inductive Passed
  | inlineAsm
  | intrinsic
  | libcall
  | softFPcall
deriving DecidableEq, Repr

inductive Inst
  | access (d : Dir) (p : Pointer)
  /-- A call that is passed over, with what the callee accesses. -/
  | passed (callee : Passed) (reach : List (Dir × Source))
  | call (callee : String) (args : List Source)
deriving DecidableEq, Repr

structure Program where
  layout : Layout
  includeHelper : List String
  configNet : Bool
  /-- The answer of `getPointerToGlobalIfAvailable` at the beginning. -/
  available : String → Bool
  body : String → List Inst
  inside : ∀ h ∈ includeHelper, ∀ d off size, Inst.access d (.env off size) ∈ body h →
    0 < size ∧ (layout.statesAt off size).isSome

/-- A helper that was passed over, or taken out again, has been bound to its address. -/
def Program.bound (P : Program) (before : List String) (listed : String → Bool) : Program :=
  { P with available := fun g => P.available g || before.contains g && !listed g }

structure Helper extends StateIr.HelperInfo where
  isInitialized : Bool
deriving DecidableEq, Repr

namespace Helper

def states (info : Helper) : Dir → List Nat
  | .read => info.stateUse
  | .write => info.stateDef

def insertStates (info : Helper) (l : List Nat) : Dir → Helper
  | .read => { info with stateUse := l ++ info.stateUse }
  | .write => { info with stateDef := l ++ info.stateDef }

def insertState (info toAdd : Helper) : Helper :=
  (info.insertStates toAdd.stateUse .read).insertStates toAdd.stateDef .write

end Helper

abbrev HelperFuncs := String → Option Helper

variable (P : Program)

/-- One round of the loop over the instructions of helper `h`; there is no answer where the
function returns -1. With `CONFIG_NET` the address is tested first. -/
def visit (funcs : HelperFuncs) (h : String) (info : Helper) : Inst → Option Helper
  | .access d (.env off size) =>
    some (info.insertStates ((P.layout.statesAt off size).getD []) d)
  | .access _ (.through (.argument _)) => some { info with mayConflictArg := true }
  | .access _ (.through (.computed _)) => some info
  | .passed _ _ => some info
  | .call g _ =>
    if P.configNet && !P.available g then none
    else
      let marked := { info with hasNestedCall := true }
      match funcs g with
      | some nested =>
        if g ≠ h ∧ nested.isInitialized then
          some { marked.insertState nested with hasNestedCall := false }
        else some marked
      | none => if P.available g then some marked else none

def visitAll (funcs : HelperFuncs) (h : String) : Helper → List Inst → Option Helper
  | info, [] => some info
  | info, i :: l =>
    match visit P funcs h info i with
    | none => none
    | some info' => visitAll funcs h info' l

def optimizeHelperFunc (funcs : HelperFuncs) (h : String) (info : Helper) : Option Helper :=
  visitAll P funcs h { info with isInitialized := true } (P.body h)

def initHelper (funcs : HelperFuncs) (h : String) : HelperFuncs :=
  match funcs h with
  | none => funcs
  | some info => Function.update funcs h (optimizeHelperFunc P funcs h info)

/-- `HelperFuncs` after the helpers in `done` have been processed, the latest one first. -/
def initHelperFunctions : List String → HelperFuncs
  | [] => fun h => if P.includeHelper.contains h then some ⟨⟨[],[],false,false⟩,false⟩ else none
  | h :: before =>
    let funcs := initHelperFunctions before
    initHelper (P.bound before fun g => (funcs g).isSome) funcs h

def Source.fields (ρ : Nat → List Nat) : Source → List Nat
  | .argument i => ρ i
  | .computed l => l

def bindArgs (args : List Source) (ρ : Nat → List Nat) (j : Nat) : List Nat :=
  match args[j]? with
  | none => []
  | some src => src.fields ρ

inductive Touches : String → (Nat → List Nat) → Dir → Nat → Prop
  | env {h ρ d s off size} (hmem : Inst.access d (.env off size) ∈ P.body h)
    (hs : P.layout.Overlaps off size s) : Touches h ρ d s
  | through {h ρ d s src} (hmem : Inst.access d (.through src) ∈ P.body h)
    (hs : s ∈ src.fields ρ) : Touches h ρ d s
  | passed {h ρ d s callee reach src} (hmem : Inst.passed callee reach ∈ P.body h)
    (hreach : (d,src) ∈ reach) (hs : s ∈ src.fields ρ) : Touches h ρ d s
  | call {h ρ d s g args} (hmem : Inst.call g args ∈ P.body h)
    (hs : Touches g (bindArgs args ρ) d s) : Touches h ρ d s

/-- Every field that an execution of a processed helper without nested calls touches is in
its sets. -/
def Sound (done : List String) : Prop :=
  ∀ h ∈ done, ∀ info, initHelperFunctions P done h = some info → info.hasNestedCall = false →
    ∀ ρ d s, Touches P h ρ d s → s ∈ info.states d

/-- The same, apart from fields that a helper with `mayConflictArg` gets a pointer to. -/
def SoundUpToArgs (done : List String) : Prop :=
  ∀ h ∈ done, ∀ info, initHelperFunctions P done h = some info → info.hasNestedCall = false →
    ∀ ρ d s, Touches P h ρ d s →
      s ∈ info.states d ∨ info.mayConflictArg = true ∧ ∃ i, s ∈ ρ i

def aborts (listed : String → Bool) (h : String) : Bool :=
  (P.body h).any fun
    | .call g _ => !P.available g && (P.configNet || !listed g)
    | _ => false

def listed : List String → String → Bool
  | [], g => P.includeHelper.contains g
  | h :: before, g => listed before g &&
      !(g == h && aborts (P.bound before (listed before)) (listed before) h)

/-- A call to `g` finds its sets complete: it is listed and among those processed before. -/
def Followed (before : List String) (g : String) : Prop := g ∈ before ∧ listed P before g = true

def earlier : List String → String → List String
  | [], _ => []
  | h :: before, g => if h = g then before else earlier before g

inductive Collected : List String → String → Dir → Nat → Prop
  | env {before h d s off size} (hmem : Inst.access d (.env off size) ∈ P.body h)
    (hs : P.layout.Overlaps off size s) : Collected before h d s
  | call {before h d s g args} (hmem : Inst.call g args ∈ P.body h) (hg : Followed P before g)
    (hs : Collected (earlier before g) g d s) : Collected before h d s

inductive Escapes : List String → String → (Nat → List Nat) → Dir → Nat → Prop
  | through {before h ρ d s src} (hmem : Inst.access d (.through src) ∈ P.body h)
    (hs : s ∈ src.fields ρ) : Escapes before h ρ d s
  | passed {before h ρ d s callee reach src} (hmem : Inst.passed callee reach ∈ P.body h)
    (hreach : (d,src) ∈ reach) (hs : s ∈ src.fields ρ) : Escapes before h ρ d s
  | unfollowed {before h ρ d s g args} (hmem : Inst.call g args ∈ P.body h)
    (hg : ¬ Followed P before g) (hs : Touches P g (bindArgs args ρ) d s) :
    Escapes before h ρ d s
  | followed {before h ρ d s g args} (hmem : Inst.call g args ∈ P.body h)
    (hg : Followed P before g) (hs : Escapes (earlier before g) g (bindArgs args ρ) d s) :
    Escapes before h ρ d s

def Inst.callee : Inst → Option String
  | .call g _ => some g
  | _ => none

def lastCall : List Inst → Option String
  | [] => none
  | i :: l => (lastCall l).or i.callee

def Quiet (before : List String) (h : String) : Prop :=
  ∀ g, lastCall (P.body h) = some g → Followed P before g

def UsesArgument (h : String) : Prop := ∃ d i, Inst.access d (.through (.argument i)) ∈ P.body h

variable {P : Program}

variable {before : List String} {h : String}

theorem Escapes.touches {ρ : Nat → List Nat} {d : Dir} {s : Nat} (he : Escapes P before h ρ d s) :
    Touches P h ρ d s := by
  induction he with
  | through hmem hs => exact .through hmem hs
  | passed hmem hreach hs => exact .passed hmem hreach hs
  | unfollowed hmem _ hs | followed hmem _ _ hs => exact .call hmem hs

theorem Touches.cases {ρ : Nat → List Nat} {d : Dir} {s : Nat} (ht : Touches P h ρ d s)
    (before : List String) : Collected P before h d s ∨ Escapes P before h ρ d s := by
  induction ht generalizing before with
  | env hmem hs => exact .inl (.env hmem hs)
  | through hmem hs => exact .inr (.through hmem hs)
  | passed hmem hreach hs => exact .inr (.passed hmem hreach hs)
  | @call h ρ d s g args hmem hs ih =>
    by_cases hg : Followed P before g
    · cases ih (earlier before g) with
      | inl hc => exact .inl (.call hmem hg hc)
      | inr he => exact .inr (.followed hmem hg he)
    · exact .inr (.unfollowed hmem hg hs)

def nested (funcs : HelperFuncs) (h g : String) : Option Helper :=
  match funcs g with
  | some n => if g ≠ h ∧ n.isInitialized = true then some n else none
  | none => none

def Gains (L : Layout) (funcs : HelperFuncs) (h : String) : Inst → Dir → Nat → Prop
  | .access d' (.env off size), d, s => d = d' ∧ s ∈ (L.statesAt off size).getD []
  | .call g _, d, s => ∃ n, nested funcs h g = some n ∧ s ∈ n.states d
  | _, _, _ => False

theorem mem_insertStates (info : Helper) (l : List Nat) (d' d : Dir) (s : Nat) :
    s ∈ (info.insertStates l d').states d ↔ (d = d' ∧ s ∈ l) ∨ s ∈ info.states d := by
  cases d <;> cases d' <;> simp [Helper.insertStates,Helper.states]

theorem mem_insertState (info toAdd : Helper) (d : Dir) (s : Nat) :
    s ∈ (info.insertState toAdd).states d ↔ s ∈ toAdd.states d ∨ s ∈ info.states d := by
  cases d <;> simp [Helper.insertState,Helper.insertStates,Helper.states]

theorem visit_call (funcs : HelperFuncs) (h : String) (info : Helper) (g : String)
    (args : List Source) :
    visit P funcs h info (.call g args) =
      if P.available g = false ∧ (P.configNet = true ∨ funcs g = none) then none
      else match nested funcs h g with
        | some n => some { info.insertState n with hasNestedCall := false }
        | none => some { info with hasNestedCall := true } := by
  unfold visit nested
  cases hg : funcs g with
  | none => cases ha : P.available g <;> simp [hg,ha]
  | some n =>
    by_cases hn : g ≠ h ∧ n.isInitialized = true <;> cases ha : P.available g <;>
      simp [hg,hn,ha,Helper.insertState,Helper.insertStates]

structure Visited (L : Layout) (funcs : HelperFuncs) (h : String) (i : Inst)
    (info info' : Helper) : Prop where
  states : ∀ d s, s ∈ info'.states d ↔ Gains L funcs h i d s ∨ s ∈ info.states d
  flag : info'.hasNestedCall = match i.callee with
    | none => info.hasNestedCall
    | some g => (nested funcs h g).isNone
  args : info'.mayConflictArg = true ↔
    (∃ d k, i = .access d (.through (.argument k))) ∨ info.mayConflictArg = true
  initialized : info'.isInitialized = info.isInitialized

variable {funcs : HelperFuncs} {info : Helper}

theorem visit_visited {info' : Helper} {i : Inst} (hv : visit P funcs h info i = some info') :
    Visited P.layout funcs h i info info' := by
  cases i with
  | access d' p =>
    cases p with
    | env off size =>
      cases hv
      constructor
      · intro d s
        exact mem_insertStates info _ d' d s
      · cases d' <;> rfl
      · cases d' <;> simp [Helper.insertStates]
      · cases d' <;> rfl
    | through src =>
      cases src with
      | argument k =>
        cases hv
        constructor
        · intro d s
          cases d <;> simp [Gains,Helper.states]
        · rfl
        · simp
        · rfl
      | computed fields =>
        cases hv
        constructor <;> simp [Gains,Inst.callee]
  | passed callee reach =>
    cases hv
    constructor <;> simp [Gains,Inst.callee]
  | call g args =>
    rw [visit_call,Option.ite_none_left_eq_some] at hv
    obtain ⟨-,hv⟩ := hv
    cases hn : nested funcs h g with
    | some n =>
      simp only [hn,Option.some.injEq] at hv
      subst hv
      constructor
      · intro d s
        have hmem := mem_insertState info n d s
        cases d <;> simpa [Gains,hn,Helper.states] using hmem
      · simp [Inst.callee,hn]
      · simp [Helper.insertState,Helper.insertStates]
      · simp [Helper.insertState,Helper.insertStates]
    | none =>
      simp only [hn] at hv
      cases hv
      constructor
      · intro d s
        cases d <;> simp [Gains,hn,Helper.states]
      · simp [Inst.callee,hn]
      · simp
      · rfl

theorem visit_eq_none {i : Inst} :
    visit P funcs h info i = none ↔
      ∃ g args, i = .call g args ∧ P.available g = false ∧
        (P.configNet = true ∨ funcs g = none) := by
  cases i with
  | access d p =>
    cases p with
    | env off size => simp [visit]
    | through src => cases src <;> simp [visit]
  | passed callee reach => simp [visit]
  | call g args =>
    rw [visit_call]
    cases hn : nested funcs h g <;> cases hnet : P.configNet <;> simp

structure VisitedAll (L : Layout) (funcs : HelperFuncs) (h : String) (l : List Inst)
    (info info' : Helper) : Prop where
  states : ∀ d s, s ∈ info'.states d ↔ (∃ i ∈ l, Gains L funcs h i d s) ∨ s ∈ info.states d
  flag : info'.hasNestedCall = match lastCall l with
    | none => info.hasNestedCall
    | some g => (nested funcs h g).isNone
  args : info'.mayConflictArg = true ↔
    (∃ d k, Inst.access d (.through (.argument k)) ∈ l) ∨ info.mayConflictArg = true
  initialized : info'.isInitialized = info.isInitialized

theorem visitAll_visited {info' : Helper} {l : List Inst}
    (hv : visitAll P funcs h info l = some info') : VisitedAll P.layout funcs h l info info' := by
  induction l generalizing info with
  | nil =>
    cases hv
    constructor <;> simp [lastCall]
  | cons i l ih =>
    unfold visitAll at hv
    cases hi : visit P funcs h info i with
    | none => simp [hi] at hv
    | some mid =>
      rw [hi] at hv
      have hfirst := visit_visited hi
      have hrest := ih hv
      constructor
      · intro d s
        rw [hrest.states,hfirst.states,exists_mem_cons_iff,or_assoc]
        exact or_left_comm
      · rw [hrest.flag,hfirst.flag,lastCall]
        cases lastCall l <;> rfl
      · rw [hrest.args,hfirst.args]
        simp only [mem_cons,exists_or,eq_comm (a := i),or_assoc]
        exact or_left_comm
      · rw [hrest.initialized,hfirst.initialized]

theorem visitAll_eq_none {l : List Inst} :
    visitAll P funcs h info l = none ↔
      ∃ g args, Inst.call g args ∈ l ∧ P.available g = false ∧
        (P.configNet = true ∨ funcs g = none) := by
  induction l generalizing info with
  | nil => simp [visitAll]
  | cons i l ih =>
    unfold visitAll
    cases hi : visit P funcs h info i with
    | none =>
      obtain ⟨g,args,rfl,hg⟩ := visit_eq_none.mp hi
      simp only [true_iff]
      exact ⟨g,args,mem_cons_self,hg⟩
    | some mid =>
      rw [ih]
      constructor
      · rintro ⟨g,args,hmem,hg⟩
        exact ⟨g,args,mem_cons_of_mem _ hmem,hg⟩
      · rintro ⟨g,args,hmem,hg⟩
        rcases mem_cons.mp hmem with rfl | hmem
        · have hnone : visit P funcs h info (.call g args) = none :=
            visit_eq_none.mpr ⟨g,args,rfl,hg⟩
          rw [hnone] at hi
          cases hi
        · exact ⟨g,args,hmem,hg⟩

structure Recorded (P : Program) (done : List String) (h : String) (info : Helper) : Prop where
  initialized : info.isInitialized = decide (h ∈ done)
  fresh : h ∉ done → info = ⟨⟨[],[],false,false⟩,false⟩
  states : h ∈ done → ∀ d s, s ∈ info.states d ↔ Collected P (earlier done h) h d s
  flag : h ∈ done → (info.hasNestedCall = false ↔ Quiet P (earlier done h) h)
  args : h ∈ done → (info.mayConflictArg = true ↔ UsesArgument P h)

variable {done : List String}

theorem mem_includeHelper (hl : listed P done h = true) : h ∈ P.includeHelper := by
  induction done with
  | nil => simpa [listed] using hl
  | cons k before ih =>
    rw [listed,Bool.and_eq_true] at hl
    exact ih hl.1

section Round
variable {before : List String} {k : String}

section

variable (hk : k ∉ before)
  (hlist : ∀ h, (initHelperFunctions P before h).isSome = listed P before h)
  (hrecord : ∀ h info, initHelperFunctions P before h = some info → Recorded P before h info)
include hk hlist hrecord

theorem nested_eq_some (g : String) (n : Helper) :
    nested (initHelperFunctions P before) k g = some n ↔
      Followed P before g ∧ initHelperFunctions P before g = some n := by
  unfold nested Followed
  rw [← hlist g]
  cases hg : initHelperFunctions P before g with
  | none => simp
  | some m =>
    have hinit := (hrecord g m hg).initialized
    by_cases hmem : g ∈ before
    · have hne : g ≠ k := fun heq => hk (heq ▸ hmem)
      simp [hinit,hmem,hne]
    · simp [hinit,hmem]

theorem nested_isNone (g : String) :
    (nested (initHelperFunctions P before) k g).isNone = false ↔ Followed P before g := by
  have hsome := nested_eq_some hk hlist hrecord g
  cases hn : nested (initHelperFunctions P before) k g with
  | some n =>
    have hf := (hsome n).mp hn
    simp [hf.1]
  | none =>
    simp only [Option.isNone_none,Bool.true_eq_false,false_iff]
    intro hf
    have hl : (initHelperFunctions P before g).isSome = true := by rw [hlist,hf.2]
    obtain ⟨n,hg⟩ := Option.isSome_iff_exists.mp hl
    have := (hsome n).mpr ⟨hf,hg⟩
    rw [hn] at this
    cases this

theorem Recorded.round {info info' : Helper} (hinfo : initHelperFunctions P before k = some info)
    (h : optimizeHelperFunc (P.bound before (listed P before)) (initHelperFunctions P before) k
      info = some info') : Recorded P (k :: before) k info' := by
  have hv : VisitedAll P.layout (initHelperFunctions P before) k (P.body k)
      { info with isInitialized := true } info' := visitAll_visited (P := P.bound before _) h
  have hfresh := (hrecord k info hinfo).fresh hk
  subst hfresh
  have hlock : listed P before k = true := by
    rw [← hlist,hinfo]
    rfl
  have hin := mem_includeHelper hlock
  have hear : earlier (k :: before) k = before := by simp [earlier]
  constructor
  · rw [hv.initialized]
    simp
  · simp
  · intro _ d s
    rw [hv.states,hear]
    constructor
    · rintro (⟨i,hi,hgain⟩ | hnil)
      · cases i with
        | access d' p =>
          cases p with
          | env off size =>
            obtain ⟨rfl,hs⟩ := hgain
            obtain ⟨hsize,hsome⟩ := P.inside k hin _ off size hi
            obtain ⟨l,hl⟩ := Option.isSome_iff_exists.mp hsome
            rw [hl,Option.getD_some] at hs
            exact .env hi ((P.layout.mem_statesAt hsize hl s).mp hs)
          | through src => exact hgain.elim
        | passed callee reach => exact hgain.elim
        | call g args =>
          obtain ⟨n,hn,hs⟩ := hgain
          obtain ⟨hf,hg⟩ := (nested_eq_some hk hlist hrecord g n).mp hn
          exact .call hi hf (((hrecord g n hg).states hf.1 d s).mp hs)
      · cases d <;> simp [Helper.states] at hnil
    · intro hc
      apply Or.inl
      cases hc with
      | @env _ _ _ _ off size hmem hs =>
        obtain ⟨hsize,hsome⟩ := P.inside k hin _ off size hmem
        obtain ⟨l,hl⟩ := Option.isSome_iff_exists.mp hsome
        refine ⟨_,hmem,rfl,?_⟩
        rw [hl,Option.getD_some]
        exact (P.layout.mem_statesAt hsize hl s).mpr hs
      | @call _ _ _ _ g args hmem hf hs =>
        have hl : (initHelperFunctions P before g).isSome = true := by rw [hlist,hf.2]
        obtain ⟨n,hg⟩ := Option.isSome_iff_exists.mp hl
        refine ⟨_,hmem,n,(nested_eq_some hk hlist hrecord g n).mpr ⟨hf,hg⟩,?_⟩
        exact ((hrecord g n hg).states hf.1 d s).mpr hs
  · intro _
    rw [hv.flag,hear,Quiet]
    cases hlast : lastCall (P.body k) with
    | none => simp
    | some g =>
      rw [nested_isNone hk hlist hrecord g]
      simp
  · intro _
    rw [hv.args,UsesArgument]
    simp

end

end Round

variable {k : String}

theorem Recorded.other (hr : Recorded P before h info) (hne : h ≠ k) :
    Recorded P (k :: before) h info := by
  have hmem : h ∈ k :: before ↔ h ∈ before := by simp [hne]
  have hear : earlier (k :: before) h = earlier before h := by simp [earlier,Ne.symm hne]
  constructor
  · rw [hr.initialized,decide_eq_decide]
    exact hmem.symm
  · intro hnot
    exact hr.fresh (fun h => hnot (hmem.mpr h))
  · intro hin
    rw [hear]
    exact hr.states (hmem.mp hin)
  · intro hin
    rw [hear]
    exact hr.flag (hmem.mp hin)
  · intro hin
    exact hr.args (hmem.mp hin)

theorem optimizeHelperFunc_eq_none (info : Helper)
    (hlist : ∀ h, (initHelperFunctions P before h).isSome = listed P before h) :
    optimizeHelperFunc (P.bound before (listed P before)) (initHelperFunctions P before) k info =
      none ↔ aborts (P.bound before (listed P before)) (listed P before) k = true := by
  have hnone : ∀ g, initHelperFunctions P before g = none ↔ listed P before g = false := by
    intro g
    rw [← hlist g]
    simp
  unfold optimizeHelperFunc aborts
  rw [visitAll_eq_none,any_eq_true]
  constructor
  · rintro ⟨g,args,hmem,ha,hg⟩
    rw [hnone g] at hg
    exact ⟨_,hmem,by simpa [ha] using hg⟩
  · rintro ⟨i,hmem,hi⟩
    cases i with
    | access d p => simp at hi
    | passed callee reach => simp at hi
    | call g args =>
      simp only [Bool.and_eq_true,Bool.or_eq_true,Bool.not_eq_true',← hnone] at hi
      exact ⟨g,args,hmem,hi⟩

theorem listed_cons_of_ne (hne : h ≠ k) : listed P (k :: before) h = listed P before h := by
  simp [listed,hne]

theorem initHelper_of_ne (funcs : HelperFuncs) (hne : h ≠ k) :
    initHelper P funcs k h = funcs h := by
  unfold initHelper
  cases funcs k with
  | none => rfl
  | some info => exact Function.update_of_ne hne _ _

theorem initHelper_self (funcs : HelperFuncs) (k : String) :
    initHelper P funcs k k = (funcs k).bind (optimizeHelperFunc P funcs k) := by
  unfold initHelper
  cases hk : funcs k with
  | none => exact hk
  | some info => exact Function.update_self _ _ _

theorem initHelperFunctions_spec (hnodup : done.Nodup) :
    (∀ h, (initHelperFunctions P done h).isSome = listed P done h) ∧
      ∀ h info, initHelperFunctions P done h = some info → Recorded P done h info := by
  induction done with
  | nil =>
    have hinit : ∀ h, initHelperFunctions P [] h =
        if P.includeHelper.contains h then some ⟨⟨[],[],false,false⟩,false⟩ else none :=
      fun _ => rfl
    constructor
    · intro h
      rw [hinit,listed]
      cases P.includeHelper.contains h <;> rfl
    · intro h info hinfo
      rw [hinit] at hinfo
      split at hinfo
      · cases hinfo
        constructor <;> simp
      · cases hinfo
  | cons k before ih =>
    rw [nodup_cons] at hnodup
    obtain ⟨hlist,hrecord⟩ := ih hnodup.2
    have hround : ∀ h, h ≠ k →
        initHelperFunctions P (k :: before) h = initHelperFunctions P before h :=
      fun h hne => initHelper_of_ne _ hne
    have hself : initHelperFunctions P (k :: before) k = (initHelperFunctions P before k).bind
        (optimizeHelperFunc (P.bound before (listed P before))
          (initHelperFunctions P before) k) := by
      rw [← funext hlist]
      exact initHelper_self _ k
    constructor
    · intro h
      by_cases hne : h = k
      · subst hne
        rw [hself]
        cases hk : initHelperFunctions P before h with
        | none =>
          have hl := hlist h
          rw [hk] at hl
          simp [listed,← hl]
        | some info =>
          have hl := hlist h
          rw [hk] at hl
          have hnone := optimizeHelperFunc_eq_none (k := h) info hlist
          rw [Option.bind_some,listed,← hl,Bool.eq_iff_iff,Option.isSome_iff_ne_none]
          simp [hnone]
      · rw [hround h hne,hlist h,listed_cons_of_ne hne]
    · intro h info hinfo
      by_cases hne : h = k
      · subst hne
        rw [hself,Option.bind_eq_some_iff] at hinfo
        obtain ⟨old,hold,hopt⟩ := hinfo
        exact Recorded.round hnodup.1 hlist hrecord hold hopt
      · rw [hround h hne] at hinfo
        exact (hrecord h info hinfo).other hne

theorem sound_iff_escapes (hnodup : done.Nodup) (spared : Helper → (Nat → List Nat) → Nat → Prop)
    (allowed : String → (Nat → List Nat) → Nat → Prop)
    (hspared : ∀ h info, Recorded P done h info → h ∈ done →
      ∀ ρ s, spared info ρ s ↔ allowed h ρ s) :
    (∀ h ∈ done, ∀ info, initHelperFunctions P done h = some info → info.hasNestedCall = false →
      ∀ ρ d s, Touches P h ρ d s → s ∈ info.states d ∨ spared info ρ s) ↔
    ∀ h ∈ done, listed P done h = true → Quiet P (earlier done h) h →
      ∀ ρ d s, Escapes P (earlier done h) h ρ d s →
        Collected P (earlier done h) h d s ∨ allowed h ρ s := by
  obtain ⟨hlist,hrecord⟩ := initHelperFunctions_spec (P := P) hnodup
  constructor
  · intro hsound h hin hl hqueue ρ d s hesc
    have hsome : (initHelperFunctions P done h).isSome = true := by rw [hlist,hl]
    obtain ⟨info,hinfo⟩ := Option.isSome_iff_exists.mp hsome
    have hr := hrecord h info hinfo
    have hs := hsound h hin info hinfo ((hr.flag hin).mpr hqueue) ρ d s hesc.touches
    rwa [hr.states hin,hspared h info hr hin] at hs
  · intro hcond h hin info hinfo hflag ρ d s ht
    have hr := hrecord h info hinfo
    have hl : listed P done h = true := by
      rw [← hlist,hinfo]
      rfl
    rw [hr.states hin,hspared h info hr hin]
    cases ht.cases (earlier done h) with
    | inl hc => exact .inl hc
    | inr hesc => exact hcond h hin hl ((hr.flag hin).mp hflag) ρ d s hesc

/-- A helper marked as having no nested call has every field it touches in its sets exactly if what
escapes the analysis is collected elsewhere in it. -/
theorem helperStates_sound_iff (P : Program) {done : List String} (hnodup : done.Nodup) :
    (Sound P done ↔
      ∀ h ∈ done, listed P done h = true → Quiet P (earlier done h) h →
        ∀ ρ d s, Escapes P (earlier done h) h ρ d s → Collected P (earlier done h) h d s) ∧
    (SoundUpToArgs P done ↔
      ∀ h ∈ done, listed P done h = true → Quiet P (earlier done h) h →
        ∀ ρ d s, Escapes P (earlier done h) h ρ d s →
          Collected P (earlier done h) h d s ∨ UsesArgument P h ∧ ∃ i, s ∈ ρ i) := by
  constructor
  · have hiff := sound_iff_escapes (P := P) hnodup (fun _ _ _ => False) (fun _ _ _ => False)
      (fun _ _ _ _ _ _ => Iff.rfl)
    simp only [or_false] at hiff
    exact hiff
  · apply sound_iff_escapes hnodup (fun info ρ s => info.mayConflictArg = true ∧ ∃ i, s ∈ ρ i)
      (fun h ρ s => UsesArgument P h ∧ ∃ i, s ∈ ρ i)
    intro h info hr hin ρ s
    rw [hr.args hin]

def checkProgram : Program where
  layout := ⟨[(0,8),(8,8)],by decide,by decide⟩
  includeHelper := ["helper_ld","helper_pop","helper_chk"]
  configNet := false
  available := fun g => g == "raise_exception"
  body
    | "helper_ld" => [.access .read (.env 0 8)]
    | "helper_pop" => [.call "helper_ld" [],.access .write (.env 8 8)]
    | "helper_chk" => [.call "raise_exception" [],.call "helper_ld" []]
    | "raise_exception" => [.access .write (.env 8 8)]
    | _ => []
  inside := by
    intro h hh d off size hmem
    simp only [List.mem_cons,List.not_mem_nil,or_false] at hh
    rcases hh with rfl | rfl | rfl
    · simp at hmem
      obtain ⟨rfl,rfl,rfl⟩ := hmem
      decide
    · simp at hmem
      obtain ⟨rfl,rfl,rfl⟩ := hmem
      decide
    · simp at hmem

theorem helper_ld_no_escape (before : List String) (ρ : Nat → List Nat) (d : Dir) (s : Nat) :
    ¬ Escapes checkProgram before "helper_ld" ρ d s := by
  intro hesc
  cases hesc with
  | through hmem | passed hmem | unfollowed hmem | followed hmem => simp [checkProgram] at hmem

theorem helper_pop_no_escape (ρ : Nat → List Nat) (d : Dir) (s : Nat) :
    ¬ Escapes checkProgram ["helper_ld"] "helper_pop" ρ d s := by
  intro hesc
  cases hesc with
  | through hmem | passed hmem => simp [checkProgram] at hmem
  | unfollowed hmem hg =>
    simp only [checkProgram,mem_cons,Inst.call.injEq,reduceCtorEq,not_mem_nil,or_false] at hmem
    obtain ⟨rfl,-⟩ := hmem
    exact hg ⟨by decide,by decide⟩
  | followed hmem _ hs =>
    simp only [checkProgram,mem_cons,Inst.call.injEq,reduceCtorEq,not_mem_nil,or_false] at hmem
    obtain ⟨rfl,-⟩ := hmem
    exact helper_ld_no_escape _ _ _ _ hs

theorem helperStates_sound_pop :
    ["helper_pop", "helper_ld"].Nodup ∧ Sound checkProgram ["helper_pop", "helper_ld"] := by
  refine ⟨by decide,(helperStates_sound_iff checkProgram (by decide)).1.mpr ?_⟩
  intro h hh _ _ ρ d s hesc
  simp only [mem_cons,not_mem_nil,or_false] at hh
  rcases hh with rfl | rfl
  · exact absurd hesc (helper_pop_no_escape ρ d s)
  · exact absurd hesc (helper_ld_no_escape _ ρ d s)

theorem checkProgram_touches (ρ : Nat → List Nat) :
    Touches checkProgram "helper_chk" ρ .write 8 := by
  have hcall : Inst.call "raise_exception" [] ∈ checkProgram.body "helper_chk" := by decide
  have hstore : Inst.access .write (.env 8 8) ∈ checkProgram.body "raise_exception" := by decide
  exact .call hcall (.env hstore ⟨8,by decide,by decide,by decide⟩)

/-- The call of `helper_ld` clears the mark that the call of the unknown function has set. -/
theorem helperStates_drop_write :
    ["helper_chk", "helper_ld"].Nodup ∧ ¬ Sound checkProgram ["helper_chk", "helper_ld"] ∧
      ¬ SoundUpToArgs checkProgram ["helper_chk", "helper_ld"] := by
  have hinfo : initHelperFunctions checkProgram ["helper_chk","helper_ld"] "helper_chk" =
      some ⟨⟨[0],[],false,false⟩,true⟩ := by decide
  have htouch := checkProgram_touches fun _ => []
  refine ⟨by decide,?_,?_⟩
  · intro hsound
    have hs := hsound "helper_chk" (by decide) _ hinfo rfl _ _ _ htouch
    simp [Helper.states] at hs
  · intro hsound
    have hs := hsound "helper_chk" (by decide) _ hinfo rfl _ _ _ htouch
    simp [Helper.states] at hs

end Hqemu.Llvm.HelperStates
