import Hqemu.Llvm.StateIr

/-! Deferred write-back: a function on a copy of CPUState, a machine with two memories. -/
namespace Hqemu.Llvm.Deferred
open StateIr

structure Split where
  cur : Mem
  base : Mem

def Split.synced (ctx : Context) (callee : String) (args : List Nat) (x : Split) : Mem :=
  fun s => if ctx.mayRead callee args s then x.cur s else x.base s

/-- After a call the states it may write are read again. -/
def Split.reload (ctx : Context) (callee : String) (args : List Nat) (x : Split)
    (base : Mem) : Split where
  cur := fun s => if ctx.mayWrite callee args s then base s else x.cur s
  base := base

inductive Post
  | never
  | beforeTail
  | atEnd
deriving DecidableEq, Repr

def Split.flush (ctx : Context) (wanted : Bool) (x : Split) : Split :=
  { x with base := fun s => if wanted && !ctx.scratch s then x.cur s else x.base s }

def step (ctx : Context) (env : Env) (op : Op) (x : Split) (h : List Event) :
    Split × List Event :=
  match op with
  | .load a => (x,.loaded a (x.cur.get a) :: h)
  | .store a => ({ x with cur := x.cur.put a (env.value a h) },.stored a (env.value a h) :: h)
  | .call callee args =>
    let view := see ctx callee args (x.synced ctx callee args)
    (x.reload ctx callee args
      (write ctx callee args (env.helper callee args h view) (x.synced ctx callee args)),
      .called callee args view :: h)

def exec (ctx : Context) (env : Env) : List Op → Split → List Event → Split × List Event
  | [], x, h => (x,h)
  | op :: ops, x, h =>
    let r := step ctx env op x h
    exec ctx env ops r.1 r.2

variable {ctx : Context}

def execBlock (F : IrFunction ctx) (post : Nat → Post) (env : Env) (b : Nat) (x : Split)
    (h : List Event) : Split × List Event :=
  let r := exec ctx env (F.block b).ops x h
  let t := exec ctx env (F.block b).tail (r.1.flush ctx (post b == .beforeTail)) r.2
  (t.1.flush ctx (post b == .atEnd),t.2)

def machine (F : IrFunction ctx) (post : Nat → Post) (env : Env) :
    Lib.Cfg.Machine Split Event Mem where
  block := execBlock F post env
  leave x := visible ctx x.base

def observe (F : IrFunction ctx) (post : Nat → Post) (env : Env) (mem : Mem) (fuel : Nat) :
    List Event × Option Mem :=
  Lib.Cfg.walk F.graph (machine F post env) .took env.branch fuel F.graph.entry ⟨mem,mem⟩ []

theorem exec_append (env : Env) (ops rest : List Op) (x : Split) (l : List Event) :
    exec ctx env (ops ++ rest) x l =
      exec ctx env rest (exec ctx env ops x l).1 (exec ctx env ops x l).2 := by
  induction ops generalizing x l with
  | nil => rfl
  | cons op ops ih => exact ih _ _

theorem Split.flush_false (x : Split) : x.flush ctx false = x := by
  simp [Split.flush]

variable {F : IrFunction ctx} {post : Nat → Post} {b : Nat}

theorem execBlock_never (hpost : post b = .never) (env : Env) (x : Split) (l : List Event) :
    execBlock F post env b x l = exec ctx env (F.block b).body x l := by
  have hearly : (Post.never == Post.beforeTail) = false := rfl
  have hlate : (Post.never == Post.atEnd) = false := rfl
  simp [execBlock,hpost,hearly,hlate,Split.flush_false,Block.body,exec_append]

theorem execBlock_atEnd (hpost : post b = .atEnd) (env : Env) (x : Split) (l : List Event) :
    execBlock F post env b x l =
      ((exec ctx env (F.block b).body x l).1.flush ctx true,
        (exec ctx env (F.block b).body x l).2) := by
  have hearly : (Post.atEnd == Post.beforeTail) = false := rfl
  simp [execBlock,hpost,hearly,Split.flush_false,Block.body,exec_append]

theorem execBlock_beforeTail (hpost : post b = .beforeTail) (env : Env) (x : Split)
    (l : List Event) :
    execBlock F post env b x l =
      exec ctx env (F.block b).tail ((exec ctx env (F.block b).ops x l).1.flush ctx true)
        (exec ctx env (F.block b).ops x l).2 := by
  have hlate : (Post.beforeTail == Post.atEnd) = false := rfl
  simp [execBlock,hpost,hlate,Split.flush_false]

/-- For each state, the bits stored since the state was last written back or read again,
and the bits whose last store has been dropped. -/
structure Marks where
  pend : Mem
  lost : Mem

def Marks.none : Marks := ⟨fun _ => 0,fun _ => 0⟩

def Marks.Clear (ctx : Context) (m : Marks) : Op → Prop
  | .load a => m.lost.get a = 0
  | .store _ => True
  | .call callee args => ∀ s, ctx.mayRead callee args s = true → m.lost s = 0

/-- A state that a helper may write but not read is read again without having been written
back, so what is pending on it is dropped. -/
def Marks.after (ctx : Context) (m : Marks) : Op → Marks
  | .load _ => m
  | .store a => ⟨m.pend.put a (2^a.bits-1),m.lost.put a 0⟩
  | .call callee args =>
    ⟨fun s => if ctx.mayRead callee args s || ctx.mayWrite callee args s then 0 else m.pend s,
     fun s => if ctx.mayWrite callee args s && !ctx.mayRead callee args s
      then m.lost s ||| m.pend s else m.lost s⟩

def Marks.flush (ctx : Context) (wanted : Bool) (m : Marks) : Marks :=
  { m with pend := fun s => if wanted && !ctx.scratch s then 0 else m.pend s }

def Marks.Settled (ctx : Context) (m : Marks) : Prop :=
  ∀ s, ctx.scratch s = false → m.pend s = 0 ∧ m.lost s = 0

def Marks.scan (ctx : Context) : List Op → Marks → Marks
  | [], m => m
  | op :: ops, m => scan ctx ops (m.after ctx op)

def SafeOps (ctx : Context) : List Op → Marks → Prop
  | [], _ => True
  | op :: ops, m => m.Clear ctx op ∧ SafeOps ctx ops (m.after ctx op)

def tailMarks (F : IrFunction ctx) (post : Nat → Post) (b : Nat) (m : Marks) : Marks :=
  (m.scan ctx (F.block b).ops).flush ctx (post b == .beforeTail)

def endMarks (F : IrFunction ctx) (post : Nat → Post) (b : Nat) (m : Marks) : Marks :=
  ((tailMarks F post b m).scan ctx (F.block b).tail).flush ctx (post b == .atEnd)

def SafeBlock (F : IrFunction ctx) (post : Nat → Post) (b : Nat) (m : Marks) : Prop :=
  SafeOps ctx (F.block b).ops m ∧ SafeOps ctx (F.block b).tail (tailMarks F post b m)

/-- Along a path, given by the way out it takes of each block, no operation and no exit
meets a dropped store. -/
def SafeAlong (F : IrFunction ctx) (post : Nat → Post) : List Nat → Nat → Marks → Prop
  | path, b, m =>
    SafeBlock F post b m ∧
      if F.graph.leaf b then (endMarks F post b m).Settled ctx
      else match path with
        | [] => True
        | k :: path => SafeAlong F post path (F.graph.next b k) (endMarks F post b m)

def Safe (F : IrFunction ctx) (post : Nat → Post) : Prop :=
  ∀ path, SafeAlong F post path F.graph.entry .none

structure Agrees (m : Marks) (mem : Mem) (x : Split) : Prop where
  cur : ∀ s i, (m.lost s).testBit i = false → (mem s).testBit i = (x.cur s).testBit i
  base : ∀ s i, (m.pend s).testBit i = false → (x.cur s).testBit i = (x.base s).testBit i

theorem Agrees.refl (mem : Mem) : Agrees .none mem ⟨mem,mem⟩ := ⟨fun _ _ _ => rfl,fun _ _ _ => rfl⟩

variable {m : Marks} {mem : Mem} {x : Split}

theorem Agrees.cur_eq (h : Agrees m mem x) {s : Nat} (hs : m.lost s = 0) : mem s = x.cur s := by
  apply Nat.eq_of_testBit_eq
  intro i
  exact h.cur s i (by simp [hs])

theorem Agrees.base_eq (h : Agrees m mem x) {s : Nat} (hs : m.pend s = 0) : x.cur s = x.base s := by
  apply Nat.eq_of_testBit_eq
  intro i
  exact h.base s i (by simp [hs])

theorem get_eq_zero_iff (mem : Mem) (a : Access) :
    mem.get a = 0 ↔ ∀ i, a.Covers a.state i → (mem a.state).testBit i = false := by
  have hz : Mem.get (fun _ => 0) a = 0 := by simp [Mem.get,Lib.Bits.extract]
  rw [← hz,get_eq_iff]
  simp

section

variable (h : Agrees m mem x)
include h

theorem Agrees.get_eq {a : Access} (ha : m.lost.get a = 0) : mem.get a = x.cur.get a := by
  rw [get_eq_iff]
  intro i hi
  exact h.cur _ i ((get_eq_zero_iff _ _).mp ha i hi)

theorem Agrees.store (a : Access) (v : Nat) :
    Agrees (m.after ctx (.store a)) (mem.put a v) { x with cur := x.cur.put a v } := by
  constructor
  · intro s i
    simp only [Marks.after,testBit_put]
    split
    · intro _
      rfl
    · exact h.cur s i
  · intro s i
    simp only [Marks.after,testBit_put]
    split
    · rename_i hi
      have hlt : i-a.diff < a.bits := by have := hi.2; omega
      simp [Nat.testBit_two_pow_sub_one,hlt]
    · exact h.base s i

theorem Agrees.see_eq {callee : String} {args : List Nat} (hclear : m.Clear ctx (.call callee args))
    :
    see ctx callee args mem = see ctx callee args (x.synced ctx callee args) := by
  funext s
  unfold see Split.synced
  by_cases hs : ctx.mayRead callee args s = true
  · simp only [hs,if_true]
    exact h.cur_eq (hclear s hs)
  · simp [hs]

theorem Agrees.call {callee : String} {args : List Nat}
    (hclear : m.Clear ctx (.call callee args)) (effect : Mem × Mem) :
    Agrees (m.after ctx (.call callee args)) (write ctx callee args effect mem)
      (x.reload ctx callee args (write ctx callee args effect (x.synced ctx callee args))) := by
  constructor
  · intro s i
    simp only [Marks.after,Split.reload,write,Split.synced]
    by_cases hw : ctx.mayWrite callee args s = true
    · by_cases hr : ctx.mayRead callee args s = true
      · simp [hw,hr,h.cur_eq (hclear s hr)]
      · simp only [hw,hr,Bool.not_false,Bool.and_self,if_true,Nat.testBit_or,
          Bool.or_eq_false_iff,Bool.false_eq_true,if_false,Lib.Bits.testBit_blend]
        rintro ⟨hlost,hpend⟩
        rw [h.cur s i hlost,h.base s i hpend]
    · simpa [hw] using h.cur s i
  · intro s i
    simp only [Marks.after,Split.reload,write,Split.synced]
    by_cases hw : ctx.mayWrite callee args s = true
    · simp [hw]
    by_cases hr : ctx.mayRead callee args s = true
    · simp [hw,hr]
    · simpa [hw,hr] using h.base s i

theorem Agrees.flush (wanted : Bool) : Agrees (m.flush ctx wanted) mem (x.flush ctx wanted) := by
  constructor
  · exact h.cur
  intro s i
  simp only [Marks.flush,Split.flush]
  cases wanted && !ctx.scratch s with
  | true => simp
  | false => simpa using h.base s i

theorem Agrees.step (env : Env) {op : Op} (hclear : m.Clear ctx op) (l : List Event) :
    (StateIr.step ctx env op mem l).2 = (step ctx env op x l).2 ∧
      Agrees (m.after ctx op) (StateIr.step ctx env op mem l).1 (step ctx env op x l).1 := by
  cases op with
  | load a =>
    refine ⟨?_,h⟩
    simp [StateIr.step,Deferred.step,h.get_eq hclear]
  | store a => exact ⟨rfl,h.store a _⟩
  | call callee args =>
    have hview := h.see_eq hclear
    simp only [StateIr.step,Deferred.step,hview,true_and]
    exact h.call hclear _

theorem Agrees.exec (env : Env) {ops : List Op} (hsafe : SafeOps ctx ops m) (l : List Event) :
    (StateIr.exec ctx env ops mem l).2 = (exec ctx env ops x l).2 ∧
      Agrees (m.scan ctx ops) (StateIr.exec ctx env ops mem l).1 (exec ctx env ops x l).1 := by
  induction ops generalizing m mem x l with
  | nil => exact ⟨rfl,h⟩
  | cons op ops ih =>
    have hs := h.step env hsafe.1 l
    have hrest := ih hs.2 hsafe.2 (StateIr.step ctx env op mem l).2
    simp only [StateIr.exec,Deferred.exec,Marks.scan]
    rw [← hs.1]
    exact hrest

end

theorem stateIr_exec_append (env : Env) (ops tail : List Op) (mem : Mem) (l : List Event) :
    StateIr.exec ctx env (ops ++ tail) mem l =
      StateIr.exec ctx env tail (StateIr.exec ctx env ops mem l).1
        (StateIr.exec ctx env ops mem l).2 := by
  induction ops generalizing mem l with
  | nil => rfl
  | cons op ops ih => exact ih _ _

theorem Agrees.block (h : Agrees m mem x) (env : Env) (hsafe : SafeBlock F post b m)
    (l : List Event) :
    (StateIr.exec ctx env (F.block b).body mem l).2 = (execBlock F post env b x l).2 ∧
      Agrees (endMarks F post b m) (StateIr.exec ctx env (F.block b).body mem l).1
        (execBlock F post env b x l).1 := by
  have hops := h.exec env hsafe.1 l
  have htail := (hops.2.flush (post b == .beforeTail)).exec env hsafe.2
    (StateIr.exec ctx env (F.block b).ops mem l).2
  unfold Block.body execBlock endMarks
  rw [stateIr_exec_append]
  dsimp only
  rw [← hops.1]
  exact ⟨htail.1,htail.2.flush _⟩

theorem Agrees.visible (h : Agrees m mem x) (hm : m.Settled ctx) :
    visible ctx mem = visible ctx x.base := by
  funext s
  unfold StateIr.visible
  cases hs : ctx.scratch s with
  | true => rfl
  | false =>
    rw [h.cur_eq (hm s hs).2,h.base_eq (hm s hs).1]

section paths
variable {F : IrFunction ctx} {post : Nat → Post} {b : Nat} {m : Marks}

theorem safeAlong_nil : SafeAlong F post [] b m ↔
    SafeBlock F post b m ∧ (F.graph.leaf b = true → (endMarks F post b m).Settled ctx) := by
  unfold SafeAlong
  cases F.graph.leaf b <;> simp

theorem safeAlong_cons (k : Nat) (path : List Nat) : SafeAlong F post (k :: path) b m ↔
    SafeBlock F post b m ∧ (F.graph.leaf b = true → (endMarks F post b m).Settled ctx) ∧
      (F.graph.leaf b = false →
        SafeAlong F post path (F.graph.next b k) (endMarks F post b m)) := by
  rw [SafeAlong]
  cases F.graph.leaf b <;> simp

end paths

theorem leaf_of_mem {c : Nat} (hc : c ∈ F.graph.succs b) : F.graph.leaf b = false := by
  cases hl : F.graph.leaf b with
  | false => rfl
  | true =>
    rw [Lib.Cfg.Graph.leaf,List.isEmpty_iff] at hl
    simp [hl] at hc

def Entered (F : IrFunction ctx) (post : Nat → Post) (b : Nat) (mem : Mem) (x : Split) : Prop :=
  ∃ m, Agrees m mem x ∧ ∀ path, SafeAlong F post path b m

theorem Entered.next {c : Nat} (h : Entered F post b mem x) (env : Env) (l : List Event)
    (hc : c ∈ F.graph.succs b) :
    Entered F post c (StateIr.exec ctx env (F.block b).body mem l).1
      (execBlock F post env b x l).1 := by
  obtain ⟨m,hagrees,hpaths⟩ := h
  obtain ⟨k,rfl⟩ := Lib.Cfg.Graph.exists_next hc
  have hblock := (safeAlong_nil.mp (hpaths [])).1
  refine ⟨endMarks F post b m,(hagrees.block env hblock l).2,?_⟩
  intro path
  exact ((safeAlong_cons k path).mp (hpaths (k :: path))).2.2 (leaf_of_mem hc)

theorem observe_eq_of_safe (hsafe : Safe F post) (env : Env) (mem : Mem) (fuel : Nat) :
    StateIr.observe F env mem fuel = observe F post env mem fuel := by
  apply Lib.Cfg.walk_simulation (Entered F post)
  · intro b mem x l h
    obtain ⟨m,hagrees,hpaths⟩ := h
    exact (hagrees.block env (safeAlong_nil.mp (hpaths [])).1 l).1
  · intro b mem x l h hleaf
    obtain ⟨m,hagrees,hpaths⟩ := h
    have hnil := safeAlong_nil.mp (hpaths [])
    exact (hagrees.block env hnil.1 l).2.visible (hnil.2 hleaf)
  · intro b mem x l c h hc
    exact h.next env l hc
  · exact ⟨.none,Agrees.refl mem,hsafe⟩

end Hqemu.Llvm.Deferred
