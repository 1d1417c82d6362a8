import Hqemu.Llvm.Allocas
import Hqemu.Llvm.LostStores
import Mathlib.Data.List.TakeWhile

/-! The loop mode of the state mapping pass, in which all states live in allocas. -/
namespace Hqemu.Llvm.LoopMapping
open List StateIr Allocas
open Deferred (Split Post flagContext storeOne)

variable {ctx : Context}

def stateUse (F : IrFunction ctx) (s : Nat) : Bool :=
  (F.blocks.flatMap Block.body).any fun op =>
    match op with
    | .load a => a.state == s
    | _ => false

def stateDef (F : IrFunction ctx) (s : Nat) : Bool :=
  (F.blocks.flatMap Block.body).any fun op =>
    match op with
    | .store a => a.state == s
    | _ => false

def calls (F : IrFunction ctx) : List String :=
  (F.blocks.flatMap Block.body).filterMap fun op =>
    match op with
    | .call callee _ => some callee
    | _ => none

def knownHelper (ctx : Context) (callee : String) : Option HelperInfo :=
  (ctx.helperFuncs callee).filter fun h => !h.hasNestedCall

/-- The first loop of `SyncHelperState`: it stops at the first unknown helper. -/
def maskedUse (F : IrFunction ctx) (s : Nat) : Bool :=
  let before := (calls F).takeWhile fun callee => (knownHelper ctx callee).isSome
  let hasUnknownHelper := (calls F).any fun callee => (knownHelper ctx callee).isNone
  stateUse F s
    || (stateDef F s && before.any fun callee =>
      (knownHelper ctx callee).any fun h => h.stateDef.contains s)
    || (hasUnknownHelper && stateDef F s)

def deadDef (F : IrFunction ctx) (callee : String) (args : List Nat) (s : Nat) : Bool :=
  match knownHelper ctx callee with
  | none => stateDef F s
  | some h => (h.stateUse.contains s && stateDef F s) ||
      ((h.mayConflictArg && args.contains s) && stateDef F s)

def deadUse (F : IrFunction ctx) (callee : String) (args : List Nat) (s : Nat) : Bool :=
  match knownHelper ctx callee with
  | none => maskedUse F s
  | some h => (h.stateDef.contains s && maskedUse F s) ||
      ((h.mayConflictArg && args.contains s) && (maskedUse F s || stateDef F s))

def syncDef (F : IrFunction ctx) (callee : String) (args : List Nat) : List Inst :=
  ((states F).filter (deadDef F callee args)).map .copyOut

def syncUse (F : IrFunction ctx) (callee : String) (args : List Nat) : List Inst :=
  ((states F).filter (deadUse F callee args)).map .copyIn

def mapOp (F : IrFunction ctx) : Op → List Inst
  | .load a => [.load a]
  | .store a => [.store a]
  | .call callee args =>
    syncDef F callee args ++ (.keep (.call callee args) :: syncUse F callee args)

/-- Nothing is read again in front of an `unreachable`. -/
def mapLast (F : IrFunction ctx) (tailCall : Bool) (op : Op) : List Inst :=
  match op with
  | .call callee args =>
    if tailCall then syncDef F callee args ++ [.keep (.call callee args)] else mapOp F op
  | _ => mapOp F op

def mapOps (F : IrFunction ctx) (tailCall : Bool) : List Op → List Inst
  | [] => []
  | [op] => mapLast F tailCall op
  | op :: ops => mapOp F op ++ mapOps F tailCall ops

def Block.lastCall (b : Block) : Option String :=
  match b.last with
  | .other => none
  | .flagged callee => some callee
  | .op =>
    match b.body.getLast? with
    | some (.call callee _) => some callee
    | _ => none

/-- A tail call that leaves the code cache: `runOnLoop` puts no post-stores there. -/
def skipsPost (b : Block) : Bool :=
  match b.term with
  | .branch _ => false
  | _ =>
    match Block.lastCall b with
    | none => false
    | some callee => callee != "helper_lookup_ibchain"

def postStores (F : IrFunction ctx) : List Inst :=
  ((states F).filter fun s => stateDef F s && !ctx.scratch s).map .copyOut

/-- A leaf that gets post-stores has them at its insert position, which is its end or its
last call; no call stands right before its terminator. -/
def code (F : IrFunction ctx) (b : Nat) : List Inst :=
  let blk := F.block b
  if F.graph.leaf b && !skipsPost blk then
    match blk.exitCall with
    | none => mapOps F false blk.ops ++ postStores F
    | some (callee,args) =>
      mapOps F false blk.ops ++ (syncDef F callee args ++ (postStores F ++
        (.keep (.call callee args) :: syncUse F callee args)))
  else mapOps F (blk.last == .op && blk.term == .unreachable) blk.body

def machine (F : IrFunction ctx) (env : Env) : Lib.Cfg.Machine Frame Event Mem where
  block b := Allocas.exec ctx (stateInfo F) env (code F b)
  leave f := visible ctx f.mem

def observe (F : IrFunction ctx) (env : Env) (mem : Mem) (alloca : Nat → Nat) (fuel : Nat) :
    List Event × Option Mem :=
  let preloaded := (Allocas.exec ctx (stateInfo F) env ((states F).map .copyIn) ⟨mem,alloca⟩ []).1
  Lib.Cfg.walk F.graph (machine F env) .took env.branch fuel F.graph.entry preloaded []

def post (F : IrFunction ctx) (b : Nat) : Post :=
  if F.graph.leaf b && !skipsPost (F.block b) then .beforeTail else .never

variable (F : IrFunction ctx) {b : Nat}

theorem mem_bodies {op : Op} (hop : op ∈ (F.block b).body) :
    op ∈ F.blocks.flatMap Block.body := mem_flatMap.mpr (F.exists_block hop)

theorem stateDef_of_store {a : Access} (hop : Op.store a ∈ (F.block b).body) :
    stateDef F a.state = true := by
  unfold stateDef
  rw [List.any_eq_true]
  exact ⟨_,mem_bodies F hop,by simp⟩

theorem mem_states_iff (s : Nat) : s ∈ states F ↔ stateUse F s = true ∨ stateDef F s = true := by
  unfold states accesses stateUse stateDef
  rw [mem_insertionSort,mem_dedup,List.mem_map]
  simp only [List.any_eq_true]
  constructor
  · rintro ⟨a,ha,rfl⟩
    obtain ⟨op,hop,haccept⟩ := mem_filterMap.mp ha
    cases op with
    | load a' => exact .inl ⟨_,hop,by simp_all [access]⟩
    | store a' => exact .inr ⟨_,hop,by simp_all [access]⟩
    | call callee args => simp [access] at haccept
  · rintro (⟨op,hop,hs⟩ | ⟨op,hop,hs⟩)
    · cases op with
      | load a => exact ⟨a,mem_filterMap.mpr ⟨_,hop,rfl⟩,by simpa using hs⟩
      | store a => simp at hs
      | call callee args => simp at hs
    · cases op with
      | load a => simp at hs
      | store a => exact ⟨a,mem_filterMap.mpr ⟨_,hop,rfl⟩,by simpa using hs⟩
      | call callee args => simp at hs

theorem mayRead_eq (callee : String) (args : List Nat) (s : Nat) :
    ctx.mayRead callee args s = match knownHelper ctx callee with
      | none => true
      | some h => h.stateUse.contains s || (h.mayConflictArg && args.contains s) := by
  unfold Context.mayRead knownHelper
  cases ctx.helperFuncs callee with
  | none => rfl
  | some h => cases hnested : h.hasNestedCall <;> simp [Option.filter,hnested]

theorem mayWrite_eq (callee : String) (args : List Nat) (s : Nat) :
    ctx.mayWrite callee args s = match knownHelper ctx callee with
      | none => true
      | some h => h.stateDef.contains s || (h.mayConflictArg && args.contains s) := by
  unfold Context.mayWrite knownHelper
  cases ctx.helperFuncs callee with
  | none => rfl
  | some h => cases hnested : h.hasNestedCall <;> simp [Option.filter,hnested]

theorem deadDef_eq (callee : String) (args : List Nat) (s : Nat) :
    deadDef F callee args s = (ctx.mayRead callee args s && stateDef F s) := by
  rw [mayRead_eq]
  unfold deadDef
  cases knownHelper ctx callee with
  | none => simp
  | some h => cases stateDef F s <;> simp

variable {callee : String} {args : List Nat} {s : Nat}

theorem mayWrite_of_deadUse {F : IrFunction ctx} (h : deadUse F callee args s = true) :
    ctx.mayWrite callee args s = true := by
  rw [mayWrite_eq]
  unfold deadUse at h
  cases hk : knownHelper ctx callee with
  | none => rfl
  | some i =>
    simp only [hk,Bool.or_eq_true,Bool.and_eq_true] at h ⊢
    rcases h with ⟨hdef,-⟩ | ⟨harg,-⟩
    · exact .inl hdef
    · exact .inr harg

theorem mem_calls (hop : Op.call callee args ∈ (F.block b).body) : callee ∈ calls F :=
  mem_filterMap.mpr ⟨_,mem_bodies F hop,rfl⟩

theorem maskedUse_of_call (hcall : callee ∈ calls F) (hs : s ∈ states F)
    (hdef : (knownHelper ctx callee).all (fun h => h.stateDef.contains s) = true) :
    maskedUse F s = true := by
  rcases (mem_states_iff F s).mp hs with huse | hstore
  · simp [maskedUse,huse]
  unfold maskedUse
  by_cases hunknown : (calls F).any (fun callee => (knownHelper ctx callee).isNone) = true
  · simp [hunknown,hstore]
  have hall : ∀ callee ∈ calls F, (knownHelper ctx callee).isSome = true := by
    intro callee' hmem
    cases hk : knownHelper ctx callee' with
    | some h => rfl
    | none => exact absurd (any_eq_true.mpr ⟨callee',hmem,by simp [hk]⟩) hunknown
  have hbefore : (calls F).takeWhile (fun callee => (knownHelper ctx callee).isSome) = calls F :=
    takeWhile_eq_self_iff.mpr hall
  obtain ⟨h,hk⟩ := Option.isSome_iff_exists.mp (hall callee hcall)
  have hany : (calls F).any (fun callee =>
      (knownHelper ctx callee).any fun h => h.stateDef.contains s) = true := by
    apply any_eq_true.mpr
    refine ⟨callee,hcall,?_⟩
    simpa [hk] using hdef
  simp only [hbefore,hstore,hany,Bool.and_self,Bool.or_true,Bool.true_or]

theorem deadUse_of_mayWrite (hop : Op.call callee args ∈ (F.block b).body) (hs : s ∈ states F)
    (hwrite : ctx.mayWrite callee args s = true) : deadUse F callee args s = true := by
  have hcall := mem_calls F hop
  rw [mayWrite_eq] at hwrite
  unfold deadUse
  cases hk : knownHelper ctx callee with
  | none => exact maskedUse_of_call F hcall hs (by simp [hk])
  | some h =>
    simp only [hk,Bool.or_eq_true] at hwrite ⊢
    rcases hwrite with hdef | harg
    · refine .inl ?_
      rw [hdef,maskedUse_of_call F hcall hs (by simpa [hk] using hdef)]
      rfl
    · refine .inr ?_
      rw [harg]
      rcases (mem_states_iff F s).mp hs with huse | hstore
      · simp [maskedUse,huse]
      · simp [hstore]

structure Rel (F : IrFunction ctx) (f : Frame) (x : Split) : Prop where
  mem : f.mem = x.base
  held : ∀ s ∈ states F, Holds (stateInfo F s) (f.alloca s) (x.base s) (x.cur s)
  same : ∀ s, stateDef F s = false → x.cur s = x.base s

theorem Rel.preload (mem : Mem) (alloca : Nat → Nat) :
    Rel F (Frame.copyIns (stateInfo F) ⟨mem,alloca⟩ (states F)) ⟨mem,mem⟩ := by
  constructor
  · rfl
  · intro s hs
    simp only [Frame.copyIns,hs,if_true]
    exact holds_extract _ _
  · exact fun _ _ => rfl

theorem Holds.written {info : StateInfo} {alloca base cur : Nat} (h : Holds info alloca base cur) :
    Holds info alloca cur cur := by
  refine ⟨?_,h.2⟩
  rw [h.1,Lib.Bits.insert_insert]

section step
variable {F : IrFunction ctx} {f : Frame} {x : Split} {b : Nat}

section

variable (h : Rel F f x)
include h

theorem Rel.syncDef_mem (callee : String) (args : List Nat) :
    (f.copyOuts (stateInfo F) ((states F).filter (deadDef F callee args))).mem =
      x.synced ctx callee args := by
  funext s
  simp only [Frame.copyOuts,Split.synced,h.mem,mem_filter,deadDef_eq,Bool.and_eq_true]
  cases hread : ctx.mayRead callee args s with
  | false => simp
  | true =>
    cases hdef : stateDef F s with
    | false => simp [h.same s hdef]
    | true =>
      have hs : s ∈ states F := (mem_states_iff F s).mpr (.inr hdef)
      simp only [hs,and_self,if_true]
      exact (h.held s hs).1.symm

theorem Rel.reload {callee : String} {args : List Nat}
    (hop : Op.call callee args ∈ (F.block b).body) (effect : Mem × Mem) :
    Rel F (Frame.copyIns (stateInfo F)
        ⟨write ctx callee args effect (x.synced ctx callee args),f.alloca⟩
        ((states F).filter (deadUse F callee args)))
      (x.reload ctx callee args (write ctx callee args effect (x.synced ctx callee args))) := by
  constructor
  · rfl
  · intro s hs
    simp only [Frame.copyIns,Split.reload,mem_filter,hs,true_and]
    cases hwrite : ctx.mayWrite callee args s with
    | true =>
      rw [deadUse_of_mayWrite F hop hs hwrite]
      exact holds_extract _ _
    | false =>
      have huse : deadUse F callee args s = false := Bool.eq_false_iff.mpr fun hu => by
        simp [mayWrite_of_deadUse hu] at hwrite
      simp only [huse,Bool.false_eq_true,if_false,write,hwrite,Split.synced]
      split
      · exact Holds.written (h.held s hs)
      · exact h.held s hs
  · intro s hs
    simp only [Split.reload,write,Split.synced]
    cases hwrite : ctx.mayWrite callee args s with
    | true => simp
    | false => simp [h.same s hs]

theorem Rel.call (env : Env) (callee : String) (args : List Nat)
    (rest : List Inst) (l : List Event) :
    Allocas.exec ctx (stateInfo F) env
        (syncDef F callee args ++ (.keep (.call callee args) :: rest)) f l =
      Allocas.exec ctx (stateInfo F) env rest
        ⟨(Deferred.step ctx env (.call callee args) x l).1.base,f.alloca⟩
        (Deferred.step ctx env (.call callee args) x l).2 := by
  unfold syncDef
  rw [exec_copyOuts]
  simp only [Allocas.exec,Allocas.step,StateIr.step,Deferred.step,h.syncDef_mem callee args]
  rfl

theorem Rel.mapOp (env : Env) {op : Op} (hop : op ∈ (F.block b).body) (l : List Event) :
    (Allocas.exec ctx (stateInfo F) env (mapOp F op) f l).2 = (Deferred.step ctx env op x l).2 ∧
      Rel F (Allocas.exec ctx (stateInfo F) env (mapOp F op) f l).1
        (Deferred.step ctx env op x l).1 := by
  have hproper := F.block_proper hop
  cases op with
  | load a =>
    have ha : a ∈ accesses F := mem_accesses F hop rfl
    have hload : f.load (stateInfo F) a = x.cur.get a :=
      f.load_eq (stateInfo_fits F ha) hproper (h.held a.state (mem_states F ha))
    simp only [LoopMapping.mapOp,Allocas.exec,Allocas.step,Deferred.step,hload,true_and]
    exact h
  | store a =>
    have ha : a ∈ accesses F := mem_accesses F hop rfl
    refine ⟨rfl,h.mem,?_,?_⟩
    · intro s hs
      by_cases heq : s = a.state
      · subst heq
        have hstore := f.holds_store (stateInfo_fits F ha) hproper (h.held a.state hs)
          (env.value a l)
        simpa only [LoopMapping.mapOp,Allocas.exec,Allocas.step,Deferred.step,Mem.put,
          Function.update_self] using hstore
      · simp only [LoopMapping.mapOp,Allocas.exec,Allocas.step,Frame.store,Deferred.step,
          Function.update_of_ne heq,put_of_ne _ heq]
        exact h.held s hs
    · intro s hs
      have hne : s ≠ a.state := by
        rintro rfl
        simp [stateDef_of_store F hop] at hs
      simp only [Deferred.step,put_of_ne _ hne]
      exact h.same s hs
  | call callee args =>
    simp only [LoopMapping.mapOp]
    rw [h.call env callee args]
    unfold syncUse
    rw [exec_copyIns_end]
    exact ⟨rfl,h.reload hop _⟩

theorem Rel.mapLast (env : Env) (tailCall : Bool) {op : Op}
    (hop : op ∈ (F.block b).body) (l : List Event) :
    (Allocas.exec ctx (stateInfo F) env (mapLast F tailCall op) f l).2 =
        (Deferred.step ctx env op x l).2 ∧
      (Allocas.exec ctx (stateInfo F) env (mapLast F tailCall op) f l).1.mem =
        (Deferred.step ctx env op x l).1.base ∧
      (tailCall = false →
        Rel F (Allocas.exec ctx (stateInfo F) env (mapLast F tailCall op) f l).1
          (Deferred.step ctx env op x l).1) := by
  have hmap := h.mapOp env hop l
  cases op with
  | load a | store a => exact ⟨hmap.1,hmap.2.mem,fun _ => hmap.2⟩
  | call callee args =>
    cases tailCall with
    | false => exact ⟨hmap.1,hmap.2.mem,fun _ => hmap.2⟩
    | true =>
      simp only [LoopMapping.mapLast,if_true]
      rw [h.call env callee args]
      exact ⟨rfl,rfl,fun hfalse => absurd hfalse (by decide)⟩

theorem Rel.mapOps (env : Env) (tailCall : Bool) {ops : List Op}
    (hops : ∀ op ∈ ops, op ∈ (F.block b).body) (l : List Event) :
    (Allocas.exec ctx (stateInfo F) env (mapOps F tailCall ops) f l).2 =
        (Deferred.exec ctx env ops x l).2 ∧
      (Allocas.exec ctx (stateInfo F) env (mapOps F tailCall ops) f l).1.mem =
        (Deferred.exec ctx env ops x l).1.base ∧
      (tailCall = false →
        Rel F (Allocas.exec ctx (stateInfo F) env (mapOps F tailCall ops) f l).1
          (Deferred.exec ctx env ops x l).1) := by
  induction ops generalizing f x l with
  | nil => exact ⟨rfl,h.mem,fun _ => h⟩
  | cons op ops ih =>
    have hop := hops op mem_cons_self
    cases ops with
    | nil => exact h.mapLast env tailCall hop l
    | cons op' ops =>
      have hfirst := h.mapOp env hop l
      have hrest := ih hfirst.2 (fun op'' hmem => hops op'' (mem_cons_of_mem op hmem))
        (Deferred.step ctx env op x l).2
      simp only [LoopMapping.mapOps,exec_append]
      rw [hfirst.1]
      exact hrest

theorem Rel.stored :
    Rel F (f.copyOuts (stateInfo F) ((states F).filter fun s => stateDef F s && !ctx.scratch s))
      (x.flush ctx true) := by
  have hstates : ∀ s, stateDef F s = true → s ∈ states F :=
    fun s hs => (mem_states_iff F s).mpr (.inr hs)
  constructor
  · funext s
    simp only [Frame.copyOuts,Split.flush,h.mem,mem_filter,Bool.true_and]
    cases hscratch : ctx.scratch s with
    | true => simp
    | false =>
      cases hdef : stateDef F s with
      | false => simp [h.same s hdef]
      | true =>
        simp only [hstates s hdef,Bool.not_false,Bool.and_self,and_self,if_true]
        exact (h.held s (hstates s hdef)).1.symm
  · intro s hs
    simp only [Frame.copyOuts,Split.flush]
    split
    · exact Holds.written (h.held s hs)
    · exact h.held s hs
  · intro s hs
    simp [Split.flush,h.same s hs]

end

end step

theorem copyOuts_comm (info : Nat → StateInfo) (f : Frame) (l l' : List Nat) :
    (f.copyOuts info l).copyOuts info l' = (f.copyOuts info l').copyOuts info l := by
  unfold Frame.copyOuts
  congr 1
  funext s
  by_cases hl : s ∈ l <;> by_cases hl' : s ∈ l' <;> simp [hl,hl']

/-- A leaf with post-stores: at its end, or at its last call, where they change places with
the write-backs of the call. -/
theorem Rel.leaf {F : IrFunction ctx} {f : Frame} {x : Split} (h : Rel F f x) (env : Env)
    (hb : (F.graph.leaf b && !skipsPost (F.block b)) = true) (l : List Event) :
    (Allocas.exec ctx (stateInfo F) env (code F b) f l).2 =
        (Deferred.execBlock F (post F) env b x l).2 ∧
      (Allocas.exec ctx (stateInfo F) env (code F b) f l).1.mem =
        (Deferred.execBlock F (post F) env b x l).1.base := by
  have hpost : post F b = .beforeTail := by simp only [post,hb,if_true]
  have hops := h.mapOps env false (b := b)
    (fun op (hop : op ∈ (F.block b).ops) => mem_append_left _ hop) l
  have hstored := (hops.2.2 rfl).stored
  rw [Deferred.execBlock_beforeTail hpost]
  simp only [code,hb,if_true,postStores]
  cases hexit : (F.block b).exitCall with
  | none =>
    simp only [Block.tail,hexit]
    rw [exec_append,exec_copyOuts_end,hops.1]
    exact ⟨rfl,hstored.mem⟩
  | some call =>
    obtain ⟨callee,args⟩ := call
    have hop : Op.call callee args ∈ (F.block b).body := by
      simp [Block.body,Block.tail,hexit]
    have hcall := hstored.mapOp env hop (Deferred.exec ctx env (F.block b).ops x l).2
    simp only [Block.tail,hexit]
    rw [exec_append,hops.1]
    unfold syncDef
    rw [exec_copyOuts,exec_copyOuts,copyOuts_comm,← exec_copyOuts]
    exact ⟨hcall.1,hcall.2.mem⟩

theorem Rel.block {F : IrFunction ctx} {f : Frame} {x : Split} (h : Rel F f x) (env : Env) (b : Nat)
    (l : List Event) :
    (Allocas.exec ctx (stateInfo F) env (code F b) f l).2 =
        (Deferred.execBlock F (post F) env b x l).2 ∧
      (Allocas.exec ctx (stateInfo F) env (code F b) f l).1.mem =
        (Deferred.execBlock F (post F) env b x l).1.base ∧
      (F.graph.leaf b = false → Rel F (Allocas.exec ctx (stateInfo F) env (code F b) f l).1
        (Deferred.execBlock F (post F) env b x l).1) := by
  cases hb : F.graph.leaf b && !skipsPost (F.block b) with
  | true =>
    have hleaf := h.leaf env hb l
    refine ⟨hleaf.1,hleaf.2,fun hnot => ?_⟩
    simp [hnot] at hb
  | false =>
    have hpost : post F b = .never := by simp only [post,hb,Bool.false_eq_true,if_false]
    have hbody := h.mapOps env ((F.block b).last == .op && (F.block b).term == .unreachable)
      (b := b) (fun op hop => hop) l
    rw [Deferred.execBlock_never hpost]
    simp only [code,hb,Bool.false_eq_true,if_false]
    refine ⟨hbody.1,hbody.2.1,fun hnot => hbody.2.2 ?_⟩
    have hterm : ((F.block b).term == .unreachable) = false := by
      cases hterm : (F.block b).term with
      | branch succs => rfl
      | ret => rfl
      | unreachable => simp [Lib.Cfg.Graph.leaf,IrFunction.graph,Block.succs,hterm] at hnot
    rw [hterm,Bool.and_false]

theorem observe_eq_deferred (env : Env) (mem : Mem) (alloca : Nat → Nat) (fuel : Nat) :
    observe F env mem alloca fuel = Deferred.observe F (post F) env mem fuel := by
  unfold observe
  rw [exec_copyIns_end]
  apply Lib.Cfg.walk_simulation fun _ => Rel F
  · intro b f x l h
    exact (h.block env b l).1
  · intro b f x l h _
    simp only [machine,Deferred.machine]
    rw [(h.block env b l).2.1]
  · intro b f x l c h hc
    exact (h.block env b l).2.2 (Deferred.leaf_of_mem hc)
  · exact Rel.preload F mem alloca

/-- The loop mode shows what the function shows exactly when no path loses a store. -/
theorem loopMapping_preserves_iff (F : IrFunction ctx) :
    (∀ env mem alloca fuel,
        observe F env mem alloca fuel = StateIr.observe F env mem fuel) ↔
      Deferred.Safe F (post F) := by
  have hpost : ∀ b, F.graph.leaf b = false → post F b = .never := by
    intro b hb
    simp [post,hb]
  rw [← Deferred.observe_eq_iff_safe F hpost]
  constructor
  · intro hall env mem fuel
    rw [← observe_eq_deferred F env mem (fun _ => 0),hall]
  · intro hall env mem alloca fuel
    rw [observe_eq_deferred,hall]

def loopThenCall : IrFunction (flagContext false) where
  blocks := [
    ⟨[.store ⟨8,0,32⟩,.call "helper_shld" []],none,.other,.branch [1,0]⟩,
    ⟨[],none,.other,.ret⟩]
  proper := by decide

def loopThenTailCall : IrFunction (flagContext false) where
  blocks := [
    ⟨[.store ⟨12,0,32⟩],none,.other,.branch [1,0]⟩,
    ⟨[.call "helper_shld" []],none,.op,.ret⟩]
  proper := by decide

/-- In the first function the store is dropped when the flags are read again after the call,
in the second because the leaf gets no post-stores. -/
theorem loopMapping_drops_stores :
    ((StateIr.observe loopThenCall storeOne (fun _ => 0) 2).2.map (fun mem => mem 8) = some 1 ∧
      (observe loopThenCall storeOne (fun _ => 0) (fun _ => 0) 2).2.map (fun mem => mem 8) =
        some 0) ∧
    ((StateIr.observe loopThenTailCall storeOne (fun _ => 0) 2).2.map (fun mem => mem 12) =
        some 1 ∧
      (observe loopThenTailCall storeOne (fun _ => 0) (fun _ => 0) 2).2.map
        (fun mem => mem 12) = some 0) := by
  decide

/-- Helpers that may read what they may write, and leaves with post-stores, lose no store. -/
theorem observe_eq_of_reads {F : IrFunction ctx} (hreads : Deferred.ReadsWhatItWrites F)
    (hleaves : ∀ b, F.graph.leaf b = true → skipsPost (F.block b) = false) (env : Env)
    (mem : Mem) (alloca : Nat → Nat) (fuel : Nat) :
    observe F env mem alloca fuel = StateIr.observe F env mem fuel := by
  have hsafe : Deferred.Safe F (post F) :=
    Deferred.safe_of_reads hreads fun b hb => by simp [post,hb,hleaves b hb]
  rw [observe_eq_deferred,Deferred.observe_eq_of_safe hsafe]

def readingLoop : IrFunction (flagContext true) := ⟨loopThenCall.blocks,loopThenCall.proper⟩

theorem observe_eq_of_reads_loop :
    observe readingLoop = fun env mem _ => StateIr.observe readingLoop env mem := by
  funext env mem alloca fuel
  refine observe_eq_of_reads (fun b callee args _ s hs => ?_) (fun b _ => ?_) ..
  · by_cases hname : callee = "helper_shld"
    · simpa [Context.mayWrite,Context.mayRead,flagContext,hname] using hs
    · simp [Context.mayRead,flagContext,hname]
  · rcases b with _ | _ | b <;> rfl

end Hqemu.Llvm.LoopMapping
